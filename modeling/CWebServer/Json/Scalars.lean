/-
CWebServer.Json.Scalars — what the lexer checks of numbers, strings and
words, and what it does not.

A number token is a run of number characters and a string token is what
stands between two quotes, or between the last quote and the end of the
input. No other test is made of either: `Scans.number_iff` and
`Scans.string_iff` say which pieces of the partition make them, and
`scalar_lexemes` which tokens of `parseTokens`. Neither rule looks at a
backslash, so a string that needs an escape is not read back
(`encodeString_tokens`).

A word is compared with each keyword over the length of the WORD, so a
proper prefix of a keyword passes for it; an unknown word runs off the end
of `_getTokenTypeFromLiteral`. What is left is that the three keywords are
recognised, and no other word is dealt with as it should be
(`keyword_iff`).

No `sorry`, no `axiom`, no `native_decide`.
-/
import CWebServer.Json.Partition
import CWebServer.Json.Grammar

namespace CWebServer.Json

open Libc

/-! ## Numbers and strings -/

/-- A token of the `switch`, or of its absence, has no literal. -/
theorem lexerSwitch_ne_literal (c : Char) (type : TokenType) (s : List Char) :
    (lexerSwitch c).getD (tokenCreate .illegal none) ≠ tokenCreate type (some s) := by
  intro h
  have hnone := lexerSwitch_literal c
  rw [h] at hnone
  cases hnone

section

variable {w post s : List Char} {t : Token}

theorem Run.ne_quote {p : Char → Bool} (hp : p '"' = false) (h : Run p w post) (v : List Char) :
    w ≠ '"' :: v := by
  intro hw
  have hquote := h.all '"' (by simp [hw])
  rw [hp] at hquote
  cases hquote

theorem Scans.number_iff (h : Scans w post t) :
    t = tokenCreate .number (some s) ↔ w = s ∧ Run isNumber s post := by
  cases h with
  | @alone c _ hc =>
    constructor
    · intro ht
      exact absurd ht (lexerSwitch_ne_literal c _ _)
    · intro hw
      obtain ⟨rfl, hrun⟩ := hw
      have := hrun.all c (by simp)
      rw [hc.2.2.2.1] at this
      cases this
  | closed | unclosed =>
    constructor
    · intro ht
      cases ht
    · intro hw
      obtain ⟨rfl, hrun⟩ := hw
      exact absurd rfl (hrun.ne_quote (by decide) _)
  | number hrun =>
    constructor
    · intro ht
      obtain rfl := Option.some.inj (congrArg Token.literal ht)
      exact ⟨rfl, hrun⟩
    · intro hw
      rw [hw.1]
  | word hword _ =>
    constructor
    · intro ht
      cases ht
    · intro hw
      obtain ⟨rfl, hrun⟩ := hw
      obtain ⟨c, r, rfl⟩ := List.exists_cons_of_ne_nil hrun.ne_nil
      have := hrun.all c (by simp)
      rw [hword.head c rfl] at this
      cases this

/-- A string is closed by the next quote, or by the end of the input. -/
theorem Scans.string_iff (h : Scans w post t) :
    t = tokenCreate .string (some s) ↔
      '"' ∉ s ∧ (w = '"' :: (s ++ ['"']) ∨ (w = '"' :: s ∧ post = [])) := by
  cases h with
  | @alone c _ hc =>
    constructor
    · intro ht
      exact absurd ht (lexerSwitch_ne_literal c _ _)
    · intro hw
      rcases hw.2 with hw | ⟨hw, -⟩ <;> exact absurd (List.cons.inj hw).1 hc.2.2.1
  | @closed s' _ hs =>
    constructor
    · intro ht
      obtain rfl := Option.some.inj (congrArg Token.literal ht)
      exact ⟨hs, Or.inl rfl⟩
    · intro hw
      obtain ⟨hquote, hw | ⟨hw, -⟩⟩ := hw
      · rw [List.append_cancel_right (List.cons.inj hw).2]
      · exact absurd (by rw [← (List.cons.inj hw).2]; simp) hquote
  | @unclosed s' hs =>
    constructor
    · intro ht
      obtain rfl := Option.some.inj (congrArg Token.literal ht)
      exact ⟨hs, Or.inr ⟨rfl, rfl⟩⟩
    · intro hw
      rcases hw.2 with hw | ⟨hw, -⟩
      · exact absurd (by rw [(List.cons.inj hw).2]; simp) hs
      · rw [(List.cons.inj hw).2]
  | number hnum =>
    have hne := hnum.ne_quote (by decide)
    constructor
    · intro ht
      cases ht
    · intro hw
      rcases hw.2 with hw | ⟨hw, -⟩
      · exact absurd hw (hne _)
      · exact absurd hw (hne _)
  | word hword _ =>
    have hne := hword.toRun.ne_quote (by decide)
    constructor
    · intro ht
      cases ht
    · intro hw
      rcases hw.2 with hw | ⟨hw, -⟩
      · exact absurd hw (hne _)
      · exact absurd hw (hne _)

end

/-- A piece, with what the input holds behind it. -/
theorem Cuts.scans {input : List Char} {ps : List Piece} (h : Cuts input ps) :
    ∀ {i : Nat} {p : Piece}, ps[i]? = some p →
      ∃ post, input = (ps.take (i + 1)).flatMap Piece.text ++ post ∧
        Scans p.lexeme post p.token := by
  induction h with
  | done _ =>
    intro i p hp
    cases hp
  | @piece ws w post t ps _ hw _ ih =>
    intro i p hp
    cases i with
    | zero =>
      obtain rfl := Option.some.inj hp
      exact ⟨post, by simp [Piece.text], hw⟩
    | succ i =>
      obtain ⟨post', hpost, hscans⟩ := ih hp
      refine ⟨post', ?_, hscans⟩
      rw [List.take_succ_cons, List.flatMap_cons, List.append_assoc, ← hpost]
      simp [Piece.text]

/-- The tokens `parseTokens` stores are what successive calls return. -/
theorem getElem?_lexerTokens (noReturn : Nat → TokenType) {i : Nat} :
    ∀ {l : Lexer} {t : Token}, (lexerTokens noReturn l)[i]? = some t →
      t = (lexerNext noReturn (lexerAfter noReturn l i)).1 := by
  induction i with
  | zero =>
    intro l t ht
    by_cases heof : (lexerNext noReturn l).1.type = .eof
    · rw [lexerTokens_eof heof] at ht
      exact (Option.some.inj ht).symm
    · rw [lexerTokens_cons heof] at ht
      exact (Option.some.inj ht).symm
  | succ i ih =>
    intro l t ht
    by_cases heof : (lexerNext noReturn l).1.type = .eof
    · rw [lexerTokens_eof heof] at ht
      cases ht
    · rw [lexerTokens_cons heof] at ht
      exact ih ht

/-- **Scalars are not checked**: of the tokens `parseTokens` stores, those
with a literal are the runs of number characters, whatever they spell, and
the strings, closed by a quote or by the end of the input. -/
theorem scalar_lexemes (abi : Abi) (noReturn : Nat → TokenType) {input : List Char}
    (hnul : nul ∉ input) :
    ∃ pieces tokens, Cuts input pieces ∧
      parseTokens abi noReturn input = .ok { tokens, length := tokens.length } ∧
      ∀ i t, tokens[i]? = some t →
        (pieces.length ≤ i ∧ t = tokenCreate .eof none) ∨
        ∃ p post, pieces[i]? = some p ∧ t = p.token ∧
          input = (pieces.take (i + 1)).flatMap Piece.text ++ post ∧
          (∀ s, t = tokenCreate .number (some s) ↔ p.lexeme = s ∧ Run isNumber s post) ∧
          ∀ s, t = tokenCreate .string (some s) ↔ '"' ∉ s ∧
            (p.lexeme = '"' :: (s ++ ['"']) ∨ (p.lexeme = '"' :: s ∧ post = [])) := by
  have hrun := running_lexerCreate input
  obtain ⟨pieces, hcuts, hcalls, hend⟩ := exists_cuts noReturn _ hrun (Nat.lt_succ_self _)
  rw [rest_lexerCreate hnul] at hcuts
  refine ⟨pieces, _, hcuts, parseTokens_eq abi noReturn input, fun i t ht => ?_⟩
  have hcall := getElem?_lexerTokens noReturn ht
  rcases Nat.lt_or_ge i pieces.length with hi | hi
  · obtain ⟨post, hpost, hscans⟩ := hcuts.scans (List.getElem?_eq_getElem hi)
    have htoken : t = pieces[i].token :=
      hcall.trans (hcalls i _ (List.getElem?_eq_getElem hi))
    refine Or.inr ⟨_, post, List.getElem?_eq_getElem hi, htoken, hpost, fun s => ?_, fun s => ?_⟩
    · rw [htoken]
      exact hscans.number_iff
    · rw [htoken]
      exact hscans.string_iff
  · exact Or.inl ⟨hi, hcall.trans (hend i hi)⟩

/-- A number literal begins with a minus or a digit. -/
theorem IsNumberLiteral.head {chars sign int frac exp : List Char}
    (h : IsNumberLiteral chars sign int frac exp) :
    ∃ c r, chars = c :: r ∧ (c = '-' ∨ c ∈ digits) := by
  rw [h.parts]
  rcases h.sign with rfl | rfl
  · rcases h.int with rfl | ⟨d, ds, rfl, hd, -⟩
    · exact ⟨'0', _, rfl, Or.inr (by decide)⟩
    · exact ⟨d, _, rfl, Or.inr hd⟩
  · exact ⟨'-', _, rfl, Or.inl rfl⟩

/-- `+1` is no JSON number, and a number token. -/
theorem scalar_lexemes_unchecked :
    parseTokens ⟨8, by decide⟩ (fun _ => .illegal) ['+', '1'] =
      .ok { tokens := [⟨.number, some ['+', '1']⟩, ⟨.eof, none⟩], length := 2 } ∧
    ¬ ∃ sign int frac exp, IsNumberLiteral ['+', '1'] sign int frac exp := by
  constructor
  · exact parseTokens_of_renders _ _ (show Renders [⟨.number, some ['+', '1']⟩] ['+', '1'] from
      .cons (show Blank [] by decide) (.number ['+', '1'] (by decide) (by decide))
        (.nil (show Blank [] by decide)) (by decide))
  · intro h
    obtain ⟨sign, int, frac, exp, hliteral⟩ := h
    obtain ⟨c, r, heq, hc⟩ := hliteral.head
    obtain ⟨rfl, -⟩ := List.cons.inj heq
    exact absurd hc (by decide)

/-- `e+"1` is a number and a string. -/
theorem scalar_lexemes_unclosed :
    ∃ pieces tokens, Cuts ['e', '+', '"', '1'] pieces ∧
      parseTokens ⟨8, by decide⟩ (fun _ => .illegal) ['e', '+', '"', '1'] =
        .ok { tokens, length := tokens.length } ∧
      ∀ i t, tokens[i]? = some t →
        (pieces.length ≤ i ∧ t = tokenCreate .eof none) ∨
        ∃ p post, pieces[i]? = some p ∧ t = p.token ∧
          ['e', '+', '"', '1'] = (pieces.take (i + 1)).flatMap Piece.text ++ post ∧
          (∀ s, t = tokenCreate .number (some s) ↔ p.lexeme = s ∧ Run isNumber s post) ∧
          ∀ s, t = tokenCreate .string (some s) ↔ '"' ∉ s ∧
            (p.lexeme = '"' :: (s ++ ['"']) ∨ (p.lexeme = '"' :: s ∧ post = [])) :=
  scalar_lexemes ⟨8, by decide⟩ (fun _ => .illegal)
    (show nul ∉ ['e', '+', '"', '1'] by decide)

/-! ## Words -/

/-- The three words JSON gives a meaning. -/
def keywords : List (List Char) :=
  [['t', 'r', 'u', 'e'], ['f', 'a', 'l', 's', 'e'], ['n', 'u', 'l', 'l']]

/-- The type a word should have. -/
def keywordType (w : List Char) : TokenType :=
  if w = ['t', 'r', 'u', 'e'] then .jsonTrue
  else if w = ['f', 'a', 'l', 's', 'e'] then .jsonFalse
  else if w = ['n', 'u', 'l', 'l'] then .jsonNull
  else .illegal

theorem keywordType_of_not_mem {w : List Char} (h : w ∉ keywords) : keywordType w = .illegal := by
  simp only [keywords, List.mem_cons, List.not_mem_nil, or_false, not_or] at h
  rw [keywordType, if_neg h.1, if_neg h.2.1, if_neg h.2.2]

/-- No word of the classifier is an illegal one. -/
theorem getTokenTypeFromLiteral_ne_illegal (literal : List Char) (len : Nat) :
    getTokenTypeFromLiteral literal len ≠ some .illegal := by
  unfold getTokenTypeFromLiteral
  split_ifs <;> simp

/-- A call at a word: what the classifier makes of it, or what the caller
finds in its place. -/
theorem lexerNext_word (noReturn : Nat → TokenType) {l : Lexer} {ws w post : List Char}
    (hrun : l.Running) (hrest : l.rest = ws ++ (w ++ post)) (hws : Blank ws)
    (hw : Word w post) :
    (lexerNext noReturn l).1.type =
      (getTokenTypeFromLiteral w w.length).getD (noReturn (l.position + ws.length)) := by
  obtain ⟨c, s, rfl⟩ := List.exists_cons_of_ne_nil hw.ne_nil
  have hnum : isNumber c = false := hw.head c rfl
  have hlet : isLetter c = true := hw.all c (by simp)
  have hblank : isWhitespace c = false := by
    cases hspace : isWhitespace c with
    | false => rfl
    | true =>
      rw [(separates_blank (isWhitespace_iff.mp hspace)).2] at hlet
      exact absurd hlet Bool.false_ne_true
  have hskip := lexerReadWhile_skips isWhitespace rfl ws hrun hrest
    (fun d hd => isWhitespace_iff.mpr (hws d hd)) (by simpa using hblank)
  have htoken :=
    (lexerToken_identifier noReturn hskip.running hskip.rest hw.all hnum hw.stop).1
  rw [hskip.position] at htoken
  rw [lexerNext, lexerSkipWhitespace, htoken]
  rfl

/-- A word at the end of the input. -/
theorem word_cons {c : Char} {s : List Char} (hnum : isNumber c = false)
    (hlet : ∀ d ∈ c :: s, isLetter d = true) : Word (c :: s) [] where
  ne_nil := List.cons_ne_nil _ _
  all := hlet
  stop := nofun
  head := by simpa using hnum

/-- `t` alone passes for `true`. -/
theorem keyword_prefix :
    (lexerNext (fun _ => .illegal) (lexerCreate ['t'])).1.type = .jsonTrue ∧
      keywordType ['t'] = .illegal := by
  have hrest : (lexerCreate ['t']).rest = [] ++ (['t'] ++ []) := rest_lexerCreate (by decide)
  have hword : Word ['t'] [] := word_cons rfl (by decide)
  exact ⟨lexerNext_word _ (running_lexerCreate _) hrest (by decide) hword, rfl⟩

/-- **Keywords**: wherever a call begins a word, it is typed as it should be,
whatever a missing return leaves, exactly if it is one of the three. -/
theorem keyword_iff {input : List Char} {noReturn : Nat → TokenType} {k : Nat}
    {ws w post : List Char}
    (hrest : (lexerAfter noReturn (lexerCreate input) k).rest = ws ++ (w ++ post))
    (hws : Blank ws) (hw : Word w post) :
    (∀ noReturn', (lexerNext noReturn' (lexerAfter noReturn (lexerCreate input) k)).1.type =
      keywordType w) ↔ w ∈ keywords := by
  have hrun := (advances_lexerAfter noReturn k (running_lexerCreate input)).running
  simp only [lexerNext_word _ hrun hrest hws hw]
  constructor
  · intro h
    by_contra hnot
    rw [keywordType_of_not_mem hnot] at h
    cases hknown : getTokenTypeFromLiteral w w.length with
    | none =>
      have := h fun _ => .eof
      rw [hknown] at this
      cases this
    | some type =>
      have hillegal := h fun _ => .illegal
      rw [hknown] at hillegal
      exact getTokenTypeFromLiteral_ne_illegal _ _ (hknown.trans (congrArg some hillegal))
  · intro h noReturn'
    simp only [keywords, List.mem_cons, List.not_mem_nil, or_false] at h
    rcases h with rfl | rfl | rfl <;> rfl

/-- `null` behind a space. -/
theorem keyword_iff_null :
    (∀ noReturn', (lexerNext noReturn'
        (lexerAfter (fun _ => .illegal) (lexerCreate [' ', 'n', 'u', 'l', 'l']) 0)).1.type =
      keywordType ['n', 'u', 'l', 'l']) ↔ ['n', 'u', 'l', 'l'] ∈ keywords := by
  have hrest : (lexerCreate [' ', 'n', 'u', 'l', 'l']).rest =
      [' '] ++ (['n', 'u', 'l', 'l'] ++ []) := rest_lexerCreate (by decide)
  have hword : Word ['n', 'u', 'l', 'l'] [] := word_cons rfl (by decide)
  exact keyword_iff hrest (show Blank [' '] by decide) hword

/-! ## Escapes -/

def hexDigits : List Char :=
  ['0', '1', '2', '3', '4', '5', '6', '7', '8', '9', 'a', 'b', 'c', 'd', 'e', 'f']

/-- The standard encoding of one character in a JSON string. -/
def escape (c : Char) : List Char :=
  if c = '"' then ['\\', '"']
  else if c = '\\' then ['\\', '\\']
  else if c = '\x08' then ['\\', 'b']
  else if c = '\t' then ['\\', 't']
  else if c = '\n' then ['\\', 'n']
  else if c = '\x0c' then ['\\', 'f']
  else if c = '\r' then ['\\', 'r']
  else if c.toNat < 32 then
    ['\\', 'u', '0', '0', hexDigits.getD (c.toNat / 16) '0', hexDigits.getD (c.toNat % 16) '0']
  else [c]

/-- The JSON string that stands for `s`. -/
def encodeString (s : List Char) : List Char := '"' :: (s.flatMap escape ++ ['"'])

/-- A character that needs no escape. -/
def Unescaped (c : Char) : Prop := c ≠ '"' ∧ c ≠ '\\' ∧ 32 ≤ c.toNat

instance (c : Char) : Decidable (Unescaped c) :=
  inferInstanceAs (Decidable (c ≠ '"' ∧ c ≠ '\\' ∧ 32 ≤ c.toNat))

theorem escape_of_unescaped {c : Char} (h : Unescaped c) : escape c = [c] := by
  obtain ⟨hquote, hslash, hcontrol⟩ := h
  have hne : ∀ d : Char, d.toNat < 32 → c ≠ d := by
    intro d hd heq
    rw [heq] at hcontrol
    omega
  rw [escape, if_neg hquote, if_neg hslash, if_neg (hne _ (by decide)), if_neg (hne _ (by decide)),
    if_neg (hne _ (by decide)), if_neg (hne _ (by decide)), if_neg (hne _ (by decide)),
    if_neg (by omega)]

/-- Every other character is written with two or more. -/
theorem two_le_length_escape {c : Char} (h : ¬ Unescaped c) : 2 ≤ (escape c).length := by
  unfold escape
  split_ifs with hquote hslash _ _ _ _ _ hcontrol
  case neg => exact absurd ⟨hquote, hslash, Nat.le_of_not_lt hcontrol⟩ h
  all_goals simp

theorem hexDigit_mem (n : Nat) : hexDigits.getD n '0' ∈ hexDigits := by
  rw [List.getD_eq_getElem?_getD]
  cases h : hexDigits[n]? with
  | none => decide
  | some c => exact List.mem_of_getElem? h

/-- The characters escapes are made of. -/
def escapeChars : List Char := ['\\', 'b', 't', 'n', 'f', 'r', 'u'] ++ hexDigits

/-- An escape is made of these, and perhaps the character itself. -/
theorem mem_escape {c d : Char} (h : d ∈ escape c) : d = c ∨ d ∈ escapeChars := by
  have hslash : '\\' ∈ escapeChars := by decide
  have hhex : ∀ n, hexDigits.getD n '0' ∈ escapeChars := fun n =>
    List.mem_append_right _ (hexDigit_mem n)
  unfold escape at h
  split_ifs at h with hquote
  case pos =>
    rcases List.mem_cons.mp h with rfl | h
    · exact Or.inr hslash
    · exact Or.inl ((List.mem_singleton.mp h).trans hquote.symm)
  case neg => exact Or.inl (List.mem_singleton.mp h)
  all_goals
    refine Or.inr ?_
    simp only [List.mem_cons, List.not_mem_nil, or_false] at h
    rcases h with rfl | rfl | rfl | rfl | rfl | rfl
  all_goals first | decide | exact hhex _

theorem mem_flatMap_escape {d : Char} (hd : d ∉ escapeChars) {s : List Char}
    (h : d ∈ s.flatMap escape) : d ∈ s := by
  obtain ⟨c, hc, hmem⟩ := List.mem_flatMap.mp h
  rcases mem_escape hmem with rfl | hescape
  · exact hc
  · exact absurd hescape hd

theorem length_le_flatMap_escape (s : List Char) : s.length ≤ (s.flatMap escape).length := by
  induction s with
  | nil => exact Nat.le_refl _
  | cons c s ih =>
    have hone : 1 ≤ (escape c).length := by
      by_cases hc : Unescaped c
      · rw [escape_of_unescaped hc, List.length_singleton]
      · have := two_le_length_escape hc
        omega
    rw [List.flatMap_cons, List.length_append, List.length_cons]
    omega

/-- An encoding that changes nothing had nothing to escape. -/
theorem flatMap_escape_eq_self_iff {s : List Char} :
    s.flatMap escape = s ↔ ∀ c ∈ s, Unescaped c := by
  induction s with
  | nil => simp
  | cons c s ih =>
    rw [List.flatMap_cons, List.forall_mem_cons, ← ih]
    by_cases hc : Unescaped c
    · rw [escape_of_unescaped hc]
      simp [hc]
    · constructor
      · intro h
        -- The escape is longer than the character, the rest no shorter than its text.
        have hlen := congrArg List.length h
        have htwo := two_le_length_escape hc
        have hrest := length_le_flatMap_escape s
        rw [List.length_append, List.length_cons] at hlen
        omega
      · intro h
        exact absurd h.1 hc

/-- A call at a string that is closed. -/
theorem lexerNext_closed (noReturn : Nat → TokenType) {l : Lexer} {t post : List Char}
    (hrun : l.Running) (hrest : l.rest = '"' :: (t ++ '"' :: post)) (hquote : '"' ∉ t)
    (hnul : nul ∉ t) :
    (lexerNext noReturn l).1 = tokenCreate .string (some t) ∧
      (lexerNext noReturn l).2.rest = post ∧ (lexerNext noReturn l).2.Running := by
  have hskip := lexerReadWhile_skips isWhitespace rfl [] hrun hrest (by simp) (by simp; decide)
  exact lexerToken_string noReturn hskip.running hskip.rest (isStringChar_of_not_mem hquote hnul)

/-- A text up to its first quote, when one is put behind it. -/
theorem exists_quote_split (e : List Char) :
    ∃ post, e ++ ['"'] = e.takeWhile (· != '"') ++ '"' :: post := by
  have hsplit := (List.takeWhile_append_dropWhile (p := (· != '"')) (l := e)).symm
  have hstop := List.head?_dropWhile_not (· != '"') e
  cases hdrop : e.dropWhile (· != '"') with
  | nil =>
    rw [hdrop, List.append_nil] at hsplit
    exact ⟨[], by rw [← hsplit]⟩
  | cons d r =>
    rw [hdrop] at hsplit hstop
    obtain rfl : d = '"' := by simpa using hstop
    refine ⟨r ++ ['"'], ?_⟩
    calc e ++ ['"'] = (e.takeWhile (· != '"') ++ '"' :: r) ++ ['"'] := by rw [← hsplit]
      _ = e.takeWhile (· != '"') ++ '"' :: (r ++ ['"']) := by simp

theorem quote_not_mem_takeWhile (e : List Char) : '"' ∉ e.takeWhile (· != '"') := by
  intro h
  have := List.mem_takeWhile_imp h
  simp at this

section

variable (abi : Abi) (noReturn : Nat → TokenType) {s : List Char} (hnul : nul ∉ s)

include hnul

theorem parseTokens_encodeString_first :
    ∃ rest, parseTokens abi noReturn (encodeString s) =
      .ok { tokens := ⟨.string, some ((s.flatMap escape).takeWhile (· != '"'))⟩ :: rest
            length := rest.length + 1 } := by
  have hbody : nul ∉ s.flatMap escape := fun h => hnul (mem_flatMap_escape (by decide) h)
  have htext : nul ∉ encodeString s := by
    simp only [encodeString, List.mem_cons, List.mem_append, List.not_mem_nil, or_false, not_or]
    exact ⟨by decide, hbody, by decide⟩
  obtain ⟨post, hpost⟩ := exists_quote_split (s.flatMap escape)
  have hrest : (lexerCreate (encodeString s)).rest =
      '"' :: ((s.flatMap escape).takeWhile (· != '"') ++ '"' :: post) := by
    rw [rest_lexerCreate htext, encodeString, hpost]
  have htoken := (lexerNext_closed noReturn (running_lexerCreate _) hrest
    (quote_not_mem_takeWhile _) fun h => hbody ((List.takeWhile_prefix _).subset h)).1
  refine ⟨lexerTokens noReturn (lexerNext noReturn (lexerCreate (encodeString s))).2, ?_⟩
  rw [parseTokens_eq, lexerTokens_cons (by simp [htoken, tokenCreate]), htoken]
  rfl

theorem parseTokens_encodeString_closed (hquote : '"' ∉ s) :
    parseTokens abi noReturn (encodeString s) =
      .ok { tokens := [⟨.string, some (s.flatMap escape)⟩, ⟨.eof, none⟩], length := 2 } := by
  have hlexeme : Lexeme ⟨.string, some (s.flatMap escape)⟩ (encodeString s) :=
    .string _ (fun h => hquote (mem_flatMap_escape (by decide) h))
      fun h => hnul (mem_flatMap_escape (by decide) h)
  have hrenders := Renders.cons (show Blank [] by decide) hlexeme
    (.nil (show Blank [] by decide)) nofun
  rw [List.nil_append, List.append_nil] at hrenders
  exact parseTokens_of_renders abi noReturn hrenders

end

/-- **Escapes are not decoded**: the encoding of `s` begins with a string
token that ends at the first quote of the encoded text, whatever stands
before it; without a quote in `s` that is all of the encoded text. The
token is `s` itself exactly if nothing in `s` needs an escape. -/
theorem encodeString_tokens (abi : Abi) (noReturn : Nat → TokenType) {s : List Char}
    (hnul : nul ∉ s) :
    (∃ rest, parseTokens abi noReturn (encodeString s) =
      .ok { tokens := ⟨.string, some ((s.flatMap escape).takeWhile (· != '"'))⟩ :: rest
            length := rest.length + 1 }) ∧
    ('"' ∉ s → parseTokens abi noReturn (encodeString s) =
      .ok { tokens := [⟨.string, some (s.flatMap escape)⟩, ⟨.eof, none⟩], length := 2 }) ∧
    (parseTokens abi noReturn (encodeString s) =
      .ok { tokens := [⟨.string, some s⟩, ⟨.eof, none⟩], length := 2 } ↔
        ∀ c ∈ s, Unescaped c) := by
  have hfirst := parseTokens_encodeString_first abi noReturn hnul
  have hclosed := parseTokens_encodeString_closed abi noReturn hnul
  refine ⟨hfirst, hclosed, ?_⟩
  constructor
  · intro h
    obtain ⟨rest, heq⟩ := hfirst
    rw [h] at heq
    simp only [Except.ok.injEq, TokensArray.mk.injEq, List.cons.injEq, Token.mk.injEq,
      Option.some.injEq, true_and] at heq
    -- Up to its first quote the encoded text is `s`, so `s` holds none.
    have hquote : '"' ∉ s := by
      rw [heq.1.1]
      exact quote_not_mem_takeWhile _
    rw [hclosed hquote] at h
    simp only [Except.ok.injEq, TokensArray.mk.injEq, List.cons.injEq, Token.mk.injEq,
      Option.some.injEq, true_and, and_true] at h
    exact flatMap_escape_eq_self_iff.mp h
  · intro h
    have hquote : '"' ∉ s := fun hmem => (h _ hmem).1 rfl
    rw [hclosed hquote, flatMap_escape_eq_self_iff.mpr h]

/-- A backslash comes back as two. -/
theorem encodeString_backslash :
    parseTokens ⟨8, by decide⟩ (fun _ => .illegal) (encodeString ['\\']) ≠
      .ok { tokens := [⟨.string, some ['\\']⟩, ⟨.eof, none⟩], length := 2 } := by
  have hlexeme : Lexeme ⟨.string, some ['\\', '\\']⟩ (encodeString ['\\']) :=
    .string ['\\', '\\'] (by decide) (by decide)
  have htokens := parseTokens_of_renders ⟨8, by decide⟩ (fun _ => .illegal)
    (.cons (show Blank [] by decide) hlexeme (.nil (show Blank [] by decide)) nofun)
  intro h
  have heq := htokens.symm.trans h
  simp at heq

/-- A tab and a quote: the string token is a backslash, a `t` and a backslash. -/
theorem encodeString_tokens_quote :
    (∃ rest, parseTokens ⟨8, by decide⟩ (fun _ => .illegal) (encodeString ['\t', '"']) =
      .ok { tokens := ⟨.string, some ['\\', 't', '\\']⟩ :: rest
            length := rest.length + 1 }) :=
  (encodeString_tokens ⟨8, by decide⟩ (fun _ => .illegal)
    (show nul ∉ ['\t', '"'] by decide)).1

end CWebServer.Json
