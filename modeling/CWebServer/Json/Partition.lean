/-
CWebServer.Json.Partition — how successive `lexerNext` calls cut the input.

`Scans w post t` is one lexeme: `w` is what one call takes when `post`
stands behind it, and `t` is the token it makes. The text behind it is part
of the judgment, because a run is only as long as the input lets it be. The
two classes overlap in `e` and `E`, and a run of number characters is tried
first. `Cuts` is a whole input, cut into blanks and lexemes with nothing
left over (`Cuts.concat`).

The cursors are read through `Lexer.rest`. A call at a character other than
whitespace takes one lexeme off it (`lexerToken_scans`), a call at the end
takes nothing, however often it is repeated; the induction is on the length
of what is left.

No `sorry`, no `axiom`, no `native_decide`.
-/
import CWebServer.Json.Rendering

namespace CWebServer.Json

open Libc

/-! ## Lexemes -/

/-- A character that is a lexeme alone: punctuation, or one that no rule
recognises. -/
def Alone (c : Char) : Prop :=
  c ≠ nul ∧ c ∉ blankChars ∧ c ≠ '"' ∧ isNumber c = false ∧ isLetter c = false

/-- The longest run of `p` that `w` begins, when `post` stands behind it. -/
structure Run (p : Char → Bool) (w post : List Char) : Prop where
  ne_nil : w ≠ []
  all : ∀ c ∈ w, p c = true
  stop : ∀ c ∈ post.head?, p c = false

/-- A run of letters and underscores, begun where no number begins. -/
structure Word (w post : List Char) : Prop extends Run isLetter w post where
  head : ∀ c ∈ w.head?, isNumber c = false

/-- One lexeme `w` before `post`, and its token. The type of an unknown word
is whatever the caller finds. -/
inductive Scans : List Char → List Char → Token → Prop where
  | alone {c : Char} {post : List Char} : Alone c →
      Scans [c] post ((lexerSwitch c).getD (tokenCreate .illegal none))
  | closed {s post : List Char} : '"' ∉ s →
      Scans ('"' :: (s ++ ['"'])) post (tokenCreate .string (some s))
  | unclosed {s : List Char} : '"' ∉ s → Scans ('"' :: s) [] (tokenCreate .string (some s))
  | number {s post : List Char} : Run isNumber s post →
      Scans s post (tokenCreate .number (some s))
  | word {w post : List Char} {type : TokenType} : Word w post →
      (∀ known ∈ getTokenTypeFromLiteral w w.length, type = known) →
      Scans w post (tokenCreate type none)

structure Piece where
  blank : List Char
  lexeme : List Char
  token : Token
  deriving DecidableEq, Repr

def Piece.text (p : Piece) : List Char := p.blank ++ p.lexeme

/-- The input is cut into the pieces, and whitespace behind the last. -/
inductive Cuts : List Char → List Piece → Prop where
  | done {ws : List Char} : Blank ws → Cuts ws []
  | piece {ws w post : List Char} {t : Token} {ps : List Piece} :
      Blank ws → Scans w post t → Cuts post ps → Cuts (ws ++ (w ++ post)) (⟨ws, w, t⟩ :: ps)

/-- Nothing is dropped and nothing is read twice. -/
theorem Cuts.concat {input : List Char} {ps : List Piece} (h : Cuts input ps) :
    ∃ ws, Blank ws ∧ input = ps.flatMap Piece.text ++ ws := by
  induction h with
  | @done ws hws => exact ⟨ws, hws, rfl⟩
  | @piece ws w post t ps hws hw hps ih =>
    obtain ⟨tail, htail, rfl⟩ := ih
    exact ⟨tail, htail, by simp [Piece.text]⟩

/-! ## What one call takes -/

theorem Lexer.nul_not_mem_rest (l : Lexer) : nul ∉ l.rest :=
  fun h => nul_not_mem_cstr _ (List.mem_of_mem_drop h)

/-- The longest run at the front of a text, and what stops it. -/
theorem exists_run {p : Char → Bool} {c : Char} {s : List Char} (hc : p c = true) :
    ∃ w post, c :: s = w ++ post ∧ w.head? = some c ∧ Run p w post := by
  refine ⟨c :: s.takeWhile p, s.dropWhile p, ?_, rfl, List.cons_ne_nil _ _, ?_, ?_⟩
  · rw [List.cons_append, List.takeWhile_append_dropWhile]
  · intro d hd
    rcases List.mem_cons.mp hd with rfl | hd
    · exact hc
    · exact List.mem_takeWhile_imp hd
  · intro d hd
    rw [Option.mem_def] at hd
    have hnot := List.head?_dropWhile_not p s
    rw [hd] at hnot
    simpa using hnot

/-- A character alone: the token of the `switch`, or an illegal one. -/
theorem lexerToken_alone (noReturn : Nat → TokenType) {l : Lexer} {c : Char} {post : List Char}
    (hrun : l.Running) (hrest : l.rest = c :: post) (hc : Alone c) :
    (lexerToken noReturn l).1 = (lexerSwitch c).getD (tokenCreate .illegal none) ∧
      (lexerToken noReturn l).2.rest = post ∧ (lexerToken noReturn l).2.Running := by
  obtain ⟨-, -, hquote, hnum, hlet⟩ := hc
  have heq : lexerToken noReturn l =
      ((lexerSwitch c).getD (tokenCreate .illegal none), lexerReadChar l) := by
    unfold lexerToken
    simp only [Lexer.ch_of_rest hrest, if_neg hquote, hnum, hlet, Bool.false_eq_true, if_false]
  rw [heq]
  refine ⟨rfl, ?_, running_lexerReadChar l⟩
  rw [rest_lexerReadChar hrun, hrest]
  rfl

/-- A string without a closing quote is the rest of the input. -/
theorem lexerToken_unclosed (noReturn : Nat → TokenType) {l : Lexer} {s : List Char}
    (hrun : l.Running) (hrest : l.rest = '"' :: s) (hs : ∀ c ∈ s, isStringChar c = true) :
    (lexerToken noReturn l).1 = tokenCreate .string (some s) ∧
      (lexerToken noReturn l).2.rest = [] ∧ (lexerToken noReturn l).2.Running := by
  rw [← List.append_nil s] at hrest
  exact lexerToken_quoted noReturn hrun hrest hs (by simp)

theorem isStringChar_of_not_mem {s : List Char} (hquote : '"' ∉ s) (hnul : nul ∉ s) :
    ∀ c ∈ s, isStringChar c = true :=
  fun _ hc => isStringChar_iff.mpr ⟨fun h => hnul (h ▸ hc), fun h => hquote (h ▸ hc)⟩

/-- A call that starts at a character other than whitespace takes one lexeme. -/
theorem lexerToken_scans (noReturn : Nat → TokenType) {l : Lexer} {c : Char} {s : List Char}
    (hrun : l.Running) (hrest : l.rest = c :: s) (hblank : c ∉ blankChars) :
    ∃ w post, c :: s = w ++ post ∧ w ≠ [] ∧ Scans w post (lexerToken noReturn l).1 ∧
      (lexerToken noReturn l).2.rest = post ∧ (lexerToken noReturn l).2.Running := by
  have hnul : nul ∉ c :: s := hrest ▸ l.nul_not_mem_rest
  by_cases hquote : c = '"'
  · subst hquote
    by_cases hclosed : '"' ∈ s
    · obtain ⟨body, post, rfl, hbody⟩ := List.eq_append_cons_of_mem hclosed
      have hchars := isStringChar_of_not_mem hbody fun h => hnul (by simp [h])
      obtain ⟨htoken, hpost, hrun'⟩ := lexerToken_string noReturn hrun hrest hchars
      refine ⟨'"' :: (body ++ ['"']), post, by simp, List.cons_ne_nil _ _, ?_, hpost, hrun'⟩
      rw [htoken]
      exact .closed hbody
    · have hchars := isStringChar_of_not_mem hclosed fun h => hnul (by simp [h])
      obtain ⟨htoken, hpost, hrun'⟩ := lexerToken_unclosed noReturn hrun hrest hchars
      refine ⟨'"' :: s, [], by simp, List.cons_ne_nil _ _, ?_, hpost, hrun'⟩
      rw [htoken]
      exact .unclosed hclosed
  · cases hnum : isNumber c with
    | true =>
      obtain ⟨w, post, hsplit, -, hw⟩ := exists_run hnum
      obtain ⟨htoken, hpost, hrun'⟩ :=
        lexerToken_number noReturn hrun (hrest.trans hsplit) hw.ne_nil hw.all hw.stop
      refine ⟨w, post, hsplit, hw.ne_nil, ?_, hpost, hrun'⟩
      rw [htoken]
      exact .number hw
    | false =>
      cases hlet : isLetter c with
      | true =>
        obtain ⟨w, post, hsplit, hhead, hw⟩ := exists_run hlet
        cases w with
        | nil => exact absurd rfl hw.ne_nil
        | cons d w =>
          obtain rfl : d = c := by simpa using hhead
          obtain ⟨htoken, hpost, hrun'⟩ :=
            lexerToken_identifier noReturn hrun (hrest.trans hsplit) hw.all hnum hw.stop
          refine ⟨d :: w, post, hsplit, hw.ne_nil, ?_, hpost, hrun'⟩
          rw [htoken]
          refine .word ⟨hw, by simpa using hnum⟩ fun known hknown => ?_
          rw [List.length_cons, Option.mem_def] at hknown
          rw [hknown]
          rfl
      | false =>
        have hc : Alone c := ⟨fun h => hnul (by simp [h]), hblank, hquote, hnum, hlet⟩
        obtain ⟨htoken, hpost, hrun'⟩ := lexerToken_alone noReturn hrun hrest hc
        refine ⟨[c], s, rfl, List.cons_ne_nil _ _, ?_, hpost, hrun'⟩
        rw [htoken]
        exact .alone hc

/-- At the end of the input a call returns `TOKEN_EOF` and stays there. -/
theorem lexerNext_end (noReturn : Nat → TokenType) {l : Lexer} (hrun : l.Running)
    (hws : Blank l.rest) :
    (lexerNext noReturn l).1 = tokenCreate .eof none ∧ (lexerNext noReturn l).2.rest = [] ∧
      (lexerNext noReturn l).2.Running := by
  refine ⟨lexerNext_blank noReturn hrun hws, ?_⟩
  have hskip := lexerReadWhile_skips isWhitespace rfl l.rest hrun (List.append_nil _).symm
    (fun d hd => isWhitespace_iff.mpr (hws d hd)) (by simp)
  have hch : (lexerSkipWhitespace l).ch = nul := by
    rw [Lexer.ch_eq_head, lexerSkipWhitespace, hskip.rest]
    rfl
  have hnext : (lexerNext noReturn l).2 = lexerReadChar (lexerSkipWhitespace l) := by
    unfold lexerNext lexerToken
    rw [hch]
    rfl
  rw [hnext]
  refine ⟨?_, running_lexerReadChar _⟩
  rw [lexerSkipWhitespace, rest_lexerReadChar hskip.running, hskip.rest]
  rfl

/-- One call, wherever the lexer stands: it is at the end of its input, or
takes a blank and a lexeme. -/
theorem lexerNext_scans (noReturn : Nat → TokenType) {l : Lexer} (hrun : l.Running) :
    Blank l.rest ∨ ∃ ws w post, l.rest = ws ++ (w ++ post) ∧ Blank ws ∧ w ≠ [] ∧
      Scans w post (lexerNext noReturn l).1 ∧ (lexerNext noReturn l).2.rest = post ∧
      (lexerNext noReturn l).2.Running := by
  have hws : Blank (l.rest.takeWhile isWhitespace) := fun c hc =>
    isWhitespace_iff.mp (List.mem_takeWhile_imp hc)
  have hsplit : l.rest = l.rest.takeWhile isWhitespace ++ l.rest.dropWhile isWhitespace :=
    List.takeWhile_append_dropWhile.symm
  have hnot := List.head?_dropWhile_not isWhitespace l.rest
  generalize l.rest.takeWhile isWhitespace = ws at hws hsplit
  cases hdrop : l.rest.dropWhile isWhitespace with
  | nil =>
    rw [hdrop, List.append_nil] at hsplit
    exact Or.inl (hsplit ▸ hws)
  | cons c s =>
    rw [hdrop] at hsplit hnot
    have hstop : isWhitespace c = false := by simpa using hnot
    have hblank : c ∉ blankChars := by
      rw [← isWhitespace_iff, hstop]
      exact Bool.false_ne_true
    have hskip := lexerReadWhile_skips isWhitespace rfl ws hrun hsplit
      (fun d hd => isWhitespace_iff.mpr (hws d hd)) (by simpa using hstop)
    obtain ⟨w, post, hlexeme, hne, hscans, hpost, hrun'⟩ :=
      lexerToken_scans noReturn hskip.running hskip.rest hblank
    exact Or.inr ⟨ws, w, post, hlexeme ▸ hsplit, hws, hne, hscans, hpost, hrun'⟩

/-! ## Successive calls -/

/-- The lexer after `k` calls. -/
def lexerAfter (noReturn : Nat → TokenType) (l : Lexer) : Nat → Lexer
  | 0 => l
  | k + 1 => lexerAfter noReturn (lexerNext noReturn l).2 k

theorem lexerAfter_end (noReturn : Nat → TokenType) (k : Nat) {l : Lexer} (hrun : l.Running)
    (hws : Blank l.rest) :
    (lexerNext noReturn (lexerAfter noReturn l k)).1 = tokenCreate .eof none := by
  induction k generalizing l with
  | zero => exact (lexerNext_end noReturn hrun hws).1
  | succ k ih =>
    obtain ⟨-, hrest, hrun'⟩ := lexerNext_end noReturn hrun hws
    exact ih hrun' (by simp [hrest, Blank])

/-- What the calls from `l` on return: the tokens of the pieces, then
`TOKEN_EOF` for ever. -/
def ReturnsPieces (noReturn : Nat → TokenType) (l : Lexer) (ps : List Piece) : Prop :=
  (∀ k p, ps[k]? = some p → (lexerNext noReturn (lexerAfter noReturn l k)).1 = p.token) ∧
    ∀ k, ps.length ≤ k →
      (lexerNext noReturn (lexerAfter noReturn l k)).1 = tokenCreate .eof none

theorem ReturnsPieces.cons {noReturn : Nat → TokenType} {l : Lexer} {ps : List Piece}
    (h : ReturnsPieces noReturn (lexerNext noReturn l).2 ps) (ws w : List Char) :
    ReturnsPieces noReturn l (⟨ws, w, (lexerNext noReturn l).1⟩ :: ps) := by
  obtain ⟨hcalls, hend⟩ := h
  constructor
  · intro k p hp
    cases k with
    | zero =>
      obtain rfl := Option.some.inj hp
      rfl
    | succ k => exact hcalls k p hp
  · intro k hk
    cases k with
    | zero => exact absurd hk (Nat.not_succ_le_zero _)
    | succ k => exact hend k (Nat.le_of_succ_le_succ hk)

/-- By induction on the length of what is left. -/
theorem exists_cuts (noReturn : Nat → TokenType) (n : Nat) :
    ∀ {l : Lexer}, l.Running → l.rest.length < n →
      ∃ ps, Cuts l.rest ps ∧ ReturnsPieces noReturn l ps := by
  induction n with
  | zero =>
    intro l _ hn
    exact absurd hn (Nat.not_lt_zero _)
  | succ n ih =>
    intro l hrun hn
    rcases lexerNext_scans noReturn hrun with
      hws | ⟨ws, w, post, hrest, hws, hne, hscans, hpost, hrun'⟩
    · exact ⟨[], .done hws, nofun, fun k _ => lexerAfter_end noReturn k hrun hws⟩
    · have hshort : (lexerNext noReturn l).2.rest.length < n := by
        have hpos := List.length_pos_iff.mpr hne
        rw [hrest] at hn
        simp only [List.length_append] at hn
        rw [hpost]
        omega
      obtain ⟨ps, hcuts, hcalls⟩ := ih hrun' hshort
      rw [hpost] at hcuts
      exact ⟨_, hrest ▸ .piece hws hscans hcuts, hcalls.cons ws w⟩

/-! ## The cursors -/

/-- From `l` to `l'` the cursor only moves forward, and past the end of the
input by at most `extra` characters. -/
structure Advances (extra : Nat) (l l' : Lexer) : Prop where
  running : l'.Running
  input : l'.input = l.input
  le : l.position ≤ l'.position
  bound : l'.position ≤ max l.position l.inputLength + extra

theorem Advances.inputLength {extra : Nat} {l l' : Lexer} (h : Advances extra l l') :
    l'.inputLength = l.inputLength := by
  rw [l'.inputLength_eq, l.inputLength_eq, h.input]

theorem Advances.trans {m n : Nat} {l l' l'' : Lexer} (h : Advances m l l')
    (h' : Advances n l' l'') : Advances (m + n) l l'' where
  running := h'.running
  input := h'.input.trans h.input
  le := Nat.le_trans h.le h'.le
  bound := by
    have h1 := h.bound
    have h2 := h'.bound
    rw [h.inputLength] at h2
    omega

theorem Advances.mono {m n : Nat} {l l' : Lexer} (h : Advances m l l') (hle : m ≤ n) :
    Advances n l l' :=
  { h with bound := Nat.le_trans h.bound (by omega) }

theorem advances_lexerReadChar {l : Lexer} (hrun : l.Running) : Advances 1 l (lexerReadChar l) := by
  have hread : l.readPosition = l.position + 1 := hrun
  refine ⟨running_lexerReadChar l, rfl, ?_, ?_⟩ <;>
    · simp only [lexerReadChar]
      omega

/-- Off a character of the input the cursor does not leave it. -/
theorem advances_lexerReadChar_of_ne {l : Lexer} (hrun : l.Running) (hch : l.ch ≠ nul) :
    Advances 0 l (lexerReadChar l) := by
  have hread : l.readPosition = l.position + 1 := hrun
  have hlt := Lexer.position_lt hch
  refine ⟨running_lexerReadChar l, rfl, ?_, ?_⟩ <;>
    · simp only [lexerReadChar]
      omega

theorem advances_lexerReadWhile (p : Char → Bool) (hp : p nul = false) (l : Lexer)
    (hrun : l.Running) : Advances 0 l (lexerReadWhile p hp l) := by
  fun_induction lexerReadWhile p hp l with
  | case1 l hch ih =>
    have hne : l.ch ≠ nul := by
      intro hnul
      rw [hnul, hp] at hch
      exact Bool.false_ne_true hch
    exact (advances_lexerReadChar_of_ne hrun hne).trans (ih (running_lexerReadChar l))
  | case2 l _ => exact ⟨hrun, rfl, Nat.le_refl _, by omega⟩

theorem advances_lexerNext (noReturn : Nat → TokenType) {l : Lexer} (hrun : l.Running) :
    Advances 1 l (lexerNext noReturn l).2 := by
  have hskip := advances_lexerReadWhile isWhitespace rfl l hrun
  have hle : 0 + 1 ≤ 1 := Nat.le_refl 1
  refine (hskip.trans ?_).mono hle
  unfold lexerNext lexerToken lexerSkipWhitespace
  generalize lexerReadWhile isWhitespace rfl l = l' at hskip
  have hrun' := hskip.running
  by_cases hquote : l'.ch = '"'
  · simp only [if_pos hquote, lexerReadString]
    have hfirst := advances_lexerReadChar_of_ne hrun' (by rw [hquote]; decide)
    have hbody := advances_lexerReadWhile isStringChar rfl _ hfirst.running
    exact (hfirst.trans hbody).trans (advances_lexerReadChar hbody.running)
  · simp only [if_neg hquote]
    split_ifs
    · exact (advances_lexerReadWhile isNumber rfl l' hrun').mono (Nat.zero_le 1)
    · exact (advances_lexerReadWhile isLetter rfl l' hrun').mono (Nat.zero_le 1)
    · exact advances_lexerReadChar hrun'

theorem advances_lexerAfter (noReturn : Nat → TokenType) (k : Nat) {l : Lexer}
    (hrun : l.Running) : Advances k l (lexerAfter noReturn l k) := by
  induction k generalizing l with
  | zero => exact ⟨hrun, rfl, Nat.le_refl _, Nat.le_max_left _ _⟩
  | succ k ih =>
    have hnext := advances_lexerNext noReturn hrun
    exact (hnext.trans (ih hnext.running)).mono (by omega)

/-! ## The slices read -/

/-- The part of the input a call points into: the offset and the length its
reading routine returns. -/
def lexerSlice (l : Lexer) : Option (Nat × Nat) :=
  let l := lexerSkipWhitespace l
  if l.ch = '"' then
    let (strp, len, _) := lexerReadString (lexerReadChar l)
    some (strp, len)
  else if isNumber l.ch then
    let (ident, len, _) := lexerReadNumber l
    some (ident, len)
  else if isLetter l.ch then
    let (identifier, len, _) := lexerReadIdentifier l
    some (identifier, len)
  else none

/-- The run a reading loop takes, from where it starts. -/
theorem lexerReadWhile_slice_le (p : Char → Bool) (hp : p nul = false) {l : Lexer}
    (hrun : l.Running) (hle : l.position ≤ l.inputLength) :
    l.position + ((lexerReadWhile p hp l).position - l.position) ≤ l.inputLength := by
  have hread := advances_lexerReadWhile p hp l hrun
  have h1 := hread.le
  have h2 := hread.bound
  omega

theorem lexerSlice_le {l : Lexer} (hrun : l.Running) {offset len : Nat}
    (h : lexerSlice l = some (offset, len)) : offset + len ≤ l.inputLength := by
  have hskip := advances_lexerReadWhile isWhitespace rfl l hrun
  rw [← hskip.inputLength]
  unfold lexerSlice lexerSkipWhitespace at h
  generalize lexerReadWhile isWhitespace rfl l = l' at h hskip
  have hrun' := hskip.running
  by_cases hquote : l'.ch = '"'
  · simp only [if_pos hquote, lexerReadString, Option.some.injEq, Prod.mk.injEq] at h
    obtain ⟨rfl, rfl⟩ := h
    have hlt := Lexer.position_lt (l := l') (by rw [hquote]; decide)
    refine lexerReadWhile_slice_le isStringChar rfl (l := lexerReadChar l')
      (running_lexerReadChar l') ?_
    have hread : l'.readPosition = l'.position + 1 := hrun'
    simp only [lexerReadChar]
    omega
  · simp only [if_neg hquote] at h
    have hlt : ∀ p : Char → Bool, p nul = false → p l'.ch = true →
        l'.position ≤ l'.inputLength := by
      intro p hp hch
      refine Nat.le_of_lt (Lexer.position_lt fun hnul => ?_)
      rw [hnul, hp] at hch
      exact Bool.false_ne_true hch
    split_ifs at h with hnum hlet
    · simp only [lexerReadNumber, Option.some.injEq, Prod.mk.injEq] at h
      obtain ⟨rfl, rfl⟩ := h
      exact lexerReadWhile_slice_le isNumber rfl hrun' (hlt isNumber rfl hnum)
    · simp only [lexerReadIdentifier, Option.some.injEq, Prod.mk.injEq] at h
      obtain ⟨rfl, rfl⟩ := h
      exact lexerReadWhile_slice_le isLetter rfl hrun' (hlt isLetter rfl hlet)

/-- The literal of a token is its slice of the input. -/
theorem lexerNext_literal (noReturn : Nat → TokenType) {l : Lexer} (hrun : l.Running)
    (hnul : nul ∉ l.input) {literal : List Char}
    (h : (lexerNext noReturn l).1.literal = some literal) :
    ∃ offset len, lexerSlice l = some (offset, len) ∧
      literal = (l.input.drop offset).take len := by
  have hcopy : ∀ offset len, strnstr (l.input.drop offset) len =
      (l.input.drop offset).take len := fun offset len => by
    rw [strnstr, cstr_of_not_mem fun hmem => hnul (List.mem_of_mem_drop hmem)]
  have hskip := advances_lexerReadWhile isWhitespace rfl l hrun
  unfold lexerNext lexerToken lexerSkipWhitespace at h
  unfold lexerSlice lexerSkipWhitespace
  generalize lexerReadWhile isWhitespace rfl l = l' at h hskip
  have hinput := hskip.input
  by_cases hquote : l'.ch = '"'
  · have hbody := advances_lexerReadWhile isStringChar rfl (lexerReadChar l')
      (running_lexerReadChar l')
    simp only [if_pos hquote, lexerReadString, tokenCreate, hbody.input, Option.some.injEq] at h ⊢
    refine ⟨_, _, rfl, ?_⟩
    rw [← h, show (lexerReadChar l').input = l.input from hinput, hcopy]
  · simp only [if_neg hquote] at h ⊢
    by_cases hnum : isNumber l'.ch = true
    · have hread := advances_lexerReadWhile isNumber rfl l' hskip.running
      simp only [if_pos hnum, lexerReadNumber, tokenCreate, hread.input,
        Option.some.injEq] at h ⊢
      refine ⟨_, _, rfl, ?_⟩
      rw [← h, hinput, hcopy]
    · simp only [if_neg hnum] at h ⊢
      by_cases hlet : isLetter l'.ch = true
      · simp [if_pos hlet, lexerReadIdentifier, tokenCreate] at h
      · rw [if_neg hlet, lexerSwitch_literal] at h
        cases h

/-! ## The partition -/

/-- **The token partition**: for an input without NUL the calls from
`lexerCreate` on return the tokens of the lexemes the input is cut into,
and `TOKEN_EOF` at every call behind the last. Every slice read is inside
the input and is the literal of its token, and after `k` calls the cursor
is at most `k` characters behind the input's end. -/
theorem lexerNext_partition (noReturn : Nat → TokenType) {input : List Char}
    (hnul : nul ∉ input) :
    ∃ pieces, Cuts input pieces ∧ ReturnsPieces noReturn (lexerCreate input) pieces ∧
      ∀ k, (lexerAfter noReturn (lexerCreate input) k).position ≤ input.length + k ∧
        (∀ offset len, lexerSlice (lexerAfter noReturn (lexerCreate input) k) =
          some (offset, len) → offset + len ≤ input.length) ∧
        ∀ literal, (lexerNext noReturn (lexerAfter noReturn (lexerCreate input) k)).1.literal =
            some literal →
          ∃ offset len, lexerSlice (lexerAfter noReturn (lexerCreate input) k) =
            some (offset, len) ∧ literal = (input.drop offset).take len := by
  have hrun := running_lexerCreate input
  obtain ⟨pieces, hcuts, hcalls⟩ := exists_cuts noReturn _ hrun (Nat.lt_succ_self _)
  rw [rest_lexerCreate hnul] at hcuts
  refine ⟨pieces, hcuts, hcalls, fun k => ?_⟩
  have hafter := advances_lexerAfter noReturn k hrun
  have hinput : (lexerAfter noReturn (lexerCreate input) k).input = input := hafter.input
  have hlength : (lexerAfter noReturn (lexerCreate input) k).inputLength = input.length := by
    rw [Lexer.inputLength_eq, hinput, strlen_of_not_mem hnul]
  refine ⟨?_, fun offset len hslice => ?_, fun literal hliteral => ?_⟩
  · have hbound := hafter.bound
    have hzero : (lexerCreate input).position = 0 := rfl
    rw [← hafter.inputLength, hlength, hzero] at hbound
    omega
  · rw [← hlength]
    exact lexerSlice_le hafter.running hslice
  · obtain ⟨offset, len, hslice, heq⟩ :=
      lexerNext_literal noReturn hafter.running (hinput.symm ▸ hnul) hliteral
    exact ⟨offset, len, hslice, hinput ▸ heq⟩

/-- A number, a word and an unclosed string; the `e` goes to the number. -/
theorem lexerNext_partition_run :
    ∃ pieces, Cuts ['1', 'e', 't', '\t', '"', 'a'] pieces ∧
      ReturnsPieces (fun _ => .illegal) (lexerCreate ['1', 'e', 't', '\t', '"', 'a']) pieces := by
  obtain ⟨pieces, hcuts, hcalls, -⟩ := lexerNext_partition (fun _ => .illegal)
    (show nul ∉ ['1', 'e', 't', '\t', '"', 'a'] by decide)
  exact ⟨pieces, hcuts, hcalls⟩

end CWebServer.Json
