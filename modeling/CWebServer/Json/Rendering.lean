/-
CWebServer.Json.Rendering — lexing inverts rendering.

`Renders ts text` says that `text` is the tokens `ts` written out in
order, with any run of whitespace before, between and after them. It is a
relation, because the whitespace is free; the one constraint is that two
neighbouring words (numbers or keywords) are kept apart by at least one
whitespace character, or they would be read as one.

`parseTokens_renders` is the inversion: whatever the whitespace, the
tokens come back as they were written. The induction is on the rendering.
What carries it is `renders_head`: the text behind a word starts with a
character no word contains, so the reading loop stops where the word does.

No `sorry`, no `axiom`, no `native_decide`.
-/
import CWebServer.Json.LexerTheorems

namespace CWebServer.Json

open Libc

/-! ## The rendering relation -/

/-- Space, tab, line feed and carriage return. -/
def blankChars : List Char := [' ', '\t', '\n', '\r']

/-- A run of whitespace. -/
def Blank (ws : List Char) : Prop := ∀ c ∈ ws, c ∈ blankChars

instance (ws : List Char) : Decidable (Blank ws) :=
  inferInstanceAs (Decidable (∀ c ∈ ws, c ∈ blankChars))

/-- The characters of a number literal. -/
def numberChars : List Char :=
  ['0', '1', '2', '3', '4', '5', '6', '7', '8', '9', '.', 'e', 'E', '+', '-']

/-- How one token is written. A string is free of the quote that would end
it, and of NUL. -/
inductive Lexeme : Token → List Char → Prop where
  | leftBrace : Lexeme ⟨.leftBrace, none⟩ ['{']
  | rightBrace : Lexeme ⟨.rightBrace, none⟩ ['}']
  | leftBracket : Lexeme ⟨.leftBracket, none⟩ ['[']
  | rightBracket : Lexeme ⟨.rightBracket, none⟩ [']']
  | comma : Lexeme ⟨.comma, none⟩ [',']
  | colon : Lexeme ⟨.colon, none⟩ [':']
  | string (s : List Char) : '"' ∉ s → nul ∉ s →
      Lexeme ⟨.string, some s⟩ ('"' :: (s ++ ['"']))
  | number (s : List Char) : s ≠ [] → (∀ c ∈ s, c ∈ numberChars) → Lexeme ⟨.number, some s⟩ s
  | jsonTrue : Lexeme ⟨.jsonTrue, none⟩ ['t', 'r', 'u', 'e']
  | jsonFalse : Lexeme ⟨.jsonFalse, none⟩ ['f', 'a', 'l', 's', 'e']
  | jsonNull : Lexeme ⟨.jsonNull, none⟩ ['n', 'u', 'l', 'l']

/-- A number or a keyword: nothing but what follows marks its end. -/
def TokenType.isWord (type : TokenType) : Bool :=
  type ∈ [TokenType.number, .jsonTrue, .jsonFalse, .jsonNull]

def startsWord : List Token → Bool
  | [] => false
  | t :: _ => t.type.isWord

def startsBlank : List Char → Bool
  | [] => false
  | c :: _ => c ∈ blankChars

inductive Renders : List Token → List Char → Prop where
  | nil {ws : List Char} : Blank ws → Renders [] ws
  | cons {ws w rest : List Char} {t : Token} {ts : List Token} :
      Blank ws → Lexeme t w → Renders ts rest →
      (t.type.isWord = true → startsWord ts = true → startsBlank rest = true) →
      Renders (t :: ts) (ws ++ (w ++ rest))

/-! ## Character classes -/

theorem isWhitespace_iff {c : Char} : isWhitespace c = true ↔ c ∈ blankChars := by
  simp [isWhitespace, blankChars, or_assoc]

theorem isNumber_of_mem {c : Char} (h : c ∈ numberChars) : isNumber c = true := by
  simp only [numberChars, List.mem_cons, List.not_mem_nil, or_false] at h
  rcases h with rfl | rfl | rfl | rfl | rfl | rfl | rfl | rfl | rfl | rfl | rfl | rfl | rfl
    | rfl | rfl <;> decide

/-- A character of no word: neither in a number nor in a keyword. -/
def Separates (c : Char) : Prop := isNumber c = false ∧ isLetter c = false

theorem separates_blank {c : Char} (h : c ∈ blankChars) : Separates c := by
  simp only [blankChars, List.mem_cons, List.not_mem_nil, or_false] at h
  rcases h with rfl | rfl | rfl | rfl <;> exact ⟨by decide, by decide⟩

/-- A lexeme never starts with whitespace or NUL. -/
theorem Lexeme.head {t : Token} {w : List Char} (h : Lexeme t w) :
    ∃ c r, w = c :: r ∧ isWhitespace c = false ∧ (t.type.isWord = false → Separates c) := by
  cases h with
  | number s hne hs =>
    obtain ⟨c, r, rfl⟩ := List.exists_cons_of_ne_nil hne
    refine ⟨c, r, rfl, ?_, nofun⟩
    have hc := hs c (by simp)
    simp only [numberChars, List.mem_cons, List.not_mem_nil, or_false] at hc
    rcases hc with rfl | rfl | rfl | rfl | rfl | rfl | rfl | rfl | rfl | rfl | rfl | rfl | rfl
      | rfl | rfl <;> decide
  | jsonTrue | jsonFalse | jsonNull =>
    exact ⟨_, _, rfl, by decide, nofun⟩
  | _ => exact ⟨_, _, rfl, by decide, fun _ => ⟨by decide, by decide⟩⟩

/-- What stands behind a token that no word may follow directly. -/
theorem renders_head {ts : List Token} {text : List Char} (h : Renders ts text)
    (hsep : startsWord ts = true → startsBlank text = true) :
    ∀ c ∈ text.head?, Separates c := by
  intro c hc
  cases h with
  | nil hws => exact separates_blank (hws c (List.mem_of_mem_head? hc))
  | @cons ws w rest t ts hws hw _ _ =>
    cases ws with
    | cons d ws =>
      simp only [List.cons_append, List.head?_cons, Option.mem_some_iff] at hc
      exact separates_blank (hws c (by simp [hc]))
    | nil =>
      obtain ⟨d, r, rfl, hd, hsepd⟩ := hw.head
      simp only [List.nil_append, List.cons_append, List.head?_cons, Option.mem_some_iff] at hc
      subst hc
      cases hword : t.type.isWord with
      | false => exact hsepd hword
      | true =>
        -- A word needs whitespace before it, and a lexeme does not start with any.
        have hblank : d ∈ blankChars := by simpa [startsBlank] using hsep hword
        rw [← isWhitespace_iff, hd] at hblank
        exact absurd hblank Bool.false_ne_true

/-! ## One token -/

/-- A lexeme lexes to its token and leaves what follows it untouched. -/
theorem lexerToken_lexeme (noReturn : Nat → TokenType) {l : Lexer} {t : Token}
    {w post : List Char} (hw : Lexeme t w) (hrun : l.Running) (hrest : l.rest = w ++ post)
    (hstop : t.type.isWord = true → ∀ c ∈ post.head?, Separates c) :
    (lexerToken noReturn l).1 = t ∧ (lexerToken noReturn l).2.rest = post ∧
      (lexerToken noReturn l).2.Running := by
  cases hw with
  | string s hquote hnul =>
    refine lexerToken_string noReturn hrun (by simpa using hrest) fun c hc => ?_
    exact isStringChar_iff.mpr ⟨fun h => hnul (h ▸ hc), fun h => hquote (h ▸ hc)⟩
  | number s hne hs =>
    refine lexerToken_number noReturn hrun hrest hne (fun c hc => isNumber_of_mem (hs c hc)) ?_
    exact fun c hc => (hstop rfl c hc).1
  | jsonTrue | jsonFalse | jsonNull =>
    exact lexerToken_identifier noReturn hrun hrest (by decide) (by decide)
      fun c hc => (hstop rfl c hc).2
  | _ =>
    exact lexerToken_switch noReturn hrun hrest rfl

/-- `lexerNext` at a rendering of `t` and more. -/
theorem lexerNext_lexeme (noReturn : Nat → TokenType) {l : Lexer} {t : Token}
    {ws w post : List Char} (hws : Blank ws) (hw : Lexeme t w) (hrun : l.Running)
    (hrest : l.rest = ws ++ (w ++ post))
    (hstop : t.type.isWord = true → ∀ c ∈ post.head?, Separates c) :
    (lexerNext noReturn l).1 = t ∧ (lexerNext noReturn l).2.rest = post ∧
      (lexerNext noReturn l).2.Running := by
  obtain ⟨c, r, rfl, hc, -⟩ := hw.head
  have hskip := lexerReadWhile_skips isWhitespace rfl ws hrun hrest
    (fun d hd => isWhitespace_iff.mpr (hws d hd)) (by simpa using hc)
  exact lexerToken_lexeme noReturn hw hskip.running hskip.rest hstop

theorem lexerNext_blank (noReturn : Nat → TokenType) {l : Lexer} (hrun : l.Running)
    (hws : Blank l.rest) : (lexerNext noReturn l).1 = ⟨.eof, none⟩ := by
  have hskip := lexerReadWhile_skips isWhitespace rfl l.rest hrun (List.append_nil _).symm
    (fun d hd => isWhitespace_iff.mpr (hws d hd)) (by simp)
  exact lexerToken_eof noReturn hskip.rest

/-! ## The whole text -/

theorem Lexeme.type_ne_eof {t : Token} {w : List Char} (h : Lexeme t w) : t.type ≠ .eof := by
  cases h <;> exact nofun

theorem lexerTokens_renders (noReturn : Nat → TokenType) {ts : List Token} {text : List Char}
    (h : Renders ts text) :
    ∀ {l : Lexer}, l.Running → l.rest = text →
      lexerTokens noReturn l = ts ++ [⟨.eof, none⟩] := by
  induction h with
  | nil hws =>
    intro l hrun hrest
    have htok := lexerNext_blank noReturn hrun (by rw [hrest]; exact hws)
    rw [lexerTokens_eof (by rw [htok]), htok]
    rfl
  | @cons ws w rest t ts hws hw hts hsep ih =>
    intro l hrun hrest
    obtain ⟨htok, hpost, hrun'⟩ := lexerNext_lexeme noReturn hws hw hrun hrest
      (fun hword => renders_head hts (hsep hword))
    rw [lexerTokens_cons (by rw [htok]; exact hw.type_ne_eof), htok, ih hrun' hpost]
    rfl

theorem Lexeme.nul_not_mem {t : Token} {w : List Char} (h : Lexeme t w) : nul ∉ w := by
  cases h with
  | string s _ hnul =>
    simp only [List.mem_cons, List.mem_append, List.not_mem_nil, or_false, not_or]
    exact ⟨by decide, hnul, by decide⟩
  | number s _ hs => exact fun hmem => absurd (hs nul hmem) (by decide)
  | _ => decide

theorem Blank.nul_not_mem {ws : List Char} (h : Blank ws) : nul ∉ ws :=
  fun hmem => absurd (h nul hmem) (by decide)

theorem Renders.nul_not_mem {ts : List Token} {text : List Char} (h : Renders ts text) :
    nul ∉ text := by
  induction h with
  | nil hws => exact hws.nul_not_mem
  | cons hws hw _ _ ih =>
    simp only [List.mem_append, not_or]
    exact ⟨hws.nul_not_mem, hw.nul_not_mem, ih⟩

/-- The token list of a rendering, from `lexerCreate` on. -/
theorem lexerTokens_create (noReturn : Nat → TokenType) {ts : List Token} {text : List Char}
    (h : Renders ts text) :
    lexerTokens noReturn (lexerCreate text) = ts ++ [⟨.eof, none⟩] :=
  lexerTokens_renders noReturn h (running_lexerCreate text) (rest_lexerCreate h.nul_not_mem)

/-- And the array `parseTokens` makes of it. -/
theorem parseTokens_of_renders (abi : Abi) (noReturn : Nat → TokenType) {ts : List Token}
    {text : List Char} (h : Renders ts text) :
    parseTokens abi noReturn text =
      .ok { tokens := ts ++ [⟨.eof, none⟩], length := ts.length + 1 } := by
  rw [parseTokens_eq, lexerTokens_create noReturn h]
  simp

/-- **Lexing inverts rendering**: `parseTokens` of any rendering of `ts` is
`ts` and one `TOKEN_EOF`. -/
theorem parseTokens_renders (abi : Abi) (noReturn : Nat → TokenType) {ts : List Token}
    {text : List Char} (h : Renders ts text) :
    parseTokens abi noReturn text =
      .ok { tokens := ts ++ [⟨.eof, none⟩], length := ts.length + 1 } :=
  parseTokens_of_renders abi noReturn h

/-- `{"k" :1e\t}` with the whitespace a reader would not expect. -/
theorem parseTokens_renders_object :
    parseTokens ⟨4, by decide⟩ (fun _ => .illegal)
      ['\n', '{', '"', 'k', '"', ' ', ':', '1', 'e', '\t', '}'] =
      .ok { tokens := [⟨.leftBrace, none⟩, ⟨.string, some ['k']⟩, ⟨.colon, none⟩,
              ⟨.number, some ['1', 'e']⟩, ⟨.rightBrace, none⟩, ⟨.eof, none⟩]
            length := 6 } :=
  parseTokens_renders ⟨4, by decide⟩ (fun _ => .illegal)
    (show Renders [⟨.leftBrace, none⟩, ⟨.string, some ['k']⟩, ⟨.colon, none⟩,
        ⟨.number, some ['1', 'e']⟩, ⟨.rightBrace, none⟩] _ from
      .cons (show Blank ['\n'] by decide) .leftBrace
        (.cons (show Blank [] by decide) (.string ['k'] (by decide) (by decide))
          (.cons (show Blank [' '] by decide) .colon
            (.cons (show Blank [] by decide) (.number ['1', 'e'] (by decide) (by decide))
              (.cons (show Blank ['\t'] by decide) .rightBrace (.nil (show Blank [] by decide))
                (by decide))
              (by decide))
            (by decide))
          (by decide))
        (by decide))

/-! ## A text for every token list -/

/-- The lexeme of a token. No rule of the lexer recognises `@`. -/
def writeToken (t : Token) : List Char :=
  match t.type with
  | .leftBrace => ['{']
  | .rightBrace => ['}']
  | .leftBracket => ['[']
  | .rightBracket => [']']
  | .comma => [',']
  | .colon => [':']
  | .string => '"' :: (t.literal.getD [] ++ ['"'])
  | .number => t.literal.getD []
  | .jsonTrue => ['t', 'r', 'u', 'e']
  | .jsonFalse => ['f', 'a', 'l', 's', 'e']
  | .jsonNull => ['n', 'u', 'l', 'l']
  | .illegal => ['@']
  | _ => []

/-- Each token behind a blank. -/
def writeTokens (ts : List Token) : List Char := ts.flatMap fun t => ' ' :: writeToken t

theorem Lexeme.eq_writeToken {t : Token} {w : List Char} (h : Lexeme t w) : w = writeToken t := by
  cases h <;> rfl

theorem startsBlank_writeTokens {ts : List Token} (h : startsWord ts = true) :
    startsBlank (writeTokens ts) = true := by
  cases ts with
  | nil => cases h
  | cons t ts => rfl

/-- Tokens that have lexemes are rendered by what is written of them. -/
theorem renders_writeTokens {ts : List Token} (h : ∀ t ∈ ts, ∃ w, Lexeme t w) :
    Renders ts (writeTokens ts) := by
  induction ts with
  | nil => exact .nil (show Blank [] by decide)
  | cons t ts ih =>
    obtain ⟨w, hw⟩ := h t (by simp)
    have hrest := ih fun u hu => h u (by simp [hu])
    obtain rfl := hw.eq_writeToken
    exact .cons (show Blank [' '] by decide) hw hrest fun _ => startsBlank_writeTokens

end CWebServer.Json
