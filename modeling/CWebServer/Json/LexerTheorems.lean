/-
CWebServer.Json.LexerTheorems — what the lexer routines do to the
remaining input.

`Lexer.rest` is the text from the current character to the end of the
string. Read through it, the two cursors and the cached character vanish:
`_lexerReadChar` drops one character, a reading loop drops the longest run
its test accepts, and a slice `input + position` of length `len` is the
run itself. `Running` says that `readPosition` is one ahead of `position`;
it holds from `lexerCreate` on, because every routine ends with
`_lexerReadChar` or with nothing.

`parseTokens_eq` then separates the lexing from the block the tokens are
stored in: every write of the loop is inside the block, and the length it
returns is the number of tokens written.

No `sorry`, no `axiom`, no `native_decide`.
-/
import CWebServer.Json.Lexer

namespace CWebServer.Json

open Libc

/-! ## The remaining input -/

/-- The text from the current character on. -/
def Lexer.rest (l : Lexer) : List Char := (cstr l.input).drop l.position

/-- The reading cursor is one character ahead. -/
def Lexer.Running (l : Lexer) : Prop := l.readPosition = l.position + 1

theorem Lexer.ch_eq_head (l : Lexer) : l.ch = l.rest.headD nul := by
  rw [l.ch_eq, Lexer.rest, List.getD_eq_getElem?_getD, List.headD_eq_head?_getD,
    List.head?_drop]

theorem Lexer.ch_of_rest {l : Lexer} {c : Char} {post : List Char} (h : l.rest = c :: post) :
    l.ch = c := by
  rw [l.ch_eq_head, h]
  rfl

theorem running_lexerReadChar (l : Lexer) : (lexerReadChar l).Running := rfl

theorem running_lexerCreate (input : List Char) : (lexerCreate input).Running := rfl

theorem rest_lexerReadChar {l : Lexer} (h : l.Running) :
    (lexerReadChar l).rest = l.rest.tail := by
  simp only [Lexer.rest, lexerReadChar]
  rw [h, List.tail_drop]

theorem rest_lexerCreate {input : List Char} (h : nul ∉ input) :
    (lexerCreate input).rest = input := by
  simp only [Lexer.rest, lexerCreate, lexerReadChar, List.drop_zero]
  exact cstr_of_not_mem h

/-- A string read from the middle of a block is the rest of the string the
block holds. -/
theorem cstr_drop (s : List Char) {i : Nat} (h : i ≤ strlen s) :
    cstr (s.drop i) = (cstr s).drop i := by
  induction s generalizing i with
  | nil => simp [cstr]
  | cons c s ih =>
    cases i with
    | zero => rfl
    | succ i =>
      by_cases hc : c = nul
      · subst hc
        simp [strlen, cstr] at h
      · have hcons : cstr (c :: s) = c :: cstr s := by simp [cstr, hc]
        have hi : i ≤ strlen s := by simpa [strlen, hcons] using h
        rw [List.drop_succ_cons, ih hi, hcons, List.drop_succ_cons]

/-- The slice a reading loop returns, read from its start. -/
theorem strnstr_slice {l : Lexer} {pre post : List Char} (h : l.rest = pre ++ post)
    (hpos : l.position ≤ l.inputLength) :
    strnstr (l.input.drop l.position) pre.length = pre := by
  have hle : l.position ≤ strlen l.input := by rw [← l.inputLength_eq]; exact hpos
  have hrest : (cstr l.input).drop l.position = pre ++ post := h
  rw [strnstr, cstr_drop _ hle, hrest, List.take_left]

theorem Lexer.position_le_of_rest {l : Lexer} (h : l.rest ≠ []) :
    l.position ≤ l.inputLength := by
  by_contra hgt
  apply h
  rw [Lexer.rest, List.drop_eq_nil_iff]
  rw [l.inputLength_eq, strlen] at hgt
  omega

/-! ## A reading loop drops the longest run of its test -/

/-- What a reading loop leaves behind a run `pre`. -/
structure Skips (l : Lexer) (pre post : List Char) (l' : Lexer) : Prop where
  rest : l'.rest = post
  running : l'.Running
  input : l'.input = l.input
  position : l'.position = l.position + pre.length

theorem lexerReadWhile_skips (p : Char → Bool) (hp : p nul = false) (pre : List Char)
    {post : List Char} {l : Lexer} (hrun : l.Running) (hrest : l.rest = pre ++ post)
    (hall : ∀ c ∈ pre, p c = true) (hstop : ∀ c ∈ post.head?, p c = false) :
    Skips l pre post (lexerReadWhile p hp l) := by
  induction pre generalizing l with
  | nil =>
    have hch : p l.ch = false := by
      rw [l.ch_eq_head, hrest]
      cases post with
      | nil => exact hp
      | cons c r => exact hstop c (by simp)
    rw [lexerReadWhile, dif_neg (by simp [hch])]
    exact ⟨hrest, hrun, rfl, rfl⟩
  | cons c pre ih =>
    have hch : l.ch = c := Lexer.ch_of_rest hrest
    have hc : p l.ch = true := by rw [hch]; exact hall c (by simp)
    have htail : (lexerReadChar l).rest = pre ++ post := by
      rw [rest_lexerReadChar hrun, hrest]
      rfl
    obtain ⟨h1, h2, h3, h4⟩ :=
      ih (running_lexerReadChar l) htail fun d hd => hall d (by simp [hd])
    rw [lexerReadWhile, dif_pos hc]
    refine ⟨h1, h2, h3, ?_⟩
    rw [h4]
    simp only [lexerReadChar, List.length_cons]
    have hrun' : l.readPosition = l.position + 1 := hrun
    omega

/-! ## One token of each class -/

theorem isStringChar_iff {c : Char} : isStringChar c = true ↔ c ≠ nul ∧ c ≠ '"' := by
  simp [isStringChar]

theorem lexerSwitch_literal (c : Char) :
    ((lexerSwitch c).getD (tokenCreate .illegal none)).literal = none := by
  unfold lexerSwitch tokenCreate
  split_ifs <;> rfl

/-- The `switch` and the three readers share no character. -/
theorem lexerSwitch_some {c : Char} {t : Token} (h : lexerSwitch c = some t) :
    c ≠ '"' ∧ isNumber c = false ∧ isLetter c = false := by
  unfold lexerSwitch at h
  split_ifs at h with h₁ h₂ h₃ h₄ h₅ h₆ h₇
  · rw [h₁]; decide
  · rw [h₂]; decide
  · rw [h₃]; decide
  · rw [h₄]; decide
  · rw [h₅]; decide
  · rw [h₆]; decide
  · rw [h₇]; decide

/-- A character the `switch` decides alone. -/
theorem lexerToken_switch (noReturn : Nat → TokenType) {l : Lexer} {c : Char} {t : Token}
    {post : List Char} (hrun : l.Running) (hrest : l.rest = c :: post)
    (ht : lexerSwitch c = some t) :
    (lexerToken noReturn l).1 = t ∧ (lexerToken noReturn l).2.rest = post ∧
      (lexerToken noReturn l).2.Running := by
  have hch : l.ch = c := Lexer.ch_of_rest hrest
  obtain ⟨hquote, hnum, hlet⟩ := lexerSwitch_some ht
  have heq : lexerToken noReturn l = (t, lexerReadChar l) := by
    unfold lexerToken
    simp only [hch, if_neg hquote, hnum, hlet, ht, Bool.false_eq_true, if_false,
      Option.getD_some]
  rw [heq]
  refine ⟨rfl, ?_, running_lexerReadChar l⟩
  rw [rest_lexerReadChar hrun, hrest]
  rfl

/-- A string: its characters up to a quote or the end of the input, and
whatever stopped it is read too. -/
theorem lexerToken_quoted (noReturn : Nat → TokenType) {l : Lexer} {s tail : List Char}
    (hrun : l.Running) (hrest : l.rest = '"' :: (s ++ tail)) (hs : ∀ c ∈ s, isStringChar c = true)
    (hstop : ∀ c ∈ tail.head?, isStringChar c = false) :
    (lexerToken noReturn l).1 = tokenCreate .string (some s) ∧
      (lexerToken noReturn l).2.rest = tail.tail ∧ (lexerToken noReturn l).2.Running := by
  have hch : l.ch = '"' := Lexer.ch_of_rest hrest
  have hbody : (lexerReadChar l).rest = s ++ tail := by
    rw [rest_lexerReadChar hrun, hrest]
    rfl
  have hskip :=
    lexerReadWhile_skips isStringChar rfl s (running_lexerReadChar l) hbody hs hstop
  have hlen : (lexerReadWhile isStringChar rfl (lexerReadChar l)).position
      - (lexerReadChar l).position = s.length := by
    rw [hskip.position]
    omega
  have hpos : (lexerReadChar l).position ≤ (lexerReadChar l).inputLength := by
    have hlt : l.position < l.inputLength := Lexer.position_lt (by rw [hch]; decide)
    have hread : l.readPosition = l.position + 1 := hrun
    simp only [lexerReadChar]
    omega
  have heq : lexerToken noReturn l = (tokenCreate .string (some s),
      lexerReadChar (lexerReadWhile isStringChar rfl (lexerReadChar l))) := by
    unfold lexerToken
    simp only [hch, if_true, lexerReadString, hlen]
    rw [hskip.input, strnstr_slice hbody hpos]
  rw [heq]
  refine ⟨rfl, ?_, running_lexerReadChar _⟩
  rw [rest_lexerReadChar hskip.running, hskip.rest]

theorem lexerToken_string (noReturn : Nat → TokenType) {l : Lexer} {s post : List Char}
    (hrun : l.Running) (hrest : l.rest = '"' :: (s ++ '"' :: post))
    (hs : ∀ c ∈ s, isStringChar c = true) :
    (lexerToken noReturn l).1 = tokenCreate .string (some s) ∧
      (lexerToken noReturn l).2.rest = post ∧ (lexerToken noReturn l).2.Running :=
  lexerToken_quoted noReturn hrun hrest hs (by simp [isStringChar])

theorem lexerToken_number (noReturn : Nat → TokenType) {l : Lexer} {s post : List Char}
    (hrun : l.Running) (hrest : l.rest = s ++ post) (hne : s ≠ [])
    (hs : ∀ c ∈ s, isNumber c = true) (hstop : ∀ c ∈ post.head?, isNumber c = false) :
    (lexerToken noReturn l).1 = tokenCreate .number (some s) ∧
      (lexerToken noReturn l).2.rest = post ∧ (lexerToken noReturn l).2.Running := by
  obtain ⟨c, s', rfl⟩ := List.exists_cons_of_ne_nil hne
  have hch : l.ch = c := Lexer.ch_of_rest hrest
  have hc : isNumber c = true := hs c (by simp)
  have hquote : c ≠ '"' := by
    rintro rfl
    exact absurd hc (by decide)
  have hskip := lexerReadWhile_skips isNumber rfl (c :: s') hrun hrest hs hstop
  have hlen : (lexerReadWhile isNumber rfl l).position - l.position = (c :: s').length := by
    rw [hskip.position]
    omega
  have hpos : l.position ≤ l.inputLength := Lexer.position_le_of_rest (by rw [hrest]; simp)
  have heq : lexerToken noReturn l =
      (tokenCreate .number (some (c :: s')), lexerReadWhile isNumber rfl l) := by
    unfold lexerToken
    simp only [hch, if_neg hquote, hc, if_true, lexerReadNumber, hlen]
    rw [hskip.input, strnstr_slice hrest hpos]
  rw [heq]
  exact ⟨rfl, hskip.rest, hskip.running⟩

/-- A word of letters: its type is what `_getTokenTypeFromLiteral` makes of
the input from the word on, compared over the word's length. -/
theorem lexerToken_identifier (noReturn : Nat → TokenType) {l : Lexer} {c : Char}
    {s post : List Char} (hrun : l.Running) (hrest : l.rest = (c :: s) ++ post)
    (hs : ∀ d ∈ c :: s, isLetter d = true) (hnum : isNumber c = false)
    (hstop : ∀ d ∈ post.head?, isLetter d = false) :
    (lexerToken noReturn l).1 = tokenCreate
        ((getTokenTypeFromLiteral (c :: s) (s.length + 1)).getD (noReturn l.position)) none ∧
      (lexerToken noReturn l).2.rest = post ∧ (lexerToken noReturn l).2.Running := by
  have hch : l.ch = c := Lexer.ch_of_rest hrest
  have hc : isLetter c = true := hs c (by simp)
  have hquote : c ≠ '"' := by
    rintro rfl
    exact absurd hc (by decide)
  have hskip := lexerReadWhile_skips isLetter rfl (c :: s) hrun hrest hs hstop
  have hlen : (lexerReadWhile isLetter rfl l).position - l.position = s.length + 1 := by
    rw [hskip.position, List.length_cons]
    omega
  have hpos : l.position ≤ l.inputLength := Lexer.position_le_of_rest (by rw [hrest]; simp)
  -- The comparison sees the word and what follows it, but only `len` characters count.
  have hslice : strnstr (l.input.drop l.position) (s.length + 1) = c :: s :=
    strnstr_slice hrest hpos
  have hword : strnstr (c :: s) (s.length + 1) = c :: s := by
    have hnul : nul ∉ c :: s := fun hmem => absurd (hs nul hmem) (by decide)
    rw [strnstr, cstr_of_not_mem hnul, List.take_of_length_le (by simp)]
  have hcmp : ∀ w, strncmpEq (l.input.drop l.position) w (s.length + 1)
      = strncmpEq (c :: s) w (s.length + 1) := by
    intro w
    have h1 : (cstr (l.input.drop l.position)).take (s.length + 1) = c :: s := hslice
    have h2 : (cstr (c :: s)).take (s.length + 1) = c :: s := hword
    simp only [strncmpEq, h1, h2]
  have heq : lexerToken noReturn l = (tokenCreate
      ((getTokenTypeFromLiteral (c :: s) (s.length + 1)).getD (noReturn l.position)) none,
      lexerReadWhile isLetter rfl l) := by
    unfold lexerToken
    simp only [hch, if_neg hquote, hnum, hc, Bool.false_eq_true, if_false, if_true,
      lexerReadIdentifier, hlen, hskip.input, getTokenTypeFromLiteral, hcmp]
  rw [heq]
  exact ⟨rfl, hskip.rest, hskip.running⟩

/-- At the end of the input the token is `TOKEN_EOF`. -/
theorem lexerToken_eof (noReturn : Nat → TokenType) {l : Lexer} (hrest : l.rest = []) :
    (lexerToken noReturn l).1 = tokenCreate .eof none := by
  have hch : l.ch = nul := by rw [l.ch_eq_head, hrest]; rfl
  unfold lexerToken
  rw [hch]
  rfl

/-! ## The token array -/

/-- The tokens of successive `lexerNext` calls, up to the first of type
`TOKEN_EOF`. -/
def lexerTokens (noReturn : Nat → TokenType) (l : Lexer) : List Token :=
  if _h : (lexerNext noReturn l).1.type = .eof then [(lexerNext noReturn l).1]
  else (lexerNext noReturn l).1 :: lexerTokens noReturn (lexerNext noReturn l).2
termination_by l.left
decreasing_by exact left_lexerNext_lt noReturn _h

theorem lexerTokens_eof {noReturn : Nat → TokenType} {l : Lexer}
    (h : (lexerNext noReturn l).1.type = .eof) :
    lexerTokens noReturn l = [(lexerNext noReturn l).1] := by
  rw [lexerTokens, dif_pos h]

theorem lexerTokens_cons {noReturn : Nat → TokenType} {l : Lexer}
    (h : (lexerNext noReturn l).1.type ≠ .eof) :
    lexerTokens noReturn l =
      (lexerNext noReturn l).1 :: lexerTokens noReturn (lexerNext noReturn l).2 := by
  rw [lexerTokens, dif_neg h]

/-- The loop invariant of `parseTokens`: `size` counts one slot more than
has been written, and the block has room for one more pointer. -/
theorem parseTokensLoop_eq (abi : Abi) (noReturn : Nat → TokenType) (lexer : Lexer)
    (tokensArray : List Token) (room size : Nat)
    (hroom : (tokensArray.length + 1) * abi.sizeofPtr ≤ room)
    (hsize : size = (tokensArray.length + 1) * sizeofToken abi) :
    parseTokensLoop abi noReturn lexer tokensArray room size =
      .ok { tokens := tokensArray ++ lexerTokens noReturn lexer
            length := tokensArray.length + (lexerTokens noReturn lexer).length } := by
  have hpos : 0 < sizeofToken abi := Nat.mul_pos (by decide) abi.sizeofPtr_pos
  fun_induction parseTokensLoop abi noReturn lexer tokensArray room size with
  | case1 lexer tokensArray room size h => omega
  | case2 lexer tokensArray room size _ h =>
    rw [lexerTokens_eof h, hsize, Nat.mul_div_cancel _ hpos]
    rfl
  | case3 lexer tokensArray room size _ h ih =>
    have hlen : (tokensArray ++ [(lexerNext noReturn lexer).1]).length
        = tokensArray.length + 1 := by simp
    rw [ih _ (by rw [hlen, hsize, Nat.succ_mul (tokensArray.length + 1)]), lexerTokens_cons h]
    · simp only [List.append_assoc, List.singleton_append, List.length_append,
        List.length_cons, List.length_nil, Except.ok.injEq, TokensArray.mk.injEq, true_and]
      omega
    · rw [hlen, hsize, sizeofToken]
      calc (tokensArray.length + 1 + 1) * abi.sizeofPtr
          ≤ ((tokensArray.length + 1) * 2) * abi.sizeofPtr :=
            Nat.mul_le_mul_right _ (by omega)
        _ = (tokensArray.length + 1) * (2 * abi.sizeofPtr) := Nat.mul_assoc _ _ _

/-- `parseTokens` stores exactly the tokens of the input, inside its block,
and returns their number. -/
theorem parseTokens_eq (abi : Abi) (noReturn : Nat → TokenType) (json : List Char) :
    parseTokens abi noReturn json =
      .ok { tokens := lexerTokens noReturn (lexerCreate json)
            length := (lexerTokens noReturn (lexerCreate json)).length } := by
  rw [parseTokens, parseTokensLoop_eq]
  · simp
  · simp only [List.length_nil, sizeofToken]
    omega
  · simp

end CWebServer.Json
