/-
CWebServer.Json.Lexer — `json/lexer.c`: the lexer state, `lexerNext` and
`parseTokens`.

The lexer keeps the current character beside two cursors. Its state
carries what every routine preserves: `inputLength` is the input's string
length, `ch` is the character at `position` (NUL past the end), and
`readPosition` is at most one further. With that in the type the four
`while` loops of `lexer.c` terminate by the distance to the end of the
input, and no routine can read past it.

Two things the C leaves open are parameters. `abi` gives the pointer size
`parseTokens` counts its block in. `noReturn` is the value the caller
finds when control runs off the end of `_getTokenTypeFromLiteral`, which
has no `return` for an unknown word; it may differ from word to word, so
it is a function of the word's position in the input.

`isdigit` is handed a plain `char`. Where that is signed, a byte from 0x80
on is outside what `isdigit` is defined for; no such byte is taken for a
digit here.

Left out: `_lexerPeek` (never called), the unused `result` locals, and the
room on the stack that the arrays `str[len + 1]` and `number[len + 1]` of
`lexerNext` take; what is read out of them is `strnstr`.

No `sorry`, no `axiom`, no `native_decide`.
-/
import CWebServer.Libc.Memory
import Mathlib.Data.List.GetD

namespace CWebServer.Json

open Libc

/-! ## Tokens -/

inductive TokenType where
  | leftBrace
  | rightBrace
  | leftBracket
  | rightBracket
  | comma
  | colon
  | string
  | number
  | jsonNull
  | array
  | object
  | boolean
  | jsonTrue
  | jsonFalse
  | illegal
  | eof
  deriving DecidableEq, Repr

structure Token where
  type : TokenType
  literal : Option (List Char)
  deriving DecidableEq, Repr

def tokenCreate (type : TokenType) (literal : Option (List Char)) : Token :=
  { type, literal }

/-- `sizeof(Token)`: an enumeration padded to the pointer beside it. -/
def sizeofToken (abi : Abi) : Nat := 2 * abi.sizeofPtr

/-! ## The lexer state -/

structure Lexer where
  input : List Char
  inputLength : Nat
  position : Nat
  readPosition : Nat
  ch : Char
  inputLength_eq : inputLength = strlen input
  ch_eq : ch = (cstr input).getD position nul
  readPosition_le : readPosition ≤ position + 1

/-- How many characters are still to be read: what every loop decreases. -/
def Lexer.left (l : Lexer) : Nat := l.inputLength + 1 - l.readPosition

/-- A block agrees with its string below the string's length. -/
theorem getD_cstr (s : List Char) {i : Nat} (h : i < strlen s) :
    s.getD i nul = (cstr s).getD i nul := by
  have hpre : cstr s <+: s := List.takeWhile_prefix _
  obtain ⟨t, ht⟩ := hpre
  have hlen : i < (cstr s).length := h
  calc s.getD i nul = (cstr s ++ t).getD i nul := by rw [ht]
    _ = (cstr s).getD i nul := List.getD_append _ _ _ _ hlen

/-- `_lexerReadChar`. -/
def lexerReadChar (l : Lexer) : Lexer where
  input := l.input
  inputLength := l.inputLength
  position := l.readPosition
  readPosition := l.readPosition + 1
  ch := if l.readPosition ≥ l.inputLength then nul else l.input.getD l.readPosition nul
  inputLength_eq := l.inputLength_eq
  ch_eq := by
    split
    · rename_i h
      rw [l.inputLength_eq] at h
      rw [List.getD_eq_default _ _ h]
    · rename_i h
      rw [l.inputLength_eq] at h
      exact getD_cstr _ (by omega)
  readPosition_le := Nat.le_refl _

/-- A current character other than NUL lies within the input. -/
theorem Lexer.position_lt {l : Lexer} (h : l.ch ≠ nul) : l.position < l.inputLength := by
  by_contra hge
  apply h
  rw [l.ch_eq, List.getD_eq_default]
  rw [l.inputLength_eq] at hge
  exact Nat.le_of_not_lt hge

theorem left_lexerReadChar_lt {l : Lexer} (h : l.ch ≠ nul) :
    (lexerReadChar l).left < l.left := by
  have hpos := Lexer.position_lt h
  have hread := l.readPosition_le
  simp only [Lexer.left, lexerReadChar]
  omega

theorem left_lexerReadChar_le (l : Lexer) : (lexerReadChar l).left ≤ l.left := by
  simp only [Lexer.left, lexerReadChar]
  omega

/-- `lexerCreate`: both cursors at 0, then one `_lexerReadChar`. -/
def lexerCreate (input : List Char) : Lexer :=
  lexerReadChar
    { input
      inputLength := strlen input
      position := 0
      readPosition := 0
      ch := (cstr input).getD 0 nul
      inputLength_eq := rfl
      ch_eq := rfl
      readPosition_le := Nat.zero_le _ }

/-! ## The reading loops -/

/-- `while (p(lexer->ch)) _lexerReadChar(lexer);`, for a test that fails at
the NUL past the end. -/
def lexerReadWhile (p : Char → Bool) (hp : p nul = false) (l : Lexer) : Lexer :=
  if _h : p l.ch then lexerReadWhile p hp (lexerReadChar l) else l
termination_by l.left
decreasing_by
  apply left_lexerReadChar_lt
  intro hnul
  rw [hnul, hp] at _h
  exact Bool.false_ne_true _h

def isWhitespace (ch : Char) : Bool :=
  ch == ' ' || ch == '\t' || ch == '\n' || ch == '\r'

/-- The test of the loop of `_lexerReadString`. -/
def isStringChar (ch : Char) : Bool := ch != nul && ch != '"'

/-- `_isNumber`, with the `isdigit` of ASCII on every byte. -/
def isNumber (ch : Char) : Bool :=
  let isDigit := '0' ≤ ch && ch ≤ '9'
  let isNumeric := ch == '.' || ch == 'e' || ch == 'E' || ch == '+' || ch == '-'
  isDigit || isNumeric

/-- `_isLetter`. -/
def isLetter (ch : Char) : Bool :=
  'a' ≤ ch && ch ≤ 'z' || 'A' ≤ ch && ch ≤ 'Z' || ch == '_'

def lexerSkipWhitespace (l : Lexer) : Lexer := lexerReadWhile isWhitespace rfl l

/-- `_lexerReadString`: the offset of the first character in the input, the
length, and the lexer behind the run. -/
def lexerReadString (l : Lexer) : Nat × Nat × Lexer :=
  let position := l.position
  let l := lexerReadWhile isStringChar rfl l
  (position, l.position - position, l)

def lexerReadNumber (l : Lexer) : Nat × Nat × Lexer :=
  let position := l.position
  let l := lexerReadWhile isNumber rfl l
  (position, l.position - position, l)

def lexerReadIdentifier (l : Lexer) : Nat × Nat × Lexer :=
  let position := l.position
  let l := lexerReadWhile isLetter rfl l
  (position, l.position - position, l)

/-! ## One token -/

/-- `_getTokenTypeFromLiteral`; `none` where control reaches the end of the
function without a `return`. -/
def getTokenTypeFromLiteral (literal : List Char) (len : Nat) : Option TokenType :=
  if strncmpEq literal ['t', 'r', 'u', 'e'] len then some .jsonTrue
  else if strncmpEq literal ['f', 'a', 'l', 's', 'e'] len then some .jsonFalse
  else if strncmpEq literal ['n', 'u', 'l', 'l'] len then some .jsonNull
  else none

/-- The `switch` of `lexerNext`. -/
def lexerSwitch (ch : Char) : Option Token :=
  if ch = '{' then some (tokenCreate .leftBrace none)
  else if ch = '}' then some (tokenCreate .rightBrace none)
  else if ch = '[' then some (tokenCreate .leftBracket none)
  else if ch = ']' then some (tokenCreate .rightBracket none)
  else if ch = ',' then some (tokenCreate .comma none)
  else if ch = ':' then some (tokenCreate .colon none)
  else if ch = nul then some (tokenCreate .eof none)
  else none

/-- `lexerNext` behind its leading whitespace. -/
def lexerToken (noReturn : Nat → TokenType) (l : Lexer) : Token × Lexer :=
  let token := lexerSwitch l.ch
  if l.ch = '"' then
    let (strp, len, l) := lexerReadString (lexerReadChar l)
    let str := strnstr (l.input.drop strp) len
    (tokenCreate .string (some str), lexerReadChar l)
  else if isNumber l.ch then
    let (ident, len, l) := lexerReadNumber l
    let number := strnstr (l.input.drop ident) len
    (tokenCreate .number (some number), l)
  else if isLetter l.ch then
    let (identifier, len, l) := lexerReadIdentifier l
    let type := getTokenTypeFromLiteral (l.input.drop identifier) len
    (tokenCreate (type.getD (noReturn identifier)) none, l)
  else
    (token.getD (tokenCreate .illegal none), lexerReadChar l)

def lexerNext (noReturn : Nat → TokenType) (l : Lexer) : Token × Lexer :=
  lexerToken noReturn (lexerSkipWhitespace l)

/-! ## Progress -/

theorem left_lexerReadWhile_le (p : Char → Bool) (hp : p nul = false) (l : Lexer) :
    (lexerReadWhile p hp l).left ≤ l.left := by
  fun_induction lexerReadWhile p hp l with
  | case1 l _ ih => exact Nat.le_trans ih (left_lexerReadChar_le l)
  | case2 l _ => exact Nat.le_refl _

theorem left_lexerReadWhile_lt {p : Char → Bool} (hp : p nul = false) {l : Lexer}
    (h : p l.ch = true) : (lexerReadWhile p hp l).left < l.left := by
  rw [lexerReadWhile, dif_pos h]
  refine Nat.lt_of_le_of_lt (left_lexerReadWhile_le p hp _) (left_lexerReadChar_lt ?_)
  intro hnul
  rw [hnul, hp] at h
  exact Bool.false_ne_true h

/-- Every token other than the end of input takes at least one character. -/
theorem left_lexerToken_lt (noReturn : Nat → TokenType) {l : Lexer}
    (h : (lexerToken noReturn l).1.type ≠ .eof) :
    (lexerToken noReturn l).2.left < l.left := by
  unfold lexerToken at h ⊢
  by_cases hquote : l.ch = '"'
  · have hch : l.ch ≠ nul := by rw [hquote]; decide
    simp only [if_pos hquote, lexerReadString]
    calc (lexerReadChar (lexerReadWhile isStringChar rfl (lexerReadChar l))).left
        ≤ (lexerReadWhile isStringChar rfl (lexerReadChar l)).left := left_lexerReadChar_le _
      _ ≤ (lexerReadChar l).left := left_lexerReadWhile_le _ _ _
      _ < l.left := left_lexerReadChar_lt hch
  · simp only [if_neg hquote] at h ⊢
    by_cases hnum : isNumber l.ch = true
    · simp only [if_pos hnum, lexerReadNumber]
      exact left_lexerReadWhile_lt rfl hnum
    · simp only [if_neg hnum] at h ⊢
      by_cases hlet : isLetter l.ch = true
      · simp only [if_pos hlet, lexerReadIdentifier]
        exact left_lexerReadWhile_lt rfl hlet
      · simp only [if_neg hlet] at h ⊢
        apply left_lexerReadChar_lt
        intro hnul
        rw [hnul] at h
        exact h rfl

theorem left_lexerNext_lt (noReturn : Nat → TokenType) {l : Lexer}
    (h : (lexerNext noReturn l).1.type ≠ .eof) :
    (lexerNext noReturn l).2.left < l.left :=
  Nat.lt_of_lt_of_le (left_lexerToken_lt noReturn h) (left_lexerReadWhile_le _ _ _)

/-! ## The token array -/

structure TokensArray where
  tokens : List Token
  length : Nat
  deriving DecidableEq, Repr

/-- The loop of `parseTokens` at index `i = tokensArray.length`: `room` is
the size in bytes of the block `tokensArray` points to, `size` the byte
counter. The `realloc` is given the counter before it grows. -/
def parseTokensLoop (abi : Abi) (noReturn : Nat → TokenType) (lexer : Lexer)
    (tokensArray : List Token) (room size : Nat) : Except Fault TokensArray :=
  if room < (tokensArray.length + 1) * abi.sizeofPtr then
    .error (.outOfBounds tokensArray.length)
  else if _h : (lexerNext noReturn lexer).1.type = .eof then
    .ok { tokens := tokensArray ++ [(lexerNext noReturn lexer).1]
          length := size / sizeofToken abi }
  else
    parseTokensLoop abi noReturn (lexerNext noReturn lexer).2
      (tokensArray ++ [(lexerNext noReturn lexer).1]) size (size + sizeofToken abi)
termination_by lexer.left
decreasing_by exact left_lexerNext_lt noReturn _h

def parseTokens (abi : Abi) (noReturn : Nat → TokenType) (json : List Char) :
    Except Fault TokensArray :=
  parseTokensLoop abi noReturn (lexerCreate json) [] (sizeofToken abi) (sizeofToken abi)

end CWebServer.Json
