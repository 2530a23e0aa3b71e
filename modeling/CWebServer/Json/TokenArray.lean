/-
CWebServer.Json.TokenArray — the block `parseTokens` grows, over its
iterations.

The byte counter starts at one `Token` and the `realloc` is given its value
from before the increment, so at iteration `i` the block has room for `i`
tokens, or one token at the start. What is stored are pointers, half a
token each, and that makes room for the slot written next.

The loop is put as a system of its own, one state an iteration, so that the
bound is about every iteration and not only about the last; each state it
reaches is one `parseTokensLoop` passes through (`Grown.loop`).

No `sorry`, no `axiom`, no `native_decide`.
-/
import CWebServer.Json.Definedness
import CWebServer.Runs.System

namespace CWebServer.Json

open Libc Runs

/-! ## The loop as a system -/

/-- The state at the head of the loop; `i` is the number of slots written. -/
structure ArrayState where
  lexer : Lexer
  tokensArray : List Token
  room : Nat
  size : Nat

/-- Before the first iteration. -/
def arrayStart (abi : Abi) (json : List Char) : ArrayState where
  lexer := lexerCreate json
  tokensArray := []
  room := sizeofToken abi
  size := sizeofToken abi

/-- One iteration: the token is stored at slot `i`, the block is
reallocated to the counter, the counter grows. -/
def arrayNext (abi : Abi) (noReturn : Nat → TokenType) (s : ArrayState) : ArrayState where
  lexer := (lexerNext noReturn s.lexer).2
  tokensArray := s.tokensArray ++ [(lexerNext noReturn s.lexer).1]
  room := s.size
  size := s.size + sizeofToken abi

/-- The loop goes on while the token read is not a `TOKEN_EOF`; a slot
outside the block is a fault. -/
def tokenArraySystem (abi : Abi) (noReturn : Nat → TokenType) (json : List Char) :
    System ArrayState Unit Fault where
  init := arrayStart abi json
  Enabled s _ := (lexerNext noReturn s.lexer).1.type ≠ .eof
  step s _ :=
    if s.room < (s.tokensArray.length + 1) * abi.sizeofPtr then
      .error (.outOfBounds s.tokensArray.length)
    else .ok (arrayNext abi noReturn s)

/-- The states the loop passes through. -/
abbrev Iteration (abi : Abi) (noReturn : Nat → TokenType) (json : List Char)
    (s : ArrayState) : Prop :=
  Reaches (tokenArraySystem abi noReturn json) (fun _ _ => True) s

/-! ## The invariant -/

/-- What holds at the head of every iteration: the block has room for the
slot about to be written, the counter is one token ahead, and what has been
stored with what is left to lex are the tokens of the text. -/
structure Grown (abi : Abi) (noReturn : Nat → TokenType) (json : List Char)
    (s : ArrayState) : Prop where
  room : (s.tokensArray.length + 1) * abi.sizeofPtr ≤ s.room
  size : s.size = (s.tokensArray.length + 1) * sizeofToken abi
  tokens : lexerTokens noReturn (lexerCreate json) =
    s.tokensArray ++ lexerTokens noReturn s.lexer
  loop : parseTokens abi noReturn json =
    parseTokensLoop abi noReturn s.lexer s.tokensArray s.room s.size

theorem grown_start (abi : Abi) (noReturn : Nat → TokenType) (json : List Char) :
    Grown abi noReturn json (arrayStart abi json) where
  room := by
    simp only [arrayStart, List.length_nil, sizeofToken]
    omega
  size := by simp [arrayStart]
  tokens := rfl
  loop := rfl

theorem Grown.next {abi : Abi} {noReturn : Nat → TokenType} {json : List Char} {s : ArrayState}
    (h : Grown abi noReturn json s) (hne : (lexerNext noReturn s.lexer).1.type ≠ .eof) :
    Grown abi noReturn json (arrayNext abi noReturn s) where
  room := by
    have hle : (s.tokensArray.length + 1 + 1) * abi.sizeofPtr ≤
        (s.tokensArray.length + 1) * 2 * abi.sizeofPtr :=
      Nat.mul_le_mul_right _ (by omega)
    rw [Nat.mul_assoc] at hle
    simpa [arrayNext, h.size, sizeofToken] using hle
  size := by
    simp only [arrayNext, List.length_append, List.length_singleton, h.size]
    rw [Nat.succ_mul (s.tokensArray.length + 1)]
  tokens := by
    rw [h.tokens, lexerTokens_cons hne]
    simp [arrayNext]
  loop := by
    rw [h.loop, parseTokensLoop, if_neg (Nat.not_lt.mpr h.room), dif_neg hne]
    rfl

theorem iteration_grown {abi : Abi} {noReturn : Nat → TokenType} {json : List Char}
    {s : ArrayState} (h : Iteration abi noReturn json s) : Grown abi noReturn json s := by
  refine Reaches.invariant (grown_start abi noReturn json)
    (fun s _ s' hs henabled _ hstep => ?_) h
  simp only [tokenArraySystem] at hstep henabled
  rw [if_neg (Nat.not_lt.mpr hs.room), Except.ok.injEq] at hstep
  rw [← hstep]
  exact hs.next henabled

/-! ## `parsedTokensCleanup` -/

/-- The tokens the `for` loop of `parsedTokensCleanup` hands to
`tokenCleanup`, with `left` iterations to go from index `i`. -/
def cleanupLoop (tokens : TokensArray) : (left i : Nat) → Except Fault (List Token)
  | 0, _ => .ok []
  | left + 1, i => do
    let token ← tokens.at i
    let rest ← cleanupLoop tokens left (i + 1)
    .ok (token :: rest)

/-- `parsedTokensCleanup`, by what it visits. -/
def parsedTokensCleanup (tokens : TokensArray) : Except Fault (List Token) :=
  cleanupLoop tokens tokens.length 0

theorem cleanupLoop_eq {tokens : TokensArray} (left i : Nat)
    (h : left + i = tokens.tokens.length) :
    cleanupLoop tokens left i = .ok (tokens.tokens.drop i) := by
  induction left generalizing i with
  | zero =>
    rw [cleanupLoop, List.drop_of_length_le (by omega)]
  | succ left ih =>
    have hi : i < tokens.tokens.length := by omega
    rw [cleanupLoop, at_ok_iff.mpr (List.getElem?_eq_getElem hi), ih (i + 1) (by omega),
      List.drop_eq_getElem_cons hi]
    rfl

/-! ## The array over the run -/

/-- **The token array**: `parseTokens` returns; at every iteration the slot
it writes is inside the block, and is one of the slots returned; the
returned slots hold the only `TOKEN_EOF` in the last; their number is the
length returned, so the clean-up visits each of them once, in order. -/
theorem parseTokens_array (abi : Abi) (noReturn : Nat → TokenType) (json : List Char) :
    ∃ tokens, parseTokens abi noReturn json = .ok { tokens, length := tokens.length } ∧
      EofTerminated tokens ∧
      (∀ s, Iteration abi noReturn json s →
        (s.tokensArray.length + 1) * abi.sizeofPtr ≤ s.room ∧
        s.tokensArray ++ [(lexerNext noReturn s.lexer).1] <+: tokens) ∧
      parsedTokensCleanup { tokens, length := tokens.length } = .ok tokens := by
  refine ⟨_, parseTokens_eq abi noReturn json, eofTerminated_lexerTokens _ _, ?_, ?_⟩
  · intro s hs
    have hgrown := iteration_grown hs
    refine ⟨hgrown.room, ?_⟩
    rw [hgrown.tokens, List.prefix_append_right_inj]
    by_cases heof : (lexerNext noReturn s.lexer).1.type = .eof
    · simp only [lexerTokens_eof heof, List.prefix_rfl]
    · rw [lexerTokens_cons heof]
      exact List.prefix_append [_] _
  · exact cleanupLoop_eq _ 0 rfl

end CWebServer.Json
