/-
CWebServer.Json.Acceptance — how `parseObject` and `parseArray` end, and
which token arrays `parseObject` accepts.

Both functions end on every token array, inside it (`parse_inBounds`): they
return, or are stopped by a NULL literal that `strdup` or `atof` is handed.

The parser is not a recogniser. It reads keys and values at fixed offsets
from commas and looks at no other token, so acceptance says nothing about
the tokens in between, nor about what follows the closing brace:
`parseObject_accepts_number` accepts `{ 1 }`. What acceptance does depend
on is the bracket scan, and the literals the parse comes across;
`parseObject_accepts_iff` says exactly how.

No `sorry`, no `axiom`, no `native_decide`.
-/
import CWebServer.Json.Calls
import CWebServer.Json.Grammar

namespace CWebServer.Json

open Libc Nesting

/-! ## How a call ends -/

section

variable {tokens : TokensArray} (heof : EofTerminated tokens.tokens) {start : Nat}
  (hs : start < tokens.tokens.length)

include heof hs

theorem parseObject_ok_iff :
    (∃ o, parseObject tokens start = .ok o) ↔ LiteralsPresent tokens (.call (.object start)) := by
  rw [← Source.value_ok_iff heof (show Source.InBounds tokens (.call (.object start)) from hs)]
  constructor
  · intro h
    obtain ⟨o, ho⟩ := h
    exact ⟨.object o, Call.run_object_iff.mpr ⟨o, ho, rfl⟩⟩
  · intro h
    obtain ⟨v, hv⟩ := h
    obtain ⟨o, ho, -⟩ := Call.run_object_iff.mp hv
    exact ⟨o, ho⟩

theorem parseArray_ok_iff :
    (∃ a, parseArray tokens start = .ok a) ↔ LiteralsPresent tokens (.call (.array start)) := by
  rw [← Source.value_ok_iff heof (show Source.InBounds tokens (.call (.array start)) from hs)]
  constructor
  · intro h
    obtain ⟨a, ha⟩ := h
    exact ⟨.array a, Call.run_array_iff.mpr ⟨a, ha, rfl⟩⟩
  · intro h
    obtain ⟨v, hv⟩ := h
    obtain ⟨a, ha, -⟩ := Call.run_array_iff.mp hv
    exact ⟨a, ha⟩

/-- A call returns, or stops at a literal that is missing. -/
theorem parseObject_ends : (∃ o, parseObject tokens start = .ok o) ∨
    (parseObject tokens start = .error .nullPointer ∧
      ¬ LiteralsPresent tokens (.call (.object start))) := by
  rw [← parseObject_ok_iff heof hs]
  have hfaults := parseObject_faultsIn heof hs
  cases hparse : parseObject tokens start with
  | ok o => exact .inl ⟨o, rfl⟩
  | error fault => exact .inr ⟨congrArg Except.error (hfaults fault hparse), by simp⟩

theorem parseArray_ends : (∃ a, parseArray tokens start = .ok a) ∨
    (parseArray tokens start = .error .nullPointer ∧
      ¬ LiteralsPresent tokens (.call (.array start))) := by
  rw [← parseArray_ok_iff heof hs]
  have hfaults := parseArray_faultsIn heof hs
  cases hparse : parseArray tokens start with
  | ok a => exact .inl ⟨a, rfl⟩
  | error fault => exact .inr ⟨congrArg Except.error (hfaults fault hparse), by simp⟩

end

/-- **Bounds and termination**: on every token array whose last token is
its only `TOKEN_EOF`, and from every position of it, both parse functions
end without an access outside an array, with any nesting bound that covers
the tokens from `start` on, and the bound does not change how. They return,
unless a literal is missing where they read one. -/
theorem parse_inBounds (tokens : TokensArray) (heof : EofTerminated tokens.tokens) (start : Nat)
    (hs : start < tokens.tokens.length) (fuel : Nat)
    (hfuel : tokens.tokens.length ≤ start + fuel) :
    (((∃ o, parseObject tokens start = .ok o) ∨
        (parseObject tokens start = .error .nullPointer ∧
          ¬ LiteralsPresent tokens (.call (.object start)))) ∧
      parseObjectFuel tokens fuel start = parseObject tokens start) ∧
    (((∃ a, parseArray tokens start = .ok a) ∨
        (parseArray tokens start = .error .nullPointer ∧
          ¬ LiteralsPresent tokens (.call (.array start)))) ∧
      parseArrayFuel tokens fuel start = parseArray tokens start) :=
  ⟨⟨parseObject_ends heof hs, parseObjectFuel_eq heof hs fuel hfuel⟩,
    parseArray_ends heof hs, parseArrayFuel_eq heof hs fuel hfuel⟩

/-- The tokens of `{ "a" : [ { ] } , }`, from the bracket on. -/
theorem parse_inBounds_misnested :
    let tokens : TokensArray :=
      { tokens := [⟨.leftBrace, none⟩, ⟨.string, some ['a']⟩, ⟨.colon, none⟩,
          ⟨.leftBracket, none⟩, ⟨.leftBrace, none⟩, ⟨.rightBracket, none⟩, ⟨.rightBrace, none⟩,
          ⟨.comma, none⟩, ⟨.rightBrace, none⟩, ⟨.eof, none⟩]
        length := 10 }
    (((∃ o, parseObject tokens 3 = .ok o) ∨
        (parseObject tokens 3 = .error .nullPointer ∧
          ¬ LiteralsPresent tokens (.call (.object 3)))) ∧
      parseObjectFuel tokens 7 3 = parseObject tokens 3) ∧
    (((∃ a, parseArray tokens 3 = .ok a) ∨
        (parseArray tokens 3 = .error .nullPointer ∧
          ¬ LiteralsPresent tokens (.call (.array 3)))) ∧
      parseArrayFuel tokens 7 3 = parseArray tokens 3) :=
  parse_inBounds _ (by decide) 3 (by decide) 7 (by decide)

/-- A key without a literal: `{null:1,"b":2}`. -/
example : parseObject
    { tokens := [⟨.leftBrace, none⟩, ⟨.jsonNull, none⟩, ⟨.colon, none⟩, ⟨.number, some ['1']⟩,
        ⟨.comma, none⟩, ⟨.string, some ['b']⟩, ⟨.colon, none⟩, ⟨.number, some ['2']⟩,
        ⟨.rightBrace, none⟩, ⟨.eof, none⟩]
      length := 10 } 0 = .error .nullPointer :=
  rfl

/-! ## Acceptance -/

/-- The first token is a left brace and some right brace stands where no
brace and no bracket opened behind it is open, each kind counted by itself
and a closer with nothing to close ignored. -/
def BraceCloses (tokens : TokensArray) : Prop :=
  ∃ first pre closer post, tokens.tokens = first :: (pre ++ closer :: post) ∧
    first.type = .leftBrace ∧ closer.type = .rightBrace ∧
    unclosed tokenShape .brace 0 pre = 0 ∧ unclosed tokenShape .bracket 0 pre = 0

/-- **Acceptance**: `parseObject(tokens, 0)` returns NULL exactly when the
first brace does not close, and an object exactly when it does and no
literal is missing where the parse reads one. -/
theorem parseObject_accepts_iff (tokens : TokensArray) (heof : EofTerminated tokens.tokens) :
    (parseObject tokens 0 = .ok none ↔ ¬ BraceCloses tokens) ∧
      ((∃ o, parseObject tokens 0 = .ok (some o)) ↔
        BraceCloses tokens ∧ LiteralsPresent tokens (.call (.object 0))) := by
  have hpos : 0 < tokens.tokens.length := List.length_pos_iff.mpr heof.ne_nil
  have hclosed : BraceCloses tokens ↔ Closed tokens .leftBrace 0 := by
    rw [closed_iff heof (show enclosingTokenOf .leftBrace = some .rightBrace from rfl)]
    rfl
  have hnone := parseObject_none_iff heof hpos
  rw [hclosed, ← parseObject_ok_iff heof hpos]
  refine ⟨hnone, ?_⟩
  constructor
  · intro h
    obtain ⟨o, ho⟩ := h
    refine ⟨?_, some o, ho⟩
    by_contra hopen
    rw [hnone.mpr hopen] at ho
    cases ho
  · intro h
    obtain ⟨hcloses, r, hr⟩ := h
    cases r with
    | none => exact absurd hcloses (hnone.mp hr)
    | some o => exact ⟨o, hr⟩

/-- `{"a":[1,2],"b":null}` and more behind it: the parse comes across the
key, the array and its first number. -/
theorem parseObject_accepts_iff_nested :
    let tokens : TokensArray :=
      { tokens := [⟨.leftBrace, none⟩, ⟨.string, some ['a']⟩, ⟨.colon, none⟩,
          ⟨.leftBracket, none⟩, ⟨.number, some ['1']⟩, ⟨.comma, none⟩, ⟨.number, some ['2']⟩,
          ⟨.rightBracket, none⟩, ⟨.comma, none⟩, ⟨.string, some ['b']⟩, ⟨.colon, none⟩,
          ⟨.jsonNull, none⟩, ⟨.rightBrace, none⟩, ⟨.comma, none⟩, ⟨.eof, none⟩]
        length := 15 }
    parseObject tokens 0 =
        .ok (some [{ key := some ['a'], value := .array (some [.number (some ['1'])]) }]) ∧
      BraceCloses tokens ∧ LiteralsPresent tokens (.call (.object 0)) := by
  intro tokens
  have hparse : parseObject tokens 0 =
      .ok (some [{ key := some ['a'], value := .array (some [.number (some ['1'])]) }]) := rfl
  exact ⟨hparse, (parseObject_accepts_iff tokens (by decide)).2.mp ⟨_, hparse⟩⟩

/-- `{ 1 }` is accepted, and is no JSON object. -/
theorem parseObject_accepts_number :
    let tokens : TokensArray :=
      { tokens := [⟨.leftBrace, none⟩, ⟨.number, some ['1']⟩, ⟨.rightBrace, none⟩, ⟨.eof, none⟩]
        length := 4 }
    EofTerminated tokens.tokens ∧ (∃ o, parseObject tokens 0 = .ok (some o)) ∧
      ¬ ∃ w, IsObject w ∧ tokens.tokens.map Token.type = w ++ [.eof] := by
  refine ⟨by decide, ⟨[], rfl⟩, ?_⟩
  intro h
  obtain ⟨w, hw, heq⟩ := h
  have hword : [TokenType.leftBrace, .number, .rightBrace] = w := by
    simpa using congrArg List.dropLast heq
  cases hw with
  | empty => exact nomatch hword
  | members hm =>
    cases hm <;> simp at hword

end CWebServer.Json
