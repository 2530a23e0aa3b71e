/-
CWebServer.Json.Parser — `json/parser.c`: the bracket scan, the separator
scan and the two mutually recursive parse functions.

The C never checks an index and never checks a literal. Here every array
access is checked and fails with `Fault.outOfBounds`, and `strdup` and
`atof` of a NULL literal fail with `Fault.nullPointer`, so that a run that
returns a value has stayed inside its arrays and has followed no NULL.
What the C leaves undefined without losing control is kept in the result:
the value `_parseValue` leaves unassigned in its default branch is
`JsonValue.indeterminate`, which may hold anything, and a NULL child
pointer is `none`.

The scans walk the array upward from a position; they recurse on the part
of the array from that position on, with the position beside it. `fuel`
bounds the nesting of the parse functions, and running out of it is a
fault of its own, so that termination is a theorem and not an assumption.

The two cleanups are walks over a returned tree. They are kept for where
they go, a NULL child or an unassigned value being a fault; the blocks
they free are recorded in `CWebServer.Json.Allocation`.

Left out: the `printf` diagnostics, and the clean-up of the separator
table, which frees it and nothing else.

No `sorry`, no `axiom`, no `native_decide`.
-/
import CWebServer.Json.Lexer

namespace CWebServer.Json

open Libc

/-! ## Values -/

/-- `ObjectProperty`, over the type of its value. -/
structure ObjectPropertyOf (α : Type) where
  key : Option (List Char)
  value : α
  deriving DecidableEq, Repr

/-- `JSON_value`: the type tag with the union member it selects. A number
keeps the literal handed to `atof`. -/
inductive JsonValue where
  | string (string : Option (List Char))
  | number (literal : Option (List Char))
  | boolean (boolean : Nat)
  | null
  | object (object : Option (List (ObjectPropertyOf JsonValue)))
  | array (array : Option (List JsonValue))
  | indeterminate
  deriving Repr

abbrev ObjectProperty := ObjectPropertyOf JsonValue

/-- `JSON_object`: `length` is the length of the list. -/
abbrev JsonObject := List ObjectProperty

/-- `JSON_array`. -/
abbrev JsonArray := List JsonValue

/-- The string that a token's literal points to, read by a function that
does not ask for NULL. -/
def readLiteral : Option (List Char) → Except Fault (Option (List Char))
  | none => .error .nullPointer
  | some literal => .ok (some literal)

/-- `strdup` of a token's literal. -/
def strdup (literal : Option (List Char)) : Except Fault (Option (List Char)) := readLiteral literal

/-- `atof` of a token's literal, which is kept for the number. -/
def atof (literal : Option (List Char)) : Except Fault (Option (List Char)) := readLiteral literal

/-- `_parseValue`. The default branch prints and leaves `value` unassigned. -/
def parseValue (token : Token) : Except Fault JsonValue :=
  match token.type with
  | .string => do
    let string ← strdup token.literal
    .ok (.string string)
  | .number => do
    let number ← atof token.literal
    .ok (.number number)
  | .jsonTrue => .ok (.boolean 1)
  | .jsonFalse => .ok (.boolean 0)
  | .jsonNull => .ok .null
  | _ => .ok .indeterminate

/-! ## The token array -/

/-- `tokens->tokens[i]`. -/
def TokensArray.at (tokens : TokensArray) (i : Nat) : Except Fault Token :=
  match tokens.tokens[i]? with
  | some t => .ok t
  | none => .error (.outOfBounds i)

/-! ## `_findEnclosingTokenPosition` -/

/-- The check behind the loop: `-1` unless the loop stopped at the
enclosing token. -/
def foundAt (enclosingToken : TokenType) (t : Token) (i : Nat) : Option Nat :=
  if t.type ≠ enclosingToken then none else some i

/-- The `while` loop, at the part of the array from `i` on. -/
def findEnclosingLoop (enclosingToken : TokenType) :
    List Token → (i leftBraceCount leftBracketCount : Nat) → Except Fault (Option Nat)
  | [], i, _, _ => .error (.outOfBounds i)
  | t :: rest, i, leftBraceCount, leftBracketCount =>
    if t.type = .eof then .ok (foundAt enclosingToken t i)
    else if t.type = enclosingToken ∧ leftBraceCount = 0 ∧ leftBracketCount = 0 then
      .ok (foundAt enclosingToken t i)
    else if t.type = .leftBrace then
      findEnclosingLoop enclosingToken rest (i + 1) (leftBraceCount + 1) leftBracketCount
    else if t.type = .leftBracket then
      findEnclosingLoop enclosingToken rest (i + 1) leftBraceCount (leftBracketCount + 1)
    else if t.type = .rightBrace ∧ leftBraceCount > 0 then
      findEnclosingLoop enclosingToken rest (i + 1) (leftBraceCount - 1) leftBracketCount
    else if t.type = .rightBracket ∧ leftBracketCount > 0 then
      findEnclosingLoop enclosingToken rest (i + 1) leftBraceCount (leftBracketCount - 1)
    else
      findEnclosingLoop enclosingToken rest (i + 1) leftBraceCount leftBracketCount

/-- The closer of an opening bracket. -/
def enclosingTokenOf : TokenType → Option TokenType
  | .leftBrace => some .rightBrace
  | .leftBracket => some .rightBracket
  | _ => none

/-- `none` is the C's `-1`. -/
def findEnclosingTokenPosition (tokens : TokensArray) (startPosition : Nat) :
    Except Fault (Option Nat) := do
  let token ← tokens.at startPosition
  match enclosingTokenOf token.type with
  | none => .ok none
  | some enclosingToken =>
    findEnclosingLoop enclosingToken (tokens.tokens.drop (startPosition + 1))
      (startPosition + 1) 0 0

/-! ## `_getSeparatorsData` -/

structure SeparatorsData where
  length : Nat
  positions : List Nat
  deriving DecidableEq, Repr

/-- `sData.positions[j]`. -/
def SeparatorsData.at (data : SeparatorsData) (j : Nat) : Except Fault Nat :=
  match data.positions[j]? with
  | some i => .ok i
  | none => .error (.outOfBounds j)

/-- The two counters after the `switch` on one token. -/
def countBrackets (type : TokenType) (leftBraceCount leftBracketCount : Int) : Int × Int :=
  match type with
  | .leftBrace => (leftBraceCount + 1, leftBracketCount)
  | .leftBracket => (leftBraceCount, leftBracketCount + 1)
  | .rightBrace => (leftBraceCount - 1, leftBracketCount)
  | .rightBracket => (leftBraceCount, leftBracketCount - 1)
  | _ => (leftBraceCount, leftBracketCount)

/-- The table after one token: a comma outside every bracket is recorded. -/
def recordComma (type : TokenType) (i : Nat) (counts : Int × Int) (data : SeparatorsData) :
    SeparatorsData :=
  if counts.1 > 0 ∨ counts.2 > 0 then data
  else if type = .comma then
    { length := data.length + 1, positions := data.positions ++ [i] }
  else data

/-- The `for` loop, at the part of the array from `i` on. -/
def getSeparatorsLoop (endPosition : Nat) :
    List Token → (i : Nat) → (leftBraceCount leftBracketCount : Int) → SeparatorsData →
      Except Fault SeparatorsData
  | [], i, _, _, data =>
    if (i : Int) < endPosition - 1 then .error (.outOfBounds i) else .ok data
  | t :: rest, i, leftBraceCount, leftBracketCount, data =>
    if (i : Int) < endPosition - 1 then
      let counts := countBrackets t.type leftBraceCount leftBracketCount
      getSeparatorsLoop endPosition rest (i + 1) counts.1 counts.2
        (recordComma t.type i counts data)
    else .ok data

def getSeparatorsData (tArray : TokensArray) (startPosition endPosition : Nat) :
    Except Fault SeparatorsData :=
  getSeparatorsLoop endPosition (tArray.tokens.drop (startPosition + 1)) (startPosition + 1) 0 0
    { length := 0, positions := [] }

/-! ## `parseObject` and `parseArray` -/

/-- The loop both functions share,
`for (int i = start, j = 0; j < sData.length; i = sData.positions[j++])`,
with `left` iterations to go. -/
def separatorsLoop {α : Type} (sData : SeparatorsData) (body : Nat → Except Fault α) :
    (left i j : Nat) → List α → Except Fault (List α)
  | 0, _, _, entries => .ok entries
  | left + 1, i, j, entries => do
    let entry ← body i
    let next ← sData.at j
    separatorsLoop sData body left next (j + 1) (entries ++ [entry])

section

variable (tokens : TokensArray)
  (parseObject : Nat → Except Fault (Option JsonObject))
  (parseArray : Nat → Except Fault (Option JsonArray))

/-- The loop body of `parseObject`: the comma at `i`, the key behind it,
the value two further. -/
def objectEntry (i : Nat) : Except Fault ObjectProperty := do
  let keyToken ← tokens.at (i + 1)
  let key ← strdup keyToken.literal
  let token ← tokens.at (i + 3)
  if token.type = .leftBrace then
    let object ← parseObject (i + 3)
    .ok { key, value := .object object }
  else if token.type = .leftBracket then
    let array ← parseArray (i + 3)
    .ok { key, value := .array array }
  else
    let value ← parseValue token
    .ok { key, value }

/-- The loop body of `parseArray`. The brace is looked for one token
further than the bracket. -/
def arrayEntry (i : Nat) : Except Fault JsonValue := do
  let token ← tokens.at (i + 1)
  if token.type = .leftBracket then
    let array ← parseArray (i + 1)
    .ok (.array array)
  else
    let second ← tokens.at (i + 2)
    if second.type = .leftBrace then
      let object ← parseObject (i + 1)
      .ok (.object object)
    else
      parseValue token

end

/-- What both functions do around the loop: `none` is the NULL returned
when the opening token is another one or its closer is not found. -/
def parseEntries {α : Type} (tokens : TokensArray) (opening : TokenType)
    (body : Nat → Except Fault α) (start : Nat) : Except Fault (Option (List α)) := do
  let token ← tokens.at start
  if token.type ≠ opening then .ok none
  else
    match ← findEnclosingTokenPosition tokens start with
    | none => .ok none
    | some endPosition =>
      let sData ← getSeparatorsData tokens start endPosition
      let entries ← separatorsLoop sData body sData.length start 0 []
      .ok (some entries)

mutual

def parseObjectFuel (tokens : TokensArray) : Nat → Nat → Except Fault (Option JsonObject)
  | 0, _ => .error .outOfFuel
  | fuel + 1, start =>
    parseEntries tokens .leftBrace
      (objectEntry tokens (parseObjectFuel tokens fuel) (parseArrayFuel tokens fuel)) start

def parseArrayFuel (tokens : TokensArray) : Nat → Nat → Except Fault (Option JsonArray)
  | 0, _ => .error .outOfFuel
  | fuel + 1, start =>
    parseEntries tokens .leftBracket
      (arrayEntry tokens (parseObjectFuel tokens fuel) (parseArrayFuel tokens fuel)) start

end

/-- `parseObject`, with the number of tokens as nesting bound. -/
def parseObject (tokens : TokensArray) (start : Nat) : Except Fault (Option JsonObject) :=
  parseObjectFuel tokens tokens.tokens.length start

/-- `parseArray`, with the number of tokens as nesting bound. -/
def parseArray (tokens : TokensArray) (start : Nat) : Except Fault (Option JsonArray) :=
  parseArrayFuel tokens tokens.tokens.length start

/-! ## `jsonObjectCleanup` and `jsonArrayCleanup` -/

mutual

/-- The switch on one `JSON_value`. An unassigned value has no type to
switch on; a string is freed, on which the walk cannot fail. -/
def valueCleanup : JsonValue → Except Fault Unit
  | .array array => jsonArrayCleanup array
  | .object object => jsonObjectCleanup object
  | .indeterminate => .error .indeterminate
  | .string _ | .number _ | .boolean _ | .null => .ok ()

def jsonObjectCleanup : Option (List (ObjectPropertyOf JsonValue)) → Except Fault Unit
  | none => .error .nullPointer
  | some properties => propertiesCleanup properties

/-- The `for` loop over the properties. -/
def propertiesCleanup : List (ObjectPropertyOf JsonValue) → Except Fault Unit
  | [] => .ok ()
  | property :: rest => do
    propertyCleanup property
    propertiesCleanup rest

def propertyCleanup : ObjectPropertyOf JsonValue → Except Fault Unit
  | ⟨_, value⟩ => valueCleanup value

def jsonArrayCleanup : Option (List JsonValue) → Except Fault Unit
  | none => .error .nullPointer
  | some elements => elementsCleanup elements

/-- The `for` loop over the elements. -/
def elementsCleanup : List JsonValue → Except Fault Unit
  | [] => .ok ()
  | value :: rest => do
    valueCleanup value
    elementsCleanup rest

end

/-- What `main` does with a text: `parseTokens`, then `parseObject(&tokens, 0)`. -/
def parseText (abi : Abi) (noReturn : Nat → TokenType) (json : List Char) :
    Except Fault (Option JsonObject) := do
  let tokens ← parseTokens abi noReturn json
  parseObject tokens 0

end CWebServer.Json
