/-
CWebServer.Json.Allocation — the blocks of one JSON parse.

The lexer and the parser again, with every `malloc`, `strdup`, `realloc`
and `free` of `lexer.c` and `parser.c` entered in the ledger, in the C's
order. What a pointer points to is kept beside its block: a `Token *` is
the block of the struct with the type and the literal, a `JSON_object *`
the block of the struct, the block of its table and the entries. The two
walks of the cleanups free what they free in the C and nothing more.

What a block holds is not read through the ledger. The parse functions
read tokens and free none, so they are given the tokens without their
blocks; the lexer state is the one of `CWebServer.Json.Lexer`. Every
allocation succeeds, one of no bytes included, and the loop of
`parseTokens` has a step bound, which is never reached.

Left out: `lexerCleanup`, which nothing calls.

No `sorry`, no `axiom`, no `native_decide`.
-/
import CWebServer.Json.Parser
import CWebServer.Libc.Ledger

namespace CWebServer.Json.Heap

open Libc

/-! ## Strings and tokens -/

/-- A `char *` into a block of its own. -/
structure CString where
  block : Block
  chars : List Char

/-- `strdup`, which follows its argument before it allocates. -/
def strdup : Option (List Char) → Alloc (Option CString)
  | none => throw .nullPointer
  | some chars => do
    let block ← malloc
    pure (some { block, chars })

/-- `free` of a string: nothing is done for NULL. -/
def freeString : Option CString → Alloc Unit
  | none => pure ()
  | some string => free string.block

/-- `Token *`. -/
structure Token where
  block : Block
  type : TokenType
  literal : Option CString

def tokenCreate (type : TokenType) (literal : Option CString) : Alloc Token := do
  let block ← malloc
  pure { block, type, literal }

def tokenCleanup (token : Token) : Alloc Unit := do
  freeString token.literal
  free token.block

/-! ## The lexer -/

/-- `lexerCreate`: the block of the `Lexer` and its state. -/
def lexerCreate (input : List Char) : Alloc (Block × Lexer) := do
  let block ← malloc
  pure (block, Json.lexerCreate input)

/-- The `switch` of `lexerNext`. -/
def lexerSwitch (ch : Char) : Alloc (Option Token) :=
  match Json.lexerSwitch ch with
  | none => pure none
  | some token => do
    let token ← tokenCreate token.type none
    pure (some token)

/-- `lexerNext` behind its leading whitespace. A token of the `switch` would
be lost in the first three branches. -/
def lexerToken (noReturn : Nat → TokenType) (l : Lexer) : Alloc (Token × Lexer) := do
  let token ← lexerSwitch l.ch
  if l.ch = '"' then
    let (strp, len, l) := lexerReadString (lexerReadChar l)
    let str := strnstr (l.input.drop strp) len
    let literal ← strdup (some str)
    let token ← tokenCreate .string literal
    pure (token, lexerReadChar l)
  else if isNumber l.ch then
    let (ident, len, l) := lexerReadNumber l
    let number := strnstr (l.input.drop ident) len
    let literal ← strdup (some number)
    let token ← tokenCreate .number literal
    pure (token, l)
  else if isLetter l.ch then
    let (identifier, len, l) := lexerReadIdentifier l
    let type := getTokenTypeFromLiteral (l.input.drop identifier) len
    let token ← tokenCreate (type.getD (noReturn identifier)) none
    pure (token, l)
  else
    match token with
    | some token => pure (token, lexerReadChar l)
    | none => do
      let token ← tokenCreate .illegal none
      pure (token, lexerReadChar l)

def lexerNext (noReturn : Nat → TokenType) (l : Lexer) : Alloc (Token × Lexer) :=
  lexerToken noReturn (lexerSkipWhitespace l)

/-! ## The token array -/

/-- `TokensArray`; `block` is the array of pointers. -/
structure TokensArray where
  block : Block
  tokens : List Token
  length : Nat

/-- The loop of `parseTokens`. -/
def parseTokensLoop (abi : Abi) (noReturn : Nat → TokenType) :
    (fuel : Nat) → Lexer → Block → (tokensArray : List Token) → (room size : Nat) →
      Alloc TokensArray
  | 0, _, _, _, _, _ => throw .outOfFuel
  | fuel + 1, lexer, block, tokensArray, room, size =>
    if room < (tokensArray.length + 1) * abi.sizeofPtr then
      throw (.outOfBounds tokensArray.length)
    else do
      let next ← lexerNext noReturn lexer
      if next.1.type = .eof then
        pure { block, tokens := tokensArray ++ [next.1], length := size / sizeofToken abi }
      else
        let block ← realloc block
        parseTokensLoop abi noReturn fuel next.2 block (tokensArray ++ [next.1]) size
          (size + sizeofToken abi)

/-- `parseTokens`. The pointer to the lexer is a local, dropped on return. -/
def parseTokens (abi : Abi) (noReturn : Nat → TokenType) (json : List Char) :
    Alloc TokensArray := do
  let tokensArray ← malloc
  let lexer ← lexerCreate json
  parseTokensLoop abi noReturn (lexer.2.left + 1) lexer.2 tokensArray [] (sizeofToken abi)
    (sizeofToken abi)

/-- The loop of `parsedTokensCleanup`, with `left` iterations to go from
index `i`. -/
def cleanupLoop (tokens : TokensArray) : (left i : Nat) → Alloc Unit
  | 0, _ => pure ()
  | left + 1, i =>
    match tokens.tokens[i]? with
    | none => throw (.outOfBounds i)
    | some token => do
      tokenCleanup token
      cleanupLoop tokens left (i + 1)

def parsedTokensCleanup (tokens : TokensArray) : Alloc Unit :=
  cleanupLoop tokens tokens.length 0

/-- The token as the parser reads it. -/
def Token.erase (token : Token) : Json.Token where
  type := token.type
  literal := token.literal.map CString.chars

def TokensArray.erase (tokens : TokensArray) : Json.TokensArray where
  tokens := tokens.tokens.map Token.erase
  length := tokens.length

/-! ## Values -/

/-- A struct with a table behind it: `JSON_object`, over its property
pointers, and `JSON_array`, over its elements. -/
structure TableOf (α : Type) where
  block : Block
  table : Block
  entries : List α

/-- `ObjectProperty *`, over the type of its value. -/
structure ObjectPropertyOf (α : Type) where
  block : Block
  key : Option CString
  value : α

/-- `JSON_value`, with the blocks its pointers lead to. -/
inductive JsonValue where
  | string (string : Option CString)
  | number (literal : Option (List Char))
  | boolean (boolean : Nat)
  | null
  | object (object : Option (TableOf (ObjectPropertyOf JsonValue)))
  | array (array : Option (TableOf JsonValue))
  | indeterminate

abbrev ObjectProperty := ObjectPropertyOf JsonValue

abbrev JsonObject := TableOf ObjectProperty

abbrev JsonArray := TableOf JsonValue

/-- `_parseValue`. -/
def parseValue (token : Json.Token) : Alloc JsonValue :=
  match token.type with
  | .string => do
    let string ← strdup token.literal
    pure (.string string)
  | .number => do
    let number ← atof token.literal
    pure (.number number)
  | .jsonTrue => pure (.boolean 1)
  | .jsonFalse => pure (.boolean 0)
  | .jsonNull => pure .null
  | _ => pure .indeterminate

/-! ## `_getSeparatorsData` -/

/-- The table with the block of its positions. -/
structure SeparatorsTable where
  block : Block
  data : SeparatorsData

/-- The table after one token: a recorded comma reallocates the positions. -/
def recordComma (type : TokenType) (i : Nat) (counts : Int × Int) (table : SeparatorsTable) :
    Alloc SeparatorsTable :=
  if counts.1 > 0 ∨ counts.2 > 0 then pure table
  else if type = .comma then do
    let block ← realloc table.block
    pure
      { block
        data :=
          { length := table.data.length + 1, positions := table.data.positions ++ [i] } }
  else pure table

/-- The `for` loop, at the part of the array from `i` on. -/
def getSeparatorsLoop (endPosition : Nat) :
    List Json.Token → (i : Nat) → (leftBraceCount leftBracketCount : Int) → SeparatorsTable →
      Alloc SeparatorsTable
  | [], i, _, _, table =>
    if (i : Int) < endPosition - 1 then throw (.outOfBounds i) else pure table
  | t :: rest, i, leftBraceCount, leftBracketCount, table =>
    if (i : Int) < endPosition - 1 then do
      let counts := countBrackets t.type leftBraceCount leftBracketCount
      let table ← recordComma t.type i counts table
      getSeparatorsLoop endPosition rest (i + 1) counts.1 counts.2 table
    else pure table

def getSeparatorsData (tArray : Json.TokensArray) (startPosition endPosition : Nat) :
    Alloc SeparatorsTable := do
  let block ← malloc
  getSeparatorsLoop endPosition (tArray.tokens.drop (startPosition + 1)) (startPosition + 1) 0 0
    { block, data := { length := 0, positions := [] } }

/-- `_separatorsDataCleanup`. -/
def separatorsDataCleanup (table : SeparatorsTable) : Alloc Unit := free table.block

/-! ## `parseObject` and `parseArray` -/

/-- The loop both functions share, with `left` iterations to go. -/
def separatorsLoop {α : Type} (sData : SeparatorsData) (body : Nat → Alloc α) :
    (left i j : Nat) → List α → Alloc (List α)
  | 0, _, _, entries => pure entries
  | left + 1, i, j, entries => do
    let entry ← body i
    let next ← sData.at j
    separatorsLoop sData body left next (j + 1) (entries ++ [entry])

section

variable (tokens : Json.TokensArray)
  (parseObject : Nat → Alloc (Option JsonObject))
  (parseArray : Nat → Alloc (Option JsonArray))

/-- The loop body of `parseObject`. -/
def objectEntry (i : Nat) : Alloc ObjectProperty := do
  let block ← malloc
  let keyToken ← tokens.at (i + 1)
  let key ← strdup keyToken.literal
  let token ← tokens.at (i + 3)
  if token.type = .leftBrace then
    let object ← parseObject (i + 3)
    pure { block, key, value := .object object }
  else if token.type = .leftBracket then
    let array ← parseArray (i + 3)
    pure { block, key, value := .array array }
  else
    let value ← parseValue token
    pure { block, key, value }

/-- The loop body of `parseArray`. -/
def arrayEntry (i : Nat) : Alloc JsonValue := do
  let token ← tokens.at (i + 1)
  if token.type = .leftBracket then
    let array ← parseArray (i + 1)
    pure (.array array)
  else
    let second ← tokens.at (i + 2)
    if second.type = .leftBrace then
      let object ← parseObject (i + 1)
      pure (.object object)
    else
      parseValue token

end

/-- What both functions do around the loop: the positions, the struct and
its table are allocated in this order, and the positions freed behind it. -/
def parseEntries {α : Type} (tokens : Json.TokensArray) (opening : TokenType)
    (body : Nat → Alloc α) (start : Nat) : Alloc (Option (TableOf α)) := do
  let token ← tokens.at start
  if token.type ≠ opening then pure none
  else
    let found ← findEnclosingTokenPosition tokens start
    match found with
    | none => pure none
    | some endPosition => do
      let sData ← getSeparatorsData tokens start endPosition
      let block ← malloc
      let table ← malloc
      let entries ← separatorsLoop sData.data body sData.data.length start 0 []
      separatorsDataCleanup sData
      pure (some { block, table, entries })

mutual

def parseObjectFuel (tokens : Json.TokensArray) : Nat → Nat → Alloc (Option JsonObject)
  | 0, _ => throw .outOfFuel
  | fuel + 1, start =>
    parseEntries tokens .leftBrace
      (objectEntry tokens (parseObjectFuel tokens fuel) (parseArrayFuel tokens fuel)) start

def parseArrayFuel (tokens : Json.TokensArray) : Nat → Nat → Alloc (Option JsonArray)
  | 0, _ => throw .outOfFuel
  | fuel + 1, start =>
    parseEntries tokens .leftBracket
      (arrayEntry tokens (parseObjectFuel tokens fuel) (parseArrayFuel tokens fuel)) start

end

def parseObject (tokens : Json.TokensArray) (start : Nat) : Alloc (Option JsonObject) :=
  parseObjectFuel tokens tokens.tokens.length start

/-! ## `jsonObjectCleanup` and `jsonArrayCleanup` -/

mutual

/-- The switch on one `JSON_value`. -/
def valueCleanup : JsonValue → Alloc Unit
  | .string string => freeString string
  | .array array => jsonArrayCleanup array
  | .object object => jsonObjectCleanup object
  | .indeterminate => throw .indeterminate
  | .number _ | .boolean _ | .null => pure ()

def jsonObjectCleanup : Option (TableOf (ObjectPropertyOf JsonValue)) → Alloc Unit
  | none => throw .nullPointer
  | some ⟨block, table, properties⟩ => do
    propertiesCleanup properties
    free table
    free block

/-- The `for` loop over the properties: the value and the key of each. -/
def propertiesCleanup : List (ObjectPropertyOf JsonValue) → Alloc Unit
  | [] => pure ()
  | ⟨_, key, value⟩ :: rest => do
    valueCleanup value
    freeString key
    propertiesCleanup rest

def jsonArrayCleanup : Option (TableOf JsonValue) → Alloc Unit
  | none => throw .nullPointer
  | some ⟨block, table, elements⟩ => do
    elementsCleanup elements
    free table
    free block

/-- The `for` loop over the elements. -/
def elementsCleanup : List JsonValue → Alloc Unit
  | [] => pure ()
  | value :: rest => do
    valueCleanup value
    elementsCleanup rest

end

/-- What `main` does, on any text. -/
def parseRun (abi : Abi) (noReturn : Nat → TokenType) (json : List Char) : Alloc Unit := do
  let tokens ← parseTokens abi noReturn json
  let object ← parseObject tokens.erase 0
  parsedTokensCleanup tokens
  jsonObjectCleanup object

end CWebServer.Json.Heap
