/-
CWebServer.Http.Request — `add_header`, `print_headers` and `parseHttp` of
`server.c`.

The buffers have the sizes the source declares, which for the three local
ones is a number of POINTERS: `char *header[128]` is an array of 128
pointers that the code uses as characters, so its size in bytes depends on
the ABI. Every copy into a buffer is checked against its size and fails
with `Fault.outOfBounds` where the C write would leave it.

None of the locals is initialised. What they hold at first is a parameter
(`Locals`), for the per-line buffers one value for each line; a theorem
that holds for every `Locals` depends on no garbage.

A `%s` of `printf` reads its block up to a NUL, and leaves it when there is
none (`readString`). The last thing `parseHttp` does before it returns is
to print `body` in that way, whether or not a line was copied to it.

Left out: the failure of `strdup`, which ends the process.

No `sorry`, no `axiom`, no `native_decide`.
-/
import CWebServer.Libc.Scan

namespace CWebServer.Http

open Libc

/-! ## The request -/

abbrev maxHeaderNameLength : Nat := 128
abbrev maxHeaderValueLength : Nat := 256

structure HttpHeader where
  name : CharArray maxHeaderNameLength
  value : CharArray maxHeaderValueLength
  deriving DecidableEq, Repr

structure HttpHeaders where
  keyValues : Vector HttpHeader 50
  count : Nat
  deriving DecidableEq, Repr

structure HttpRequest where
  method : CharArray 16
  path : CharArray 256
  version : CharArray 16
  headers : HttpHeaders
  deriving DecidableEq, Repr

/-- `add_header`: the slot `count` is filled and counted, whether or not
the array has it. -/
def addHeader (request : HttpRequest) (name value : List Char) : Except Fault HttpRequest :=
  if h : request.headers.count < 50 then
    let header : HttpHeader :=
      { name := strncpy maxHeaderNameLength name
        value := strncpy maxHeaderValueLength value }
    .ok { request with
          headers :=
            { keyValues := request.headers.keyValues.set request.headers.count header h
              count := request.headers.count + 1 } }
  else .error (.outOfBounds request.headers.count)

/-! ## `print_headers` -/

/-- What `%s` prints of a block: its string, if it ends inside. -/
def readString (block : List Char) : Except Fault (List Char) :=
  if nul ∈ block then .ok (cstr block) else .error (.outOfBounds block.length)

/-- `name: value`. -/
def fieldLine (name value : List Char) : List Char := name ++ ':' :: ' ' :: value

/-- `printf("%s: %s\n", header->name, header->value)`. -/
def printHeader (header : HttpHeader) : Except Fault (List Char) := do
  let name ← readString header.name.chars
  let value ← readString header.value.chars
  .ok (fieldLine name value ++ ['\n'])

/-- The loop of `print_headers`, with `left` iterations to go from slot
`i`. -/
def printHeadersLoop (headers : HttpHeaders) : (left i : Nat) → Except Fault (List Char)
  | 0, _ => .ok []
  | left + 1, i =>
    match headers.keyValues.toList[i]? with
    | none => .error (.outOfBounds i)
    | some header => do
      let line ← printHeader header
      let lines ← printHeadersLoop headers left (i + 1)
      .ok (line ++ lines)

/-- `print_headers`, with what it writes. -/
def printHeaders (request : HttpRequest) : Except Fault (List Char) :=
  printHeadersLoop request.headers request.headers.count 0

/-! ## `parseHttp` -/

/-- What the uninitialised locals of one call hold: `request`, `body`, and
`header` and `value` as they come into being for each line. -/
structure Locals (abi : Abi) where
  request : HttpRequest
  body : CharArray (1024 * abi.sizeofPtr)
  header : Nat → CharArray (maxHeaderNameLength * abi.sizeofPtr)
  value : Nat → CharArray (maxHeaderValueLength * abi.sizeofPtr)

/-- Locals that hold one character throughout. -/
def Locals.fill (abi : Abi) (c : Char) : Locals abi where
  request :=
    { method := .fill 16 c
      path := .fill 256 c
      version := .fill 16 c
      headers :=
        { keyValues := Vector.replicate 50 { name := .fill _ c, value := .fill _ c }
          count := 0 } }
  body := .fill _ c
  header _ := .fill _ c
  value _ := .fill _ c

/-- The variables of the loop. -/
structure ParseState (abi : Abi) where
  request : HttpRequest
  body : CharArray (1024 * abi.sizeofPtr)
  bodyEncountered : Bool
  lineCount : Nat

/-- A conversion of `sscanf` stored in its argument, if it was reached. -/
def storeConversion {n : Nat} (a : CharArray n) : Option (List Char) → Except Fault (CharArray n)
  | none => .ok a
  | some s => a.store s

/-- `sscanf(line, "%s %s %s", request.method, request.path, request.version)`. -/
def scanRequestLine (request : HttpRequest) (line : List Char) : Except Fault HttpRequest := do
  let words := sscanf [.word, .blank, .word, .blank, .word] line
  let method ← storeConversion request.method words[0]?
  let path ← storeConversion request.path words[1]?
  let version ← storeConversion request.version words[2]?
  .ok { request with method, path, version }

/-- `sscanf(line, "%[^:]:%s", header, value)`, then `add_header`. -/
def scanHeaderLine {n m : Nat} (header : CharArray n) (value : CharArray m)
    (request : HttpRequest) (line : List Char) : Except Fault HttpRequest := do
  let words := sscanf [.upTo ':', .literal ':', .word] line
  let header ← storeConversion header words[0]?
  let value ← storeConversion value words[1]?
  addHeader request header.chars value.chars

/-- The body of the `while` loop, up to the next `strtok`. -/
def parseLine {abi : Abi} (locals : Locals abi) (state : ParseState abi) (line : List Char) :
    Except Fault (ParseState abi) :=
  if strlen line = 1 ∧ isspace (line.headD nul) then
    .ok { state with bodyEncountered := true, lineCount := state.lineCount + 1 }
  else if state.bodyEncountered = false then do
    let request ← scanHeaderLine (locals.header state.lineCount) (locals.value state.lineCount)
      state.request line
    .ok { state with request, lineCount := state.lineCount + 1 }
  else do
    let body ← state.body.store line
    .ok { state with body, lineCount := state.lineCount + 1 }

/-- The `while` loop, with the string that `strtok` has saved. -/
def parseLines {abi : Abi} (locals : Locals abi) (saved : List Char) (state : ParseState abi) :
    Except Fault (ParseState abi) :=
  match _h : strtok '\n' saved with
  | none => .ok state
  | some (line, rest) => do
    let state ← parseLine locals state line
    parseLines locals rest state
termination_by saved.length
decreasing_by exact length_strtok_lt _h

/-- `parseHttp` up to the end of its loop: the request and the body it has
read. A text without a line hands NULL to `sscanf`. -/
def parseHttpState {abi : Abi} (locals : Locals abi) (rawHttp : List Char) :
    Except Fault (ParseState abi) :=
  let copy := cstr rawHttp
  let request : HttpRequest :=
    { locals.request with headers := { locals.request.headers with count := 0 } }
  match strtok '\n' copy with
  | none => .error .nullPointer
  | some (line, rest) => do
    let request ← scanRequestLine request line
    parseLines locals rest
      { request, body := locals.body, bodyEncountered := false, lineCount := 0 }

/-- `parseHttp`: the loop, `printf("Request body: %s\n", body)`, and the
return. -/
def parseHttp {abi : Abi} (locals : Locals abi) (rawHttp : List Char) :
    Except Fault HttpRequest := do
  let state ← parseHttpState locals rawHttp
  let _ ← readString state.body.chars
  .ok state.request

/-! ## What a caller reads -/

/-- The header list: the counted slots, as C strings. -/
def HttpHeaders.list (headers : HttpHeaders) : List (List Char × List Char) :=
  (headers.keyValues.toList.take headers.count).map fun h => (h.name.str, h.value.str)

/-- Method, path, version and header list, as C strings. -/
structure RequestView where
  method : List Char
  path : List Char
  version : List Char
  headers : List (List Char × List Char)
  deriving DecidableEq, Repr

def HttpRequest.view (request : HttpRequest) : RequestView :=
  { method := request.method.str
    path := request.path.str
    version := request.version.str
    headers := request.headers.list }

end CWebServer.Http
