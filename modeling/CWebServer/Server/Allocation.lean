/-
CWebServer.Server.Allocation — the blocks of the server's connections.

The callbacks of `server.c` again, with every `malloc`, `calloc`, `strdup`,
`realloc` and `free` entered in the ledger, in the C's order: those of
`alloc_buffer`, of the text, of the two requests, of the answer, of
`parseHttp`, of `close_data` and of `on_close_free`. What a pointer points
to is kept beside its block, and so is the state of a handle, whose block
lives on after `uv_close` until its close callback frees it.

What does not allocate is the callback of `CWebServer.Server.Connection`:
the calls into libuv, the test of `read_cb` and the parser of the request.
libuv asks `alloc_buffer` for the buffer right before each `read_cb`, so
the two are one step here. Every allocation succeeds.

No `sorry`, no `axiom`, no `native_decide`.
-/
import CWebServer.Libc.Ledger
import CWebServer.Server.Connection

namespace CWebServer.Server.Heap

open Libc Http Runs

/-! ## State -/

/-- A `char *` into a block of its own. -/
structure CString where
  block : Block
  chars : List Char

/-- A handle with its block, which means nothing while there is no handle
and after its close callback. -/
structure HandleBlock where
  state : Handle
  block : Block

/-- `struct client_request_data`. -/
structure ClientRequestData where
  block : Block
  text : Option CString
  textLen : Nat
  response : Option CString
  workStarted : Bool
  client : Ptr
  workReq : Option Block
  writeReq : Option Block
  timer : Ptr

structure Connection where
  data : Option ClientRequestData
  client : HandleBlock
  timer : HandleBlock
  work : Work
  write : Write
  parsed : Option HttpRequest
  closeDataCalls : Nat
  workItems : Nat
  writes : Nat

/-! ## What is left without the blocks -/

/-- A pointer without its block. -/
def ptr : Option Block → Ptr
  | none => .null
  | some _ => .own

def ClientRequestData.erase (data : ClientRequestData) : Server.ClientRequestData where
  text := data.text.map CString.chars
  textLen := data.textLen
  response := data.response.map CString.chars
  workStarted := data.workStarted
  client := data.client
  workReq := ptr data.workReq
  writeReq := ptr data.writeReq
  timer := data.timer

def Connection.erase (c : Connection) : Server.Connection where
  data := c.data.map ClientRequestData.erase
  client := c.client.state
  timer := c.timer.state
  work := c.work
  write := c.write
  parsed := c.parsed
  closeDataCalls := c.closeDataCalls
  workItems := c.workItems
  writes := c.writes

/-! ## Pointers that may be NULL -/

/-- `if (p) free(p)`. -/
def freePtr : Option Block → Alloc Unit
  | none => pure ()
  | some block => free block

def freeString : Option CString → Alloc Unit
  | none => pure ()
  | some string => free string.block

/-! ## The callbacks -/

namespace Connection

def deref (c : Connection) : Except Fault ClientRequestData :=
  match c.data with
  | some data => .ok data
  | none => .error .useAfterFree

def uvTimerStop (c : Connection) (timer : Ptr) : Alloc Connection :=
  match timer with
  | .null => throw .nullPointer
  | .own => do
    let state ← c.timer.state.stop
    pure { c with timer := { c.timer with state } }

def uvQueueWork (c : Connection) (rc : Int) : Connection :=
  { c with workItems := c.workItems + 1, work := if rc = 0 then .queued else c.work }

def uvWrite (c : Connection) (rc : Int) : Alloc Connection :=
  if c.client.state.Live then
    pure { c with writes := c.writes + 1, write := if rc = 0 then .inFlight else c.write }
  else throw .useAfterFree

/-- `close_data`. -/
def closeData (c : Connection) (data : ClientRequestData) : Alloc Connection := do
  let client ← Server.Connection.closeHandle data.client c.client.state
  if c.work = .queued ∨ c.work = .ran ∨ c.write = .inFlight then throw .useAfterFree
  else do
    freePtr data.workReq
    freePtr data.writeReq
    let timer ← Server.Connection.closeHandle data.timer c.timer.state
    freeString data.text
    freeString data.response
    free data.block
    pure
      { c with
        data := none, client := { c.client with state := client }
        timer := { c.timer with state := timer }, closeDataCalls := c.closeDataCalls + 1 }

/-- `on_write_end`. -/
def onWriteEnd (c : Connection) : Alloc Connection := do
  let data ← c.deref
  { c with write := .finished }.closeData data

/-- `after_process_command`. -/
def afterProcessCommand (c : Connection) (writeRc : Int) : Alloc Connection := do
  let data ← c.deref
  match data.response with
  | none => throw .nullPointer
  | some _ => do
    let writeReq ← malloc
    let c := { c with data := some { data with writeReq := some writeReq }, work := .finished }
    let c ← c.uvTimerStop data.timer
    c.uvWrite writeRc

/-- `parseHttp`, which works on a copy of the text and frees it before it
prints the body. -/
def parseHttp {abi : Abi} (locals : Locals abi) (rawHttp : List Char) : Alloc HttpRequest := do
  let copy ← malloc
  let state ← parseHttpState locals rawHttp
  free copy
  let _ ← readString state.body.chars
  pure state.request

/-- `parseHttp` and `print_headers`. -/
def obtainRequest {abi : Abi} (locals : Locals abi) (text : List Char) : Alloc HttpRequest := do
  let request ← parseHttp locals text
  let _ ← printHeaders request
  pure request

/-- `process_command`. -/
def processCommand {abi : Abi} (c : Connection) (locals : Locals abi) : Alloc Connection := do
  let data ← c.deref
  match data.text with
  | none => throw .nullPointer
  | some text => do
    let request ← obtainRequest locals text.chars
    let block ← malloc
    let response : CString := { block, chars := Server.Connection.responseText }
    pure
      { c with
        data := some { data with response := some response }, parsed := some request, work := .ran }

/-- The copy of the read into the text. -/
def readChunk (data : ClientRequestData) (nread : Int) (base : List Char) :
    Alloc ClientRequestData :=
  match data.text with
  | none => do
    let block ← malloc
    if 0 ≤ nread ∧ nread.toNat ≤ base.length then
      let chunk := base.take nread.toNat
      let text : CString := { block, chars := chunk ++ [nul] }
      pure { data with text := some text, textLen := chunk.length }
    else throw (.outOfBounds base.length)
  | some text => do
    let block ← realloc text.block
    if 0 ≤ nread ∧ nread.toNat ≤ base.length then
      let chunk := base.take nread.toNat
      let text : CString := { block, chars := text.chars.take data.textLen ++ chunk ++ [nul] }
      pure { data with text := some text, textLen := data.textLen + chunk.length }
    else throw (.outOfBounds base.length)

/-- `alloc_buffer` and `read_cb`. -/
def readCb (c : Connection) (nread : Int) (base : List Char) (queueWorkRc : Int) :
    Alloc Connection := do
  let buf ← malloc
  let data ← c.deref
  if nread = -1 ∨ nread = Server.Connection.uvEof then do
    free buf
    let c ← c.uvTimerStop data.timer
    c.closeData data
  else do
    let data ← readChunk data nread base
    free buf
    if Server.Connection.requestReady data.erase then do
      let workReq ← malloc
      let client ← c.client.state.stop
      let data := { data with workReq := some workReq, workStarted := true }
      let c := { c with data := some data, client := { c.client with state := client } }
      pure (c.uvQueueWork queueWorkRc)
    else pure { c with data := some data }

/-- `client_timeout_cb`. -/
def clientTimeoutCb (c : Connection) : Alloc Connection := do
  let data ← c.deref
  let c ← c.uvTimerStop .own
  if data.workStarted then pure c else c.closeData data

/-- `on_close_free` for the client handle. -/
def onCloseFreeClient (c : Connection) : Alloc Connection := do
  free c.client.block
  pure { c with client := { c.client with state := .freed } }

/-- `on_close_free` for the timer. -/
def onCloseFreeTimer (c : Connection) : Alloc Connection := do
  free c.timer.block
  pure { c with timer := { c.timer with state := .freed } }

def step {abi : Abi} (c : Connection) : Callback abi → Alloc Connection
  | .readCb nread base queueWorkRc => c.readCb nread base queueWorkRc
  | .clientTimeoutCb => c.clientTimeoutCb
  | .processCommand locals => c.processCommand locals
  | .afterProcessCommand writeRc => c.afterProcessCommand writeRc
  | .onWriteEnd => c.onWriteEnd
  | .onCloseFreeClient => c.onCloseFreeClient
  | .onCloseFreeTimer => c.onCloseFreeTimer

end Connection

/-! ## The server -/

/-- The new data and client handle; there is no timer yet. -/
def freshConnection (data client : Block) : Connection where
  data := some
    { block := data, text := none, textLen := 0, response := none, workStarted := false
      client := .own, workReq := none, writeReq := none, timer := .null }
  client := { state := .idle, block := client }
  timer := { state := .absent, block := 0 }
  work := .none
  write := .none
  parsed := none
  closeDataCalls := 0
  workItems := 0
  writes := 0

/-- `connection_cb`. -/
def connectionCb (status acceptRc readStartRc : Int) : Alloc (Option Connection) :=
  if status = -1 then pure none
  else do
    let block ← malloc
    let client ← malloc
    let c := freshConnection block client
    let data ← c.deref
    if acceptRc = 0 then do
      let timer ← malloc
      let state : Handle := if readStartRc = 0 then .active else .idle
      pure (some
        { c with
          data := some { data with timer := .own }
          timer := { state := .active, block := timer }
          client := { state, block := client } })
    else do
      let c ← c.closeData data
      pure (some c)

/-- What an event does to the connections. -/
def eventStep {abi : Abi} (connections : List Connection) : Event abi → Alloc (List Connection)
  | .connectionCb status acceptRc readStartRc => do
    let c ← connectionCb status acceptRc readStartRc
    pure (connections ++ c.toList)
  | .callback i callback =>
    match connections[i]? with
    | none => pure connections
    | some c => do
      let c ← c.step callback
      pure (connections.set i c)

/-- The server with its ledger. -/
def heapServer (abi : Abi) : System (List Connection × Ledger) (Event abi) Fault where
  init := ([], .empty)
  Enabled s e := (server abi).Enabled (s.1.map Connection.erase) e
  step s e := eventStep s.1 e s.2

end CWebServer.Server.Heap
