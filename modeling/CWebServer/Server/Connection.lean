/-
CWebServer.Server.Connection — the callbacks of `server.c` and the libuv
they run on.

A `Connection` is what one accepted client owns: its
`client_request_data`, the two handles, and what libuv holds of its work
item and its write. No variable of the source is shared between two of
them, so the server is a list of connections. The functions of the source
act on one connection and fail with a `Fault` where the C would use a freed
block, a closed handle or a NULL pointer, or read or write behind an array;
a fault of `parseHttp` or `print_headers` is one of `process_command`.
libuv is the rest: which callback it may run next is `Permits`, and what its
calls return is part of the event, since the source ignores it everywhere
but at `uv_accept`.

One thing is shared that is no variable of the source: the position that
`strtok` keeps between its calls. `process_command` runs on the threads of
the pool, several at a time, and is one step here. That assumes of the C
library a position for each thread, or of the pool that no two work items
overlap. `CWebServer.Server.Workers` takes the calls of `strtok` one by one
and shows that under either they come to the step taken here.

`closeDataCalls`, `workItems` and `writes` count calls of `close_data`,
`uv_queue_work` and `uv_write`, and `parsed` keeps the request that
`process_command` obtains; the source has no such variables.

Left out: `start`, which nothing reads, the status arguments nothing
looks at, the diagnostics, and allocations that fail. The buffer of
`alloc_buffer` is the one `read_cb` is given.

No `sorry`, no `axiom`, no `native_decide`.
-/
import CWebServer.Http.Request
import CWebServer.Runs.Path

namespace CWebServer.Server

open Libc Http Runs

/-! ## libuv handles -/

/-- A `uv_tcp_t` or `uv_timer_t`: not there, initialised, started, given to
`uv_close`, or freed by its close callback. -/
inductive Handle where
  | absent
  | idle
  | active
  | closing
  | freed
  deriving DecidableEq, Repr

/-- The handle may be passed to libuv. -/
def Handle.Live (h : Handle) : Prop := h = .idle ∨ h = .active

instance (h : Handle) : Decidable h.Live := inferInstanceAs (Decidable (_ ∨ _))

/-- `uv_read_stop` and `uv_timer_stop`. -/
def Handle.stop (h : Handle) : Except Fault Handle :=
  if h.Live then .ok .idle else .error .useAfterFree

/-- `uv_close`. -/
def Handle.close (h : Handle) : Except Fault Handle :=
  if h.Live then .ok .closing else .error .useAfterFree

/-- A request handed to the thread pool: before `process_command`, between
it and `after_process_command`, and after. -/
inductive Work where
  | none
  | queued
  | ran
  | finished
  deriving DecidableEq, Repr

inductive Write where
  | none
  | inFlight
  | finished
  deriving DecidableEq, Repr

/-! ## State -/

/-- A pointer field: NULL or the connection's own object. -/
inductive Ptr where
  | null
  | own
  deriving DecidableEq, Repr

/-- `struct client_request_data`. `text` is the whole block, its NUL
included. -/
structure ClientRequestData where
  text : Option (List Char)
  textLen : Nat
  response : Option (List Char)
  workStarted : Bool
  client : Ptr
  workReq : Ptr
  writeReq : Ptr
  timer : Ptr
  deriving DecidableEq, Repr

/-- `data` is gone once `close_data` has freed it. -/
structure Connection where
  data : Option ClientRequestData
  client : Handle
  timer : Handle
  work : Work
  write : Write
  parsed : Option HttpRequest
  closeDataCalls : Nat
  workItems : Nat
  writes : Nat
  deriving DecidableEq

namespace Connection

/-- `handle->data` or `req->data`, followed. -/
def deref (c : Connection) : Except Fault ClientRequestData :=
  match c.data with
  | some data => .ok data
  | none => .error .useAfterFree

/-- `uv_timer_stop(data->timer)`. -/
def uvTimerStop (c : Connection) (timer : Ptr) : Except Fault Connection :=
  match timer with
  | .null => .error .nullPointer
  | .own => do
    let timer ← c.timer.stop
    .ok { c with timer }

/-- `uv_queue_work`, which returns `rc`. -/
def uvQueueWork (c : Connection) (rc : Int) : Connection :=
  { c with workItems := c.workItems + 1, work := if rc = 0 then .queued else c.work }

/-- `uv_write`, which returns `rc`. -/
def uvWrite (c : Connection) (rc : Int) : Except Fault Connection :=
  if c.client.Live then
    .ok { c with writes := c.writes + 1, write := if rc = 0 then .inFlight else c.write }
  else .error .useAfterFree

/-! ## The callbacks -/

/-- `uv_close` of a handle the data may not have. -/
def closeHandle (pointer : Ptr) (h : Handle) : Except Fault Handle :=
  match pointer with
  | .null => .ok h
  | .own => h.close

/-- `close_data`. Freeing the work or write request while libuv holds it
would be a use after free of libuv's own. -/
def closeData (c : Connection) (data : ClientRequestData) : Except Fault Connection := do
  let client ← closeHandle data.client c.client
  if c.work = .queued ∨ c.work = .ran ∨ c.write = .inFlight then .error .useAfterFree
  else do
    let timer ← closeHandle data.timer c.timer
    .ok { c with data := none, client, timer, closeDataCalls := c.closeDataCalls + 1 }

/-- `on_write_end`. -/
def onWriteEnd (c : Connection) : Except Fault Connection := do
  let data ← c.deref
  { c with write := .finished }.closeData data

/-- `after_process_command`, where `uv_write` returns `writeRc`. -/
def afterProcessCommand (c : Connection) (writeRc : Int) : Except Fault Connection := do
  let data ← c.deref
  match data.response with
  | none => .error .nullPointer
  | some _ => do
    let c := { c with data := some { data with writeReq := .own }, work := .finished }
    let c ← c.uvTimerStop data.timer
    c.uvWrite writeRc

/-- The fixed answer. -/
def responseText : List Char :=
  ("HTTP/1.1 200 OK\r\nContent-Type: application/json\r\n\r\n" ++
    "\x7b \"method\": \"GET\" \x7d\r\n").toList

/-- The request that `process_command` obtains from `parseHttp`, once
`print_headers` has printed it. -/
def obtainRequest {abi : Abi} (locals : Locals abi) (text : List Char) :
    Except Fault HttpRequest := do
  let request ← parseHttp locals text
  let _ ← printHeaders request
  .ok request

/-- `process_command`, with what the locals of `parseHttp` hold. -/
def processCommand {abi : Abi} (c : Connection) (locals : Locals abi) :
    Except Fault Connection := do
  let data ← c.deref
  match data.text with
  | none => .error .nullPointer
  | some text => do
    let request ← obtainRequest locals text
    .ok { c with
          data := some { data with response := some responseText }
          parsed := some request
          work := .ran }

/-- The value of `UV_EOF`. -/
def uvEof : Int := -4095

/-- `data->text` grown by the chunk and terminated. -/
def appendChunk (data : ClientRequestData) (chunk : List Char) : ClientRequestData :=
  match data.text with
  | none => { data with text := some (chunk ++ [nul]), textLen := chunk.length }
  | some text =>
    { data with
      text := some (text.take data.textLen ++ chunk ++ [nul])
      textLen := data.textLen + chunk.length }

/-- The copy of `nread` bytes from the buffer. A negative count is converted
to a size that no block has. -/
def readChunk (data : ClientRequestData) (nread : Int) (base : List Char) :
    Except Fault ClientRequestData :=
  if 0 ≤ nread ∧ nread.toNat ≤ base.length then .ok (appendChunk data (base.take nread.toNat))
  else .error (.outOfBounds base.length)

/-- The test that starts the work. -/
def requestReady (data : ClientRequestData) : Bool :=
  !data.workStarted && data.textLen != 0 &&
    (strstr (data.text.getD []) ['\r', '\n'] || strstr (data.text.getD []) ['\n', '\n'])

/-- `read_cb`, where `uv_queue_work` returns `queueWorkRc` if it is called. -/
def readCb (c : Connection) (nread : Int) (base : List Char) (queueWorkRc : Int) :
    Except Fault Connection := do
  let data ← c.deref
  if nread = -1 ∨ nread = uvEof then do
    let c ← c.uvTimerStop data.timer
    c.closeData data
  else do
    let data ← readChunk data nread base
    if requestReady data then do
      let client ← c.client.stop
      let data := { data with workReq := .own, workStarted := true }
      .ok ({ c with data := some data, client }.uvQueueWork queueWorkRc)
    else .ok { c with data := some data }

/-- `client_timeout_cb`. -/
def clientTimeoutCb (c : Connection) : Except Fault Connection := do
  let data ← c.deref
  let c ← c.uvTimerStop .own
  if data.workStarted then .ok c else c.closeData data

/-- `on_close_free` for the client handle. -/
def onCloseFreeClient (c : Connection) : Connection := { c with client := .freed }

/-- `on_close_free` for the timer. -/
def onCloseFreeTimer (c : Connection) : Connection := { c with timer := .freed }

/-! ## Steps of one connection -/

end Connection

/-- What libuv may call, with what its own calls will return. -/
inductive Callback (abi : Abi) where
  | readCb (nread : Int) (base : List Char) (queueWorkRc : Int)
  | clientTimeoutCb
  | processCommand (locals : Locals abi)
  | afterProcessCommand (writeRc : Int)
  | onWriteEnd
  | onCloseFreeClient
  | onCloseFreeTimer

namespace Connection

variable {abi : Abi}

/-- Which callbacks libuv may run: reads, of no more than the buffer holds,
while the stream is started, the timeout while the timer is, the two halves
of queued work in order, the write callback while the write is in flight,
and a close callback once for each closed handle. -/
def Permits (c : Connection) : Callback abi → Prop
  | .readCb nread base _ => c.client = .active ∧ nread ≤ base.length
  | .clientTimeoutCb => c.timer = .active
  | .processCommand _ => c.work = .queued
  | .afterProcessCommand _ => c.work = .ran
  | .onWriteEnd => c.write = .inFlight
  | .onCloseFreeClient => c.client = .closing
  | .onCloseFreeTimer => c.timer = .closing

def step (c : Connection) : Callback abi → Except Fault Connection
  | .readCb nread base queueWorkRc => c.readCb nread base queueWorkRc
  | .clientTimeoutCb => c.clientTimeoutCb
  | .processCommand locals => c.processCommand locals
  | .afterProcessCommand writeRc => c.afterProcessCommand writeRc
  | .onWriteEnd => c.onWriteEnd
  | .onCloseFreeClient => .ok c.onCloseFreeClient
  | .onCloseFreeTimer => .ok c.onCloseFreeTimer

end Connection

/-! ## The server -/

/-- The new data and handles before `uv_accept`. -/
def freshConnection : Connection where
  data := some
    { text := none, textLen := 0, response := none, workStarted := false
      client := .own, workReq := .null, writeReq := .null, timer := .null }
  client := .idle
  timer := .absent
  work := .none
  write := .none
  parsed := none
  closeDataCalls := 0
  workItems := 0
  writes := 0

/-- `connection_cb`, where `uv_accept` and `uv_read_start` return the two
codes. The timer is started and repeats; nothing comes of status `-1`. -/
def connectionCb (status acceptRc readStartRc : Int) : Except Fault (Option Connection) :=
  if status = -1 then .ok none
  else do
    let c := freshConnection
    let data ← c.deref
    if acceptRc = 0 then
      .ok (some { c with
                  data := some { data with timer := .own }
                  timer := .active
                  client := if readStartRc = 0 then .active else .idle })
    else do
      let c ← c.closeData data
      .ok (some c)

inductive Event (abi : Abi) where
  | connectionCb (status acceptRc readStartRc : Int)
  | callback (i : Nat) (callback : Callback abi)

/-- The server: connections come in by `connection_cb`, and libuv runs any
permitted callback of any of them. -/
def server (abi : Abi) : System (List Connection) (Event abi) Fault where
  init := []
  Enabled connections
    | .connectionCb _ _ _ => True
    | .callback i callback => ∃ c, connections[i]? = some c ∧ c.Permits callback
  step connections
    | .connectionCb status acceptRc readStartRc => do
      let c ← connectionCb status acceptRc readStartRc
      .ok (connections ++ c.toList)
    | .callback i callback =>
      match connections[i]? with
      | none => .ok connections
      | some c => do
        let c ← c.step callback
        .ok (connections.set i c)

end CWebServer.Server
