/-
CWebServer.Server.Refinement — what the server is for: each client is one
exchange.

The abstract model is `Runs.Exchange` with `connectionService`: bytes are
received until the text before their first NUL holds a line end, and what
the worker makes of them is what `process_command` obtains, if `parseHttp`
and `print_headers` come back from them. `Implements` says which exchange a
connection is at; the fields of `Connection`, its handles and its phases
are all determined by that, up to what nothing reads. Each callback that
succeeds is one action of the exchange, and each action that the exchange
can take is a callback that libuv may run and that succeeds
(`connection_refines`). The pools follow (`server_refines`).

No `sorry`, no `axiom`, no `native_decide`.
-/
import CWebServer.Runs.Exchange
import CWebServer.Server.Accumulation
import CWebServer.Server.Interleaving
import CWebServer.Server.ReadErrors

namespace CWebServer.Server

open Libc Http Runs

variable {abi : Abi}

/-! ## The exchange of a connection -/

/-- When the bytes received start the work, and what the work makes of
them. -/
def connectionService (abi : Abi) : Service Char (Locals abi) HttpRequest where
  Ready := fun received => HoldsLineEnd (cstr received)
  parse := fun locals received =>
    (Connection.obtainRequest locals (received ++ [nul])).toOption

theorem parse_eq_some_iff {locals : Locals abi} {received : List Char} {request : HttpRequest} :
    (connectionService abi).parse locals received = some request ↔
      Connection.obtainRequest locals (received ++ [nul]) = .ok request := by
  change (Connection.obtainRequest locals (received ++ [nul])).toOption = some request ↔ _
  cases Connection.obtainRequest locals (received ++ [nul]) with
  | error fault => exact iff_of_false nofun nofun
  | ok r =>
    change some r = some request ↔ _
    rw [Option.some.injEq, Except.ok.injEq]

abbrev ClientExchange := Exchange Char HttpRequest

/-- The exchange that `connection_cb` starts. A refused client has no
timer. -/
def newExchange (x : Arrival) : Option ClientExchange :=
  if x.status = -1 then none
  else if x.acceptRc = 0 then some (.receiving (decide (x.readStartRc = 0)) [])
  else some (.closing true false none)

/-- What a callback is to the exchange. -/
def Callback.action : Callback abi → Action Char (Locals abi)
  | .readCb nread base queueWorkRc =>
    if nread < 0 then .hangUp else .receive (base.take nread.toNat) (decide (queueWorkRc = 0))
  | .clientTimeoutCb => .expire
  | .processCommand locals => .process locals
  | .afterProcessCommand writeRc => .respond (decide (writeRc = 0))
  | .onWriteEnd => .finish
  | .onCloseFreeClient => .releaseClient
  | .onCloseFreeTimer => .releaseTimer

/-- What libuv may hand to a read that it makes: no more than the buffer
holds, and no error but the two that the source knows. -/
def Callback.Offered : Callback abi → Prop
  | .readCb nread base _ =>
    nread ≤ base.length ∧ (0 ≤ nread ∨ nread = -1 ∨ nread = Connection.uvEof)
  | _ => True

/-- The text is what was received, terminated; there is none before the
first read. -/
def Connection.Received (c : Connection) (received : List Char) : Prop :=
  ∃ data, c.data = some data ∧ data.textLen = received.length ∧
    data.text.getD [nul] = received ++ [nul]

/-- The answer is there. -/
def Connection.HasResponse (c : Connection) : Prop :=
  ∃ data, c.data = some data ∧ data.response = some Connection.responseText

/-- A handle that libuv has started, or not. -/
def startedHandle (started : Bool) : Handle := if started then .active else .idle

/-- A handle that was given back, or never made. -/
def Handle.Released (h : Handle) : Prop := h = .freed ∨ h = .absent

theorem Handle.Released.not_live {h : Handle} (hr : h.Released) : ¬ h.Live := by
  rcases hr with rfl | rfl <;> decide

/-- A handle given to `uv_close`, and then released. -/
def ClosesTo (held : Bool) (h : Handle) : Prop :=
  match held with
  | true => h = .closing
  | false => h.Released

/-- The connection is where the exchange is. -/
def Implements (c : Connection) : ClientExchange → Prop
  | .receiving reading received =>
    Waiting c ∧ c.client = startedHandle reading ∧ c.parsed = none ∧ c.Received received
  | .submitted timed received =>
    Working c ∧ c.work = .queued ∧ c.timer = startedHandle timed ∧ c.parsed = none ∧
      c.Received received
  | .processed timed request =>
    Working c ∧ c.work = .ran ∧ c.timer = startedHandle timed ∧ c.parsed = some request ∧
      c.HasResponse
  | .answering request => Writing c ∧ c.parsed = some request ∧ c.HasResponse
  | .abandoned timed request => Stranded c ∧ c.timer = startedHandle timed ∧ c.parsed = request
  | .closing client timer request =>
    Closed c ∧ ClosesTo client c.client ∧ ClosesTo timer c.timer ∧ c.parsed = request

theorem startedHandle_eq_active {started : Bool} : startedHandle started = .active ↔
    started = true := by
  cases started <;> simp [startedHandle]

theorem closesTo_closing {held : Bool} {h : Handle} (hheld : ClosesTo held h)
    (hclosing : h = .closing) : held = true := by
  cases held with
  | true => rfl
  | false =>
    rcases hheld with hfreed | habsent
    · exact nomatch hclosing.symm.trans hfreed
    · exact nomatch hclosing.symm.trans habsent

/-- A new connection is a new exchange. -/
theorem newcomer_implements (x : Arrival) :
    Option.Rel Implements (newcomer x) (newExchange x) := by
  unfold newcomer newExchange
  by_cases hstatus : x.status = -1
  · rw [if_pos hstatus, if_pos hstatus]
    exact .none
  · rw [if_neg hstatus, if_neg hstatus]
    by_cases haccept : x.acceptRc = 0
    · rw [if_pos haccept, if_pos haccept]
      refine .some ⟨waiting_accepted x.readStartRc, ?_, rfl, _, rfl, rfl, rfl⟩
      by_cases hread : x.readStartRc = 0 <;> simp [acceptedConnection, startedHandle, hread]
    · rw [if_neg haccept, if_neg haccept]
      exact .some ⟨closed_refused, rfl, .inr rfl, rfl⟩

/-! ## The callbacks of each stage -/

/-- Closed by `close_data`. -/
def Connection.closed (c : Connection) : Connection :=
  { c with data := none, client := .closing, timer := .closing
           closeDataCalls := c.closeDataCalls + 1 }

theorem Connection.closed_implements {c : Connection} (h : Closed c.closed) :
    Implements c.closed (.closing true true c.parsed) :=
  ⟨h, rfl, rfl, rfl⟩

/-- A waiting connection ends. -/
theorem Waiting.closes {c : Connection} (h : Waiting c) {data : ClientRequestData}
    (hholds : c.Holds data) :
    (c.uvTimerStop data.timer >>= fun c => c.closeData data) = .ok c.closed ∧
      Closed c.closed := by
  have heq : (c.uvTimerStop data.timer >>= fun c => c.closeData data) = .ok c.closed := by
    rw [hholds.timer, Connection.uvTimerStop_eq (.inr h.timer)]
    exact Connection.closeData_eq hholds.client hholds.timer h.client (.inl rfl)
      (by simp [h.work]) (by simp [h.work]) (by simp [h.write])
  obtain ⟨c', heq', hclosed⟩ := h.stop_close hholds
  rw [hholds.timer] at heq
  obtain rfl := Except.ok.inj (heq.symm.trans heq')
  exact ⟨by rwa [hholds.timer], hclosed⟩

theorem Waiting.hangUp {c : Connection} (h : Waiting c) {nread : Int}
    (hend : nread = -1 ∨ nread = Connection.uvEof) (base : List Char) (rc : Int) :
    c.readCb nread base rc = .ok c.closed ∧ Closed c.closed := by
  obtain ⟨data, hholds, -⟩ := h.data
  obtain ⟨heq, hclosed⟩ := h.closes hholds
  refine ⟨?_, hclosed⟩
  rw [← heq]
  simp only [Connection.readCb, hholds.deref, if_pos hend, bind, Except.bind]

theorem Waiting.timeOut {c : Connection} (h : Waiting c) :
    c.clientTimeoutCb = .ok c.closed ∧ Closed c.closed := by
  obtain ⟨data, hholds, hstarted⟩ := h.data
  obtain ⟨heq, hclosed⟩ := h.closes hholds
  refine ⟨?_, hclosed⟩
  rw [← heq, hholds.timer]
  simp only [Connection.clientTimeoutCb, hholds.deref, hstarted, bind, Except.bind,
    Bool.false_eq_true, if_false]

/-- Bytes that come in: on with reading, or the work is submitted. -/
theorem Waiting.receive {c : Connection} {received : List Char} (h : Waiting c)
    (hparsed : c.parsed = none) (hreceived : c.Received received) (hactive : c.client = .active)
    {base : List Char} {nread : Nat} (hle : nread ≤ base.length) (rc : Int) :
    ∃ c' x', c.readCb nread base rc = .ok c' ∧
      Exchange.Next (connectionService abi) (.receiving true received)
        (.receive (base.take nread) (decide (rc = 0))) x' ∧ Implements c' x' := by
  obtain ⟨data, hholds, hstarted⟩ := h.data
  obtain ⟨data₁, hdata₁, hlen, htext⟩ := hreceived
  obtain rfl := Option.some.inj (hholds.eq.symm.trans hdata₁)
  obtain ⟨htext', hlen', hstarted'⟩ := appendChunk_text hlen htext (base.take nread)
  have hready := requestReady_iff (hstarted'.trans hstarted) hlen' htext'
  have hread : Connection.readChunk data nread base =
      .ok (Connection.appendChunk data (base.take nread)) :=
    if_pos ⟨Int.natCast_nonneg _, hle⟩
  have hne : ¬ ((nread : Int) = -1 ∨ (nread : Int) = Connection.uvEof) := by
    unfold Connection.uvEof
    omega
  obtain ⟨c', hrun, hcases⟩ := h.read hholds hstarted rc hne hread
  have heq := readCb_eq hdata₁ h.client rc hne hread
  rcases hcases with ⟨hnot, hwaiting⟩ | ⟨hyes, hsubmitted⟩
  · rw [if_neg (by simp [hnot])] at heq
    obtain rfl := Except.ok.inj (heq.symm.trans hrun)
    have hquiet : ¬ HoldsLineEnd (cstr (received ++ base.take nread)) := fun hholds =>
      nomatch hnot.symm.trans (hready.mpr hholds)
    refine ⟨_, _, hrun, .gather hquiet, hwaiting, hactive, hparsed, _, rfl, hlen', ?_⟩
    rw [htext', Option.getD_some]
  · rw [if_pos hyes] at heq
    obtain rfl := Except.ok.inj (heq.symm.trans hrun)
    rcases hsubmitted with ⟨rfl, hworking⟩ | ⟨hrc, hstranded⟩
    · refine ⟨_, _, hrun, .submit (hready.mp hyes), hworking, rfl, h.timer, hparsed, _, rfl,
        hlen', ?_⟩
      change (Connection.appendChunk data (base.take nread)).text.getD [nul] = _
      rw [htext', Option.getD_some]
    · rw [decide_eq_false hrc]
      exact ⟨_, _, hrun, .refuse (hready.mp hyes), hstranded, h.timer, hparsed⟩

/-- The timeout of work that was started. -/
theorem Working.expire {c : Connection} (h : Working c)
    (hp : c.Permits (.clientTimeoutCb : Callback abi)) :
    c.step (.clientTimeoutCb : Callback abi) = .ok { c with timer := .idle } ∧
      Working { c with timer := .idle } := by
  obtain ⟨data, hholds, hstarted, -⟩ := h.data
  have heq : c.step (.clientTimeoutCb : Callback abi) = .ok { c with timer := .idle } :=
    timeout_started hholds hstarted h.timer
  obtain ⟨c', heq', ⟨-, hworking | hwriting⟩ | ⟨hfails, -⟩⟩ := h.step hp trivial
  · obtain rfl := Except.ok.inj (heq.symm.trans heq')
    exact ⟨heq, hworking⟩
  · obtain rfl := Except.ok.inj (heq.symm.trans heq')
    have hfinished : c.work = .finished := hwriting.work
    rcases h.work with hwork | hwork <;> exact nomatch hwork.symm.trans hfinished
  · exact absurd trivial hfails

theorem Stranded.expire {c : Connection} (h : Stranded c)
    (hp : c.Permits (.clientTimeoutCb : Callback abi)) :
    c.step (.clientTimeoutCb : Callback abi) = .ok { c with timer := .idle } ∧
      Stranded { c with timer := .idle } := by
  obtain ⟨data, hholds, hstarted⟩ := h.data
  have heq : c.step (.clientTimeoutCb : Callback abi) = .ok { c with timer := .idle } :=
    timeout_started hholds hstarted h.timer
  obtain ⟨c', heq', hstranded⟩ := h.step hp
  obtain rfl := Except.ok.inj (heq.symm.trans heq')
  exact ⟨heq, hstranded⟩

/-- The text that the work is given. -/
theorem Working.text {c : Connection} {received : List Char} (h : Working c)
    (hreceived : c.Received received) :
    ∃ data, c.data = some data ∧ data.text = some (received ++ [nul]) := by
  obtain ⟨data, hholds, -, hsome, -⟩ := h.data
  obtain ⟨data₁, hdata₁, -, htext⟩ := hreceived
  obtain rfl := Option.some.inj (hholds.eq.symm.trans hdata₁)
  obtain ⟨text, htext'⟩ := Option.ne_none_iff_exists'.mp hsome
  rw [htext', Option.getD_some] at htext
  exact ⟨data, hholds.eq, htext ▸ htext'⟩

/-- The work obtains its request from what was received. -/
theorem Working.requestObtained_iff {c : Connection} {received : List Char} (h : Working c)
    (hreceived : c.Received received) {locals : Locals abi} :
    c.RequestObtained (.processCommand locals) ↔
      ∃ request, (connectionService abi).parse locals received = some request := by
  obtain ⟨data, hdata, htext⟩ := h.text hreceived
  simp only [parse_eq_some_iff]
  constructor
  · intro hobtained
    exact hobtained data _ hdata htext
  · intro hparse data' text' hdata' htext'
    obtain rfl := Option.some.inj (hdata.symm.trans hdata')
    obtain rfl := Option.some.inj (htext.symm.trans htext')
    exact hparse

theorem Working.parse {c : Connection} {received : List Char} (h : Working c)
    (hreceived : c.Received received) {locals : Locals abi} {request : HttpRequest}
    (hparse : (connectionService abi).parse locals received = some request) :
    ∃ c', c.processCommand locals = .ok c' ∧ Working c' ∧ c'.work = .ran ∧ c'.timer = c.timer ∧
      c'.parsed = some request ∧ c'.HasResponse := by
  obtain ⟨data, hdata, htext⟩ := h.text hreceived
  have heq := processCommand_eq hdata htext (parse_eq_some_iff.mp hparse)
  obtain ⟨c', heq', hworking⟩ := h.process ((h.requestObtained_iff hreceived).mpr ⟨_, hparse⟩)
  obtain rfl := Except.ok.inj (heq.symm.trans heq')
  exact ⟨_, heq, hworking, rfl, rfl, rfl, _, rfl, rfl⟩

/-- The answer is sent, unless libuv does not take it. -/
theorem Working.respond {c : Connection} (h : Working c) (hran : c.work = .ran)
    (hresponse : c.HasResponse) (rc : Int) :
    ∃ c', c.afterProcessCommand rc = .ok c' ∧ c'.parsed = c.parsed ∧ c'.timer = .idle ∧
      c'.HasResponse ∧ (rc = 0 ∧ Writing c' ∨ rc ≠ 0 ∧ Stranded c') := by
  obtain ⟨data, hholds, -⟩ := h.data
  obtain ⟨data₁, hdata₁, hanswer⟩ := hresponse
  obtain rfl := Option.some.inj (hholds.eq.symm.trans hdata₁)
  have heq := afterProcessCommand_eq hholds (by simp [hanswer]) h.timer (.inl h.client) rc
  obtain ⟨c', heq', hphase⟩ := h.answer hran rc
  obtain rfl := Except.ok.inj (heq.symm.trans heq')
  exact ⟨_, heq, rfl, rfl, ⟨_, rfl, hanswer⟩, hphase⟩

/-- The end of the write closes the connection. -/
theorem Writing.finish {c : Connection} (h : Writing c)
    (hp : c.Permits (.onWriteEnd : Callback abi)) :
    ∃ c', c.step (.onWriteEnd : Callback abi) = .ok c' ∧
      Implements c' (.closing true true c.parsed) := by
  obtain ⟨data, hholds, -⟩ := h.data
  have hended : ({ c with write := .finished } : Connection).Holds data :=
    ⟨hholds.eq, hholds.client, hholds.timer⟩
  have heq : c.step (.onWriteEnd : Callback abi) =
      .ok ({ c with write := .finished } : Connection).closed := by
    simp only [Connection.step, Connection.onWriteEnd, hholds.deref, bind, Except.bind]
    exact Connection.closeData_eq hended.client hended.timer (.inl h.client) (.inl h.timer)
      (by simp [h.work]) (by simp [h.work]) (by simp)
  obtain ⟨c', heq', hclosed⟩ := h.step hp
  obtain rfl := Except.ok.inj (heq.symm.trans heq')
  exact ⟨_, heq, Connection.closed_implements hclosed⟩

/-! ## The refinement -/

/-- The callback succeeds, and is an action of the exchange. -/
def StepsWith (c : Connection) (x : ClientExchange) (cb : Callback abi) : Prop :=
  ∃ c' x', c.step cb = .ok c' ∧
    Exchange.Next (connectionService abi) x cb.action x' ∧ Implements c' x'

section

variable {c : Connection} {cb : Callback abi}

/-- Bytes, the end of the file or the timeout. -/
theorem stepsWith_receiving {reading : Bool} {received : List Char}
    (h : Implements c (.receiving reading received)) (hp : c.Permits cb) (hk : cb.KnownRead) :
    StepsWith c (.receiving reading received) cb := by
  obtain ⟨hwaiting, hclient, hparsed, hreceived⟩ := h
  cases cb with
  | readCb nread base rc =>
    obtain rfl : reading = true := by
      cases reading with
      | true => rfl
      | false => exact nomatch hclient.symm.trans hp.1
    by_cases hend : nread = -1 ∨ nread = Connection.uvEof
    · have hneg : nread < 0 := by
        unfold Connection.uvEof at hend
        omega
      obtain ⟨heq, hclosed⟩ := hwaiting.hangUp hend base rc
      rw [StepsWith, Callback.action, if_pos hneg]
      exact ⟨_, _, heq, .hangUp received, hparsed ▸ Connection.closed_implements hclosed⟩
    · have h0 : 0 ≤ nread := hk.resolve_right hend
      obtain ⟨n, rfl⟩ := Int.eq_ofNat_of_zero_le h0
      rw [StepsWith, Callback.action, if_neg (by omega), Int.toNat_natCast]
      exact hwaiting.receive hparsed hreceived hp.1 (Int.ofNat_le.mp hp.2) rc
  | clientTimeoutCb =>
    obtain ⟨heq, hclosed⟩ := hwaiting.timeOut
    exact ⟨_, _, heq, .timeOut reading received,
      hparsed ▸ Connection.closed_implements hclosed⟩
  | processCommand locals => exact nomatch hwaiting.work.symm.trans hp
  | afterProcessCommand rc => exact nomatch hwaiting.work.symm.trans hp
  | onWriteEnd => exact nomatch hwaiting.write.symm.trans hp
  | onCloseFreeClient => exact absurd hwaiting.client (hp ▸ Handle.not_live_closing)
  | onCloseFreeTimer => exact nomatch hwaiting.timer.symm.trans hp

/-- The work runs, with the timeout before it or not. -/
theorem stepsWith_submitted {timed : Bool} {received : List Char}
    (h : Implements c (.submitted timed received)) (hp : c.Permits cb)
    (hobtained : c.RequestObtained cb) :
    StepsWith c (.submitted timed received) cb := by
  obtain ⟨hworking, hwork, htimer, hparsed, hreceived⟩ := h
  cases cb with
  | clientTimeoutCb =>
    obtain rfl := startedHandle_eq_active.mp (htimer.symm.trans hp)
    obtain ⟨heq, hworking'⟩ := hworking.expire hp
    exact ⟨_, _, heq, .expireSubmitted received, hworking', hwork, rfl, hparsed, hreceived⟩
  | processCommand locals =>
    obtain ⟨request, hparse⟩ := (hworking.requestObtained_iff hreceived).mp hobtained
    obtain ⟨c', heq, hworking', hran, htimer', hrequest, hresponse⟩ :=
      hworking.parse hreceived hparse
    exact ⟨c', _, heq, .process timed hparse, hworking', hran, htimer'.trans htimer,
      hrequest, hresponse⟩
  | readCb nread base rc => exact nomatch hworking.client.symm.trans hp.1
  | afterProcessCommand rc => exact nomatch hwork.symm.trans hp
  | onWriteEnd => exact nomatch hworking.write.symm.trans hp
  | onCloseFreeClient => exact nomatch hworking.client.symm.trans hp
  | onCloseFreeTimer => exact absurd hworking.timer (hp ▸ Handle.not_live_closing)

/-- The answer is sent, with the timeout before it or not. -/
theorem stepsWith_processed {timed : Bool} {request : HttpRequest}
    (h : Implements c (.processed timed request)) (hp : c.Permits cb) :
    StepsWith c (.processed timed request) cb := by
  obtain ⟨hworking, hwork, htimer, hparsed, hresponse⟩ := h
  cases cb with
  | clientTimeoutCb =>
    obtain rfl := startedHandle_eq_active.mp (htimer.symm.trans hp)
    obtain ⟨heq, hworking'⟩ := hworking.expire hp
    exact ⟨_, _, heq, .expireProcessed request, hworking', hwork, rfl, hparsed, hresponse⟩
  | afterProcessCommand rc =>
    obtain ⟨c', heq, hrequest, htimer', hresponse', hphase⟩ := hworking.respond hwork hresponse rc
    rw [StepsWith, Callback.action]
    rcases hphase with ⟨hrc, hwriting⟩ | ⟨hrc, hstranded⟩
    · rw [decide_eq_true hrc]
      exact ⟨c', _, heq, .respond timed request, hwriting, hrequest.trans hparsed, hresponse'⟩
    · rw [decide_eq_false hrc]
      exact ⟨c', _, heq, .drop timed request, hstranded, htimer', hrequest.trans hparsed⟩
  | readCb nread base rc => exact nomatch hworking.client.symm.trans hp.1
  | processCommand locals => exact nomatch hwork.symm.trans hp
  | onWriteEnd => exact nomatch hworking.write.symm.trans hp
  | onCloseFreeClient => exact nomatch hworking.client.symm.trans hp
  | onCloseFreeTimer => exact absurd hworking.timer (hp ▸ Handle.not_live_closing)

/-- Nothing but the end of the write. -/
theorem stepsWith_answering {request : HttpRequest}
    (h : Implements c (.answering request)) (hp : c.Permits cb) :
    StepsWith c (.answering request) cb := by
  obtain ⟨hwriting, hparsed, -⟩ := h
  cases cb with
  | onWriteEnd =>
    obtain ⟨c', heq, himplements⟩ := hwriting.finish hp
    exact ⟨c', _, heq, .finish request, hparsed ▸ himplements⟩
  | readCb nread base rc => exact nomatch hwriting.client.symm.trans hp.1
  | clientTimeoutCb => exact nomatch hwriting.timer.symm.trans hp
  | processCommand locals => exact nomatch hwriting.work.symm.trans hp
  | afterProcessCommand rc => exact nomatch hwriting.work.symm.trans hp
  | onCloseFreeClient => exact nomatch hwriting.client.symm.trans hp
  | onCloseFreeTimer => exact nomatch hwriting.timer.symm.trans hp

/-- Nothing but the timeout. -/
theorem stepsWith_abandoned {timed : Bool} {request : Option HttpRequest}
    (h : Implements c (.abandoned timed request)) (hp : c.Permits cb) :
    StepsWith c (.abandoned timed request) cb := by
  obtain ⟨hstranded, htimer, hparsed⟩ := h
  cases cb with
  | clientTimeoutCb =>
    obtain rfl := startedHandle_eq_active.mp (htimer.symm.trans hp)
    obtain ⟨heq, hstranded'⟩ := hstranded.expire hp
    exact ⟨_, _, heq, .expireAbandoned request, hstranded', rfl, hparsed⟩
  | readCb nread base rc => exact nomatch hstranded.client.symm.trans hp.1
  | processCommand locals =>
    rcases hstranded.work with hwork | hwork <;> exact nomatch hwork.symm.trans hp
  | afterProcessCommand rc =>
    rcases hstranded.work with hwork | hwork <;> exact nomatch hwork.symm.trans hp
  | onWriteEnd => exact nomatch hstranded.write.symm.trans hp
  | onCloseFreeClient => exact nomatch hstranded.client.symm.trans hp
  | onCloseFreeTimer => exact absurd hstranded.timer (hp ▸ Handle.not_live_closing)

/-- The two handles, in either order. -/
theorem stepsWith_closing {client timer : Bool} {request : Option HttpRequest}
    (h : Implements c (.closing client timer request)) (hp : c.Permits cb) :
    StepsWith c (.closing client timer request) cb := by
  obtain ⟨hclosed, hclient, htimer, hparsed⟩ := h
  obtain ⟨hcloses, c', heq, hclosed'⟩ := hclosed.step hp
  cases cb with
  | onCloseFreeClient =>
    obtain rfl := closesTo_closing hclient hp
    obtain rfl := Except.ok.inj heq
    exact ⟨_, _, rfl, .releaseClient timer request, hclosed', .inl rfl, htimer, hparsed⟩
  | onCloseFreeTimer =>
    obtain rfl := closesTo_closing htimer hp
    obtain rfl := Except.ok.inj heq
    exact ⟨_, _, rfl, .releaseTimer client request, hclosed', hclient, .inl rfl, hparsed⟩
  | readCb nread base rc => exact hcloses.elim
  | clientTimeoutCb => exact hcloses.elim
  | processCommand locals => exact hcloses.elim
  | afterProcessCommand rc => exact hcloses.elim
  | onWriteEnd => exact hcloses.elim

end

/-- What libuv may run is an action of the exchange, and succeeds if it
obtains its request. -/
theorem Implements.step {c : Connection} {x : ClientExchange} (h : Implements c x)
    {cb : Callback abi} (hp : c.Permits cb) (hk : cb.KnownRead)
    (hobtained : c.RequestObtained cb) : StepsWith c x cb := by
  cases x with
  | receiving reading received => exact stepsWith_receiving h hp hk
  | submitted timed received => exact stepsWith_submitted h hp hobtained
  | processed timed request => exact stepsWith_processed h hp
  | answering request => exact stepsWith_answering h hp
  | abandoned timed request => exact stepsWith_abandoned h hp
  | closing client timer request => exact stepsWith_closing h hp

/-- What the exchange can take, libuv may run. -/
theorem Implements.permits {c : Connection} {x x' : ClientExchange} (h : Implements c x)
    {cb : Callback abi} (hoffered : cb.Offered)
    (hnext : Exchange.Next (connectionService abi) x cb.action x') : c.Permits cb := by
  cases cb with
  | readCb nread base rc =>
    have hactive : c.client = .active := by
      rw [Callback.action] at hnext
      generalize decide (rc = 0) = taken at hnext
      split_ifs at hnext with hneg
      · cases hnext with
        | hangUp _ => exact h.2.1
      · cases hnext with
        | gather _ => exact h.2.1
        | submit _ => exact h.2.1
        | refuse _ => exact h.2.1
    exact ⟨hactive, hoffered.1⟩
  | clientTimeoutCb =>
    cases hnext with
    | timeOut _ _ => exact h.1.timer
    | expireSubmitted _ => exact h.2.2.1
    | expireProcessed _ => exact h.2.2.1
    | expireAbandoned _ => exact h.2.1
  | processCommand locals =>
    cases hnext with
    | process _ _ => exact h.2.1
  | afterProcessCommand rc =>
    rw [Callback.action] at hnext
    generalize decide (rc = 0) = taken at hnext
    cases hnext with
    | respond _ _ => exact h.2.1
    | drop _ _ => exact h.2.1
  | onWriteEnd =>
    cases hnext with
    | finish _ => exact h.1.write
  | onCloseFreeClient =>
    cases hnext with
    | releaseClient _ _ => exact h.2.1
  | onCloseFreeTimer =>
    cases hnext with
    | releaseTimer _ _ => exact h.2.2.1

/-- The exchange takes the work only with a request. -/
theorem Implements.requestObtained {c : Connection} {x x' : ClientExchange} (h : Implements c x)
    {cb : Callback abi} (hnext : Exchange.Next (connectionService abi) x cb.action x') :
    c.RequestObtained cb := by
  cases cb with
  | processCommand locals =>
    cases hnext with
    | process _ hparse =>
      obtain ⟨hworking, -, -, -, hreceived⟩ := h
      exact (hworking.requestObtained_iff hreceived).mpr ⟨_, hparse⟩
  | _ => trivial

theorem Callback.Offered.knownRead {cb : Callback abi} (h : cb.Offered) : cb.KnownRead := by
  cases cb with
  | readCb nread base rc => exact h.2
  | _ => trivial

/-- **Refinement**: a connection refines an exchange. -/
theorem connection_refines (abi : Abi) :
    Refinement (Connection.Next Unrestricted) (Exchange.Next (connectionService abi))
      Callback.Offered Callback.action Implements where
  forth := by
    intro c c' x cb h hnext
    obtain ⟨hp, -, hstep⟩ := hnext
    obtain ⟨d, x', hd, hx', hd'⟩ := h.step hp (knownRead_of_step hstep)
      (requestObtained_of_step hstep)
    obtain rfl := Except.ok.inj (hstep.symm.trans hd)
    exact ⟨x', hx', hd'⟩
  back := by
    intro c x x' cb h hoffered hx'
    have hp := h.permits hoffered hx'
    obtain ⟨c', y, heq, hy, hc'⟩ := h.step hp hoffered.knownRead (h.requestObtained hx')
    obtain rfl := hy.unique hx'
    exact ⟨c', ⟨hp, trivial, heq⟩, hc'⟩

end CWebServer.Server
