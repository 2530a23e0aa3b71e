/-
CWebServer.Server.Lifecycle — a connection from `connection_cb` to
`close_data`, in every order of its callbacks.

Five phases carry the invariant. A connection waits for its request, has
its work with the thread pool, has its answer in flight, or is closed;
in the fifth, `Stranded`, its work was started but libuv took no work item
or no write, and nothing is left that would ever close it. Each phase
permits a few callbacks, each of them succeeds, and the phases it can lead
to are one lemma a phase (`Waiting.step` to `Closed.step`).

Nothing but a failing `uv_queue_work` or `uv_write` leads to `Stranded`,
which is where `SubmissionSucceeds` comes in; the safety of the lifecycle
does not need it.

No `sorry`, no `axiom`, no `native_decide`.
-/
import CWebServer.Http.Body
import CWebServer.Server.Connection

namespace CWebServer.Server

open Libc Http Runs

variable {abi : Abi}

/-! ## The two calls that end something -/

theorem Handle.not_live_closing : ¬ Handle.closing.Live := by decide

theorem Handle.not_live_freed : ¬ Handle.freed.Live := by decide

namespace Connection

theorem deref_eq {c : Connection} {data : ClientRequestData} (h : c.data = some data) :
    c.deref = .ok data := by
  rw [deref, h]

theorem uvTimerStop_eq {c : Connection} (h : c.timer.Live) :
    c.uvTimerStop .own = .ok { c with timer := .idle } := by
  simp only [uvTimerStop, Handle.stop, if_pos h]
  rfl

/-- `close_data` of a connection libuv holds nothing of. -/
theorem closeData_eq {c : Connection} {data : ClientRequestData} (hclient : data.client = .own)
    (htimer : data.timer = .own) (hlive : c.client.Live) (htlive : c.timer.Live)
    (hqueued : c.work ≠ .queued) (hran : c.work ≠ .ran) (hwrite : c.write ≠ .inFlight) :
    c.closeData data =
      .ok { c with data := none, client := .closing, timer := .closing
                   closeDataCalls := c.closeDataCalls + 1 } := by
  have hheld : ¬ (c.work = .queued ∨ c.work = .ran ∨ c.write = .inFlight) := by
    intro h
    rcases h with h | h | h
    · exact hqueued h
    · exact hran h
    · exact hwrite h
  simp only [closeData, hclient, htimer, closeHandle, Handle.close, if_pos hlive, if_pos htlive,
    bind, Except.bind, if_neg hheld]

end Connection

/-! ## Phases -/

/-- The data is there and points to both handles. -/
structure Connection.Holds (c : Connection) (data : ClientRequestData) : Prop where
  eq : c.data = some data
  client : data.client = .own
  timer : data.timer = .own

/-- Being read, or at least timed. -/
structure Waiting (c : Connection) : Prop where
  data : ∃ data, c.Holds data ∧ data.workStarted = false
  client : c.client.Live
  timer : c.timer = .active
  work : c.work = .none
  write : c.write = .none
  counts : c.closeDataCalls = 0 ∧ c.workItems = 0 ∧ c.writes = 0

/-- The work item is with the thread pool. -/
structure Working (c : Connection) : Prop where
  data : ∃ data, c.Holds data ∧ data.workStarted = true ∧ data.text ≠ none ∧
    (c.work = .ran → data.response ≠ none)
  client : c.client = .idle
  timer : c.timer.Live
  work : c.work = .queued ∨ c.work = .ran
  write : c.write = .none
  counts : c.closeDataCalls = 0 ∧ c.workItems = 1 ∧ c.writes = 0

/-- The answer is in flight. -/
structure Writing (c : Connection) : Prop where
  data : ∃ data, c.Holds data ∧ data.workStarted = true
  client : c.client = .idle
  timer : c.timer = .idle
  work : c.work = .finished
  write : c.write = .inFlight
  counts : c.closeDataCalls = 0 ∧ c.workItems = 1 ∧ c.writes = 1

/-- Work was started, and libuv took no work item or no write. -/
structure Stranded (c : Connection) : Prop where
  data : ∃ data, c.Holds data ∧ data.workStarted = true
  client : c.client = .idle
  timer : c.timer.Live
  work : c.work = .none ∨ c.work = .finished
  write : c.write = .none
  counts : c.closeDataCalls = 0 ∧ c.workItems = 1 ∧ c.writes ≤ 1

/-- `close_data` has run. -/
structure Closed (c : Connection) : Prop where
  data : c.data = none
  client : ¬ c.client.Live
  timer : ¬ c.timer.Live
  work : c.work ≠ .queued ∧ c.work ≠ .ran
  write : c.write ≠ .inFlight
  counts : c.closeDataCalls = 1 ∧ c.workItems ≤ 1 ∧ c.writes ≤ 1

/-- The invariant of a connection. -/
def Good (c : Connection) : Prop := Waiting c ∨ Working c ∨ Writing c ∨ Stranded c ∨ Closed c

/-! ## Conditions on an event -/

/-- The reads the source tells apart: data, `-1` and end of file. -/
def Callback.KnownRead : Callback abi → Prop
  | .readCb nread _ _ => 0 ≤ nread ∨ nread = -1 ∨ nread = Connection.uvEof
  | _ => True

/-- A call of `uv_queue_work` or `uv_write` that the callback makes
returns 0. -/
def Connection.SubmissionSucceeds (c : Connection) : Callback abi → Prop
  | .readCb nread base queueWorkRc => ∀ data data', c.data = some data →
      readChunk data nread base = .ok data' → requestReady data' = true → queueWorkRc = 0
  | .afterProcessCommand writeRc => writeRc = 0
  | _ => True

/-- `parseHttp` and `print_headers` come back from the text, if the callback
runs them on one. -/
def Connection.RequestObtained (c : Connection) : Callback abi → Prop
  | .processCommand locals => ∀ data text, c.data = some data → data.text = some text →
      ∃ request, Connection.obtainRequest locals text = .ok request
  | _ => True

/-! ## The callbacks in each phase -/

theorem Connection.Holds.deref {c : Connection} {data : ClientRequestData} (h : c.Holds data) :
    c.deref = .ok data :=
  deref_eq h.eq

/-- `close_data` ends the phases in which libuv holds nothing. -/
theorem Connection.Holds.closeData {c : Connection} {data : ClientRequestData} (h : c.Holds data)
    (hlive : c.client.Live) (htlive : c.timer.Live) (hqueued : c.work ≠ .queued)
    (hran : c.work ≠ .ran) (hwrite : c.write ≠ .inFlight)
    (hcounts : c.closeDataCalls = 0 ∧ c.workItems ≤ 1 ∧ c.writes ≤ 1) :
    ∃ c', c.closeData data = .ok c' ∧ Closed c' := by
  obtain ⟨hclose, hwork, hwrites⟩ := hcounts
  refine ⟨_, closeData_eq h.client h.timer hlive htlive hqueued hran hwrite, ?_⟩
  exact
    { data := rfl
      client := Handle.not_live_closing
      timer := Handle.not_live_closing
      work := ⟨hqueued, hran⟩
      write := hwrite
      counts := ⟨by rw [hclose], hwork, hwrites⟩ }

/-- A chunk changes the text and its length only. -/
theorem readChunk_fields {data data' : ClientRequestData} {nread : Int} {base : List Char}
    (h : Connection.readChunk data nread base = .ok data') :
    data'.text ≠ none ∧ data'.workStarted = data.workStarted ∧ data'.client = data.client ∧
      data'.timer = data.timer := by
  unfold Connection.readChunk at h
  split_ifs at h
  obtain rfl := Except.ok.inj h
  unfold Connection.appendChunk
  cases data.text <;> exact ⟨by simp, rfl, rfl, rfl⟩

theorem readChunk_ok (data : ClientRequestData) {nread : Int} {base : List Char}
    (h0 : 0 ≤ nread) (hle : nread ≤ base.length) :
    ∃ data', Connection.readChunk data nread base = .ok data' := by
  have hcond : 0 ≤ nread ∧ nread.toNat ≤ base.length := ⟨h0, by omega⟩
  rw [Connection.readChunk, if_pos hcond]
  exact ⟨_, rfl⟩

theorem readChunk_nonneg {data data' : ClientRequestData} {nread : Int} {base : List Char}
    (h : Connection.readChunk data nread base = .ok data') : 0 ≤ nread := by
  unfold Connection.readChunk at h
  split_ifs at h with hcond
  exact hcond.1

/-- The end of a read, or of a wait, closes the connection. -/
theorem Waiting.stop_close {c : Connection} (h : Waiting c) {data : ClientRequestData}
    (hholds : c.Holds data) :
    ∃ c', (c.uvTimerStop .own >>= fun c => c.closeData data) = .ok c' ∧ Closed c' := by
  rw [Connection.uvTimerStop_eq (Or.inr h.timer)]
  have hstopped : ({ c with timer := .idle } : Connection).Holds data :=
    ⟨hholds.eq, hholds.client, hholds.timer⟩
  obtain ⟨hclose, hwork, hwrites⟩ := h.counts
  exact hstopped.closeData h.client (Or.inl rfl) (by simp [h.work]) (by simp [h.work])
    (by simp [h.write]) ⟨hclose, by simp [hwork], by simp [hwrites]⟩

/-- What `read_cb` makes of a chunk. -/
theorem readCb_eq {c : Connection} {data data' : ClientRequestData} (hdata : c.data = some data)
    (hlive : c.client.Live) {nread : Int} {base : List Char} (rc : Int)
    (hne : ¬ (nread = -1 ∨ nread = Connection.uvEof))
    (hread : Connection.readChunk data nread base = .ok data') :
    c.readCb nread base rc =
      if Connection.requestReady data' then
        .ok (({ c with data := some { data' with workReq := .own, workStarted := true }
                       client := .idle } : Connection).uvQueueWork rc)
      else .ok { c with data := some data' } := by
  simp only [Connection.readCb, Connection.deref_eq hdata, hread, if_neg hne, Handle.stop,
    if_pos hlive, bind, Except.bind]

/-- Where the work of a waiting connection is started. -/
theorem Waiting.start {c : Connection} (h : Waiting c) {data : ClientRequestData}
    (hclient : data.client = .own) (htimer : data.timer = .own) (htext : data.text ≠ none)
    {c' : Connection} (rc : Int)
    (hc' : ({ c with data := some { data with workReq := .own, workStarted := true }
                     client := .idle } : Connection).uvQueueWork rc = c') :
    rc = 0 ∧ Working c' ∨ rc ≠ 0 ∧ Stranded c' := by
  obtain ⟨hclose, hwork, hwrites⟩ := h.counts
  subst hc'
  by_cases hrc : rc = 0
  · refine .inl ⟨hrc, ?_⟩
    exact
      { data := ⟨_, ⟨rfl, hclient, htimer⟩, rfl, htext, by simp [Connection.uvQueueWork, hrc]⟩
        client := rfl
        timer := .inr h.timer
        work := .inl (by simp [Connection.uvQueueWork, hrc])
        write := h.write
        counts := ⟨hclose, by simp [Connection.uvQueueWork, hwork], hwrites⟩ }
  · refine .inr ⟨hrc, ?_⟩
    exact
      { data := ⟨_, ⟨rfl, hclient, htimer⟩, rfl⟩
        client := rfl
        timer := .inr h.timer
        work := .inl (by simp [Connection.uvQueueWork, hrc, h.work])
        write := h.write
        counts := ⟨hclose, by simp [Connection.uvQueueWork, hwork],
          by simp [Connection.uvQueueWork, hwrites]⟩ }

/-- A read of data goes on waiting, or starts the work. -/
theorem Waiting.read {c : Connection} (h : Waiting c) {data data' : ClientRequestData}
    (hholds : c.Holds data) (hstarted : data.workStarted = false) {nread : Int}
    {base : List Char} (rc : Int) (hne : ¬ (nread = -1 ∨ nread = Connection.uvEof))
    (hread : Connection.readChunk data nread base = .ok data') :
    ∃ c', c.readCb nread base rc = .ok c' ∧
      (Connection.requestReady data' = false ∧ Waiting c' ∨
        Connection.requestReady data' = true ∧
          (rc = 0 ∧ Working c' ∨ rc ≠ 0 ∧ Stranded c')) := by
  obtain ⟨htext, hstarted', hclient, htimer⟩ := readChunk_fields hread
  rw [readCb_eq hholds.eq h.client rc hne hread]
  cases hready : Connection.requestReady data' with
  | false =>
    refine ⟨_, rfl, .inl ⟨rfl, ?_⟩⟩
    exact
      { data := ⟨data', ⟨rfl, hclient.trans hholds.client, htimer.trans hholds.timer⟩,
          hstarted'.trans hstarted⟩
        client := h.client
        timer := h.timer
        work := h.work
        write := h.write
        counts := h.counts }
  | true =>
    exact ⟨_, rfl, .inr ⟨rfl, h.start (hclient.trans hholds.client) (htimer.trans hholds.timer)
      htext rc rfl⟩⟩

/-- From waiting: on with waiting, the work is started, or the end. -/
theorem Waiting.step {c : Connection} (h : Waiting c) {callback : Callback abi}
    (hp : c.Permits callback) (hk : callback.KnownRead) :
    ∃ c', c.step callback = .ok c' ∧
      (c.SubmissionSucceeds callback ∧ (Waiting c' ∨ Working c' ∨ Closed c') ∨
        ¬ c.SubmissionSucceeds callback ∧ Stranded c') := by
  obtain ⟨data, hholds, hstarted⟩ := h.data
  cases callback with
  | readCb nread base rc =>
    have hdata : ∀ data', c.data = some data' → data' = data :=
      fun data' hdata' => Option.some.inj (hdata'.symm.trans hholds.eq)
    by_cases hend : nread = -1 ∨ nread = Connection.uvEof
    · obtain ⟨c', heq, hclosed⟩ := h.stop_close hholds
      have hneg : nread < 0 := by
        unfold Connection.uvEof at hend
        omega
      refine ⟨c', ?_, .inl ⟨?_, .inr (.inr hclosed)⟩⟩
      · rw [← heq, ← hholds.timer]
        simp only [Connection.step, Connection.readCb, hholds.deref, if_pos hend, bind,
          Except.bind]
      · -- Nothing is read, so nothing is submitted.
        intro _ data' _ hread
        exact absurd (readChunk_nonneg hread) (by omega)
    · have h0 : 0 ≤ nread := hk.resolve_right hend
      obtain ⟨data', hread⟩ := readChunk_ok data h0 hp.2
      obtain ⟨c', heq, hcases⟩ := h.read hholds hstarted rc hend hread
      have hsame : ∀ d d', c.data = some d → Connection.readChunk d nread base = .ok d' →
          d' = data' := by
        intro d d' hd hd'
        rw [hdata d hd, hread] at hd'
        exact (Except.ok.inj hd').symm
      refine ⟨c', heq, ?_⟩
      rcases hcases with ⟨hready, hwaiting⟩ | ⟨hready, ⟨hrc, hworking⟩ | ⟨hrc, hstranded⟩⟩
      · refine .inl ⟨fun d d' hd hd' hready' => ?_, .inl hwaiting⟩
        rw [hsame d d' hd hd', hready] at hready'
        cases hready'
      · exact .inl ⟨fun _ _ _ _ _ => hrc, .inr (.inl hworking)⟩
      · exact .inr ⟨fun hok => hrc (hok data data' hholds.eq hread hready), hstranded⟩
  | clientTimeoutCb =>
    obtain ⟨c', heq, hclosed⟩ := h.stop_close hholds
    refine ⟨c', ?_, .inl ⟨trivial, .inr (.inr hclosed)⟩⟩
    rw [← heq]
    simp only [Connection.step, Connection.clientTimeoutCb, hholds.deref, hstarted, bind,
      Except.bind, Bool.false_eq_true, if_false]
  | processCommand locals => exact nomatch h.work.symm.trans hp
  | afterProcessCommand rc => exact nomatch h.work.symm.trans hp
  | onWriteEnd => exact nomatch h.write.symm.trans hp
  | onCloseFreeClient => exact absurd h.client (hp ▸ Handle.not_live_closing)
  | onCloseFreeTimer => exact nomatch h.timer.symm.trans hp

/-- The timeout of started work stops the timer and nothing else. -/
theorem timeout_started {c : Connection} {data : ClientRequestData} (hholds : c.Holds data)
    (hstarted : data.workStarted = true) (htimer : c.timer.Live) :
    c.clientTimeoutCb = .ok { c with timer := .idle } := by
  simp only [Connection.clientTimeoutCb, hholds.deref, Connection.uvTimerStop_eq htimer, hstarted,
    bind, Except.bind, if_true]

/-- `after_process_command` of a connection whose stream is open. -/
theorem afterProcessCommand_eq {c : Connection} {data : ClientRequestData} (hholds : c.Holds data)
    (hresponse : data.response ≠ none) (htimer : c.timer.Live) (hclient : c.client.Live)
    (rc : Int) :
    c.afterProcessCommand rc =
      .ok { c with data := some { data with writeReq := .own }, timer := .idle, work := .finished
                   writes := c.writes + 1, write := if rc = 0 then .inFlight else c.write } := by
  obtain ⟨response, hsome⟩ := Option.ne_none_iff_exists'.mp hresponse
  simp only [Connection.afterProcessCommand, hholds.deref, hsome, hholds.timer,
    Connection.uvTimerStop, Handle.stop, if_pos htimer, Connection.uvWrite, if_pos hclient,
    bind, Except.bind]

/-- What the work makes of a text from which its parser comes back. -/
theorem processCommand_eq {c : Connection} {data : ClientRequestData} {text : List Char}
    {locals : Locals abi} {request : HttpRequest} (hdata : c.data = some data)
    (htext : data.text = some text)
    (hrequest : Connection.obtainRequest locals text = .ok request) :
    c.processCommand locals =
      .ok { c with data := some { data with response := some Connection.responseText }
                   parsed := some request, work := .ran } := by
  simp only [Connection.processCommand, Connection.deref_eq hdata, htext, hrequest, bind,
    Except.bind]

/-- The work makes the answer, if its parser comes back. -/
theorem Working.process {c : Connection} (h : Working c) {locals : Locals abi}
    (hobtained : c.RequestObtained (.processCommand locals)) :
    ∃ c', c.processCommand locals = .ok c' ∧ Working c' := by
  obtain ⟨data, hholds, hstarted, htext, -⟩ := h.data
  obtain ⟨text, hsome⟩ := Option.ne_none_iff_exists'.mp htext
  obtain ⟨request, hrequest⟩ := hobtained data text hholds.eq hsome
  refine ⟨_, processCommand_eq hholds.eq hsome hrequest, ?_⟩
  · exact
      { data := ⟨_, ⟨rfl, hholds.client, hholds.timer⟩, hstarted, htext, fun _ => nofun⟩
        client := h.client
        timer := h.timer
        work := .inr rfl
        write := h.write
        counts := h.counts }

/-- The answer is sent, unless `uv_write` fails. -/
theorem Working.answer {c : Connection} (h : Working c) (hran : c.work = .ran) (rc : Int) :
    ∃ c', c.afterProcessCommand rc = .ok c' ∧ (rc = 0 ∧ Writing c' ∨ rc ≠ 0 ∧ Stranded c') := by
  obtain ⟨data, hholds, hstarted, -, hresponse⟩ := h.data
  obtain ⟨hclose, hwork, hwrites⟩ := h.counts
  refine ⟨_, afterProcessCommand_eq hholds (hresponse hran) h.timer (.inl h.client) rc, ?_⟩
  by_cases hrc : rc = 0
  · refine .inl ⟨hrc, ?_⟩
    exact
      { data := ⟨_, ⟨rfl, hholds.client, hholds.timer⟩, hstarted⟩
        client := h.client
        timer := rfl
        work := rfl
        write := if_pos hrc
        counts := ⟨hclose, hwork, by simp [hwrites]⟩ }
  · refine .inr ⟨hrc, ?_⟩
    exact
      { data := ⟨_, ⟨rfl, hholds.client, hholds.timer⟩, hstarted⟩
        client := h.client
        timer := .inl rfl
        work := .inr rfl
        write := (if_neg hrc).trans h.write
        counts := ⟨hclose, hwork, by simp [hwrites]⟩ }

/-- From the thread pool: the work runs, and then the answer is sent. -/
theorem Working.step {c : Connection} (h : Working c) {callback : Callback abi}
    (hp : c.Permits callback) (hobtained : c.RequestObtained callback) :
    ∃ c', c.step callback = .ok c' ∧
      (c.SubmissionSucceeds callback ∧ (Working c' ∨ Writing c') ∨
        ¬ c.SubmissionSucceeds callback ∧ Stranded c') := by
  cases callback with
  | readCb nread base rc => exact nomatch h.client.symm.trans hp.1
  | clientTimeoutCb =>
    obtain ⟨data, hholds, hstarted, htext, hresponse⟩ := h.data
    refine ⟨_, timeout_started hholds hstarted h.timer, .inl ⟨trivial, .inl ?_⟩⟩
    exact
      { data := ⟨data, ⟨hholds.eq, hholds.client, hholds.timer⟩, hstarted, htext, hresponse⟩
        client := h.client
        timer := .inl rfl
        work := h.work
        write := h.write
        counts := h.counts }
  | processCommand locals =>
    obtain ⟨c', heq, hworking⟩ := h.process hobtained
    exact ⟨c', heq, .inl ⟨trivial, .inl hworking⟩⟩
  | afterProcessCommand rc =>
    obtain ⟨c', heq, hphase⟩ := h.answer hp rc
    refine ⟨c', heq, ?_⟩
    rcases hphase with ⟨hrc, hwriting⟩ | ⟨hrc, hstranded⟩
    · exact .inl ⟨hrc, .inr hwriting⟩
    · exact .inr ⟨hrc, hstranded⟩
  | onWriteEnd => exact nomatch h.write.symm.trans hp
  | onCloseFreeClient => exact nomatch h.client.symm.trans hp
  | onCloseFreeTimer => exact absurd h.timer (hp ▸ Handle.not_live_closing)

/-- From the answer in flight: the end. -/
theorem Writing.step {c : Connection} (h : Writing c) {callback : Callback abi}
    (hp : c.Permits callback) : ∃ c', c.step callback = .ok c' ∧ Closed c' := by
  obtain ⟨data, hholds, -⟩ := h.data
  cases callback with
  | onWriteEnd =>
    obtain ⟨hclose, hwork, hwrites⟩ := h.counts
    have hended : ({ c with write := .finished } : Connection).Holds data :=
      ⟨hholds.eq, hholds.client, hholds.timer⟩
    obtain ⟨c', heq, hclosed⟩ := hended.closeData (.inl h.client) (.inl h.timer)
      (by simp [h.work]) (by simp [h.work]) (by simp)
      ⟨hclose, by simp [hwork], by simp [hwrites]⟩
    refine ⟨c', ?_, hclosed⟩
    rw [← heq]
    simp only [Connection.step, Connection.onWriteEnd, hholds.deref, bind, Except.bind]
  | readCb nread base rc => exact nomatch h.client.symm.trans hp.1
  | clientTimeoutCb => exact nomatch h.timer.symm.trans hp
  | processCommand locals => exact nomatch h.work.symm.trans hp
  | afterProcessCommand rc => exact nomatch h.work.symm.trans hp
  | onCloseFreeClient => exact nomatch h.client.symm.trans hp
  | onCloseFreeTimer => exact nomatch h.timer.symm.trans hp

/-- Stranded for good: only the timeout may still run, and it changes
nothing. -/
theorem Stranded.step {c : Connection} (h : Stranded c) {callback : Callback abi}
    (hp : c.Permits callback) : ∃ c', c.step callback = .ok c' ∧ Stranded c' := by
  obtain ⟨data, hholds, hstarted⟩ := h.data
  have hidle : ∀ w, c.work = w → w = .none ∨ w = .finished := fun w hw => hw ▸ h.work
  cases callback with
  | clientTimeoutCb =>
    refine ⟨_, timeout_started hholds hstarted h.timer, ?_⟩
    exact
      { data := ⟨data, ⟨hholds.eq, hholds.client, hholds.timer⟩, hstarted⟩
        client := h.client
        timer := .inl rfl
        work := h.work
        write := h.write
        counts := h.counts }
  | readCb nread base rc => exact nomatch h.client.symm.trans hp.1
  | processCommand locals => exact absurd (hidle _ hp) (by decide)
  | afterProcessCommand rc => exact absurd (hidle _ hp) (by decide)
  | onWriteEnd => exact nomatch h.write.symm.trans hp
  | onCloseFreeClient => exact nomatch h.client.symm.trans hp
  | onCloseFreeTimer => exact absurd h.timer (hp ▸ Handle.not_live_closing)

/-- The callbacks that free a handle. -/
def Callback.ClosesHandle : Callback abi → Prop
  | .onCloseFreeClient | .onCloseFreeTimer => True
  | _ => False

/-- Once closed, only the close callbacks run. -/
theorem Closed.step {c : Connection} (h : Closed c) {callback : Callback abi}
    (hp : c.Permits callback) :
    callback.ClosesHandle ∧ ∃ c', c.step callback = .ok c' ∧ Closed c' := by
  cases callback with
  | readCb nread base rc => exact absurd (Or.inr hp.1) h.client
  | clientTimeoutCb => exact absurd (Or.inr hp) h.timer
  | processCommand locals => exact absurd hp h.work.1
  | afterProcessCommand rc => exact absurd hp h.work.2
  | onWriteEnd => exact absurd hp h.write
  | onCloseFreeClient =>
    refine ⟨trivial, _, rfl, ?_⟩
    exact
      { data := h.data
        client := Handle.not_live_freed
        timer := h.timer
        work := h.work
        write := h.write
        counts := h.counts }
  | onCloseFreeTimer =>
    refine ⟨trivial, _, rfl, ?_⟩
    exact
      { data := h.data
        client := h.client
        timer := Handle.not_live_freed
        work := h.work
        write := h.write
        counts := h.counts }

/-- A `process_command` that succeeds has obtained its request. -/
theorem requestObtained_of_step {c c' : Connection} {callback : Callback abi}
    (h : c.step callback = .ok c') : c.RequestObtained callback := by
  cases callback with
  | processCommand locals =>
    intro data text hdata htext
    simp only [Connection.step, Connection.processCommand, Connection.deref_eq hdata, htext, bind,
      Except.bind] at h
    cases hrequest : Connection.obtainRequest locals text with
    | error fault =>
      rw [hrequest] at h
      cases h
    | ok request => exact ⟨request, rfl⟩
  | _ => trivial

/-- Every phase permits only what succeeds, the parser of the work apart,
and leads to a phase. -/
theorem Good.step {c : Connection} (h : Good c) {callback : Callback abi}
    (hp : c.Permits callback) (hk : callback.KnownRead)
    (hobtained : c.RequestObtained callback) :
    ∃ c', c.step callback = .ok c' ∧ Good c' := by
  rcases h with h | h | h | h | h
  · obtain ⟨c', heq, ⟨-, h' | h' | h'⟩ | ⟨-, h'⟩⟩ := h.step hp hk
    · exact ⟨c', heq, .inl h'⟩
    · exact ⟨c', heq, .inr (.inl h')⟩
    · exact ⟨c', heq, .inr (.inr (.inr (.inr h')))⟩
    · exact ⟨c', heq, .inr (.inr (.inr (.inl h')))⟩
  · obtain ⟨c', heq, ⟨-, h' | h'⟩ | ⟨-, h'⟩⟩ := h.step hp hobtained
    · exact ⟨c', heq, .inr (.inl h')⟩
    · exact ⟨c', heq, .inr (.inr (.inl h'))⟩
    · exact ⟨c', heq, .inr (.inr (.inr (.inl h')))⟩
  · obtain ⟨c', heq, h'⟩ := h.step hp
    exact ⟨c', heq, .inr (.inr (.inr (.inr h')))⟩
  · obtain ⟨c', heq, h'⟩ := h.step hp
    exact ⟨c', heq, .inr (.inr (.inr (.inl h')))⟩
  · obtain ⟨-, c', heq, h'⟩ := h.step hp
    exact ⟨c', heq, .inr (.inr (.inr (.inr h')))⟩

/-- A new connection whose `uv_accept` succeeds. -/
def acceptedConnection (readStartRc : Int) : Connection :=
  { freshConnection with
    data := some
      { text := none, textLen := 0, response := none, workStarted := false
        client := .own, workReq := .null, writeReq := .null, timer := .own }
    timer := .active
    client := if readStartRc = 0 then .active else .idle }

/-- One whose `uv_accept` fails, which has no timer yet. -/
def refusedConnection : Connection :=
  { freshConnection with data := none, client := .closing, closeDataCalls := 1 }

theorem connectionCb_eq (status acceptRc readStartRc : Int) :
    connectionCb status acceptRc readStartRc =
      .ok (if status = -1 then none
        else if acceptRc = 0 then some (acceptedConnection readStartRc)
        else some refusedConnection) := by
  unfold connectionCb
  by_cases hstatus : status = -1
  · rw [if_pos hstatus, if_pos hstatus]
  · rw [if_neg hstatus, if_neg hstatus]
    by_cases haccept : acceptRc = 0
    · simp only [Connection.deref, freshConnection, if_pos haccept, bind, Except.bind]
      rfl
    · simp only [Connection.deref, freshConnection, if_neg haccept, bind, Except.bind]
      rfl

theorem waiting_accepted (readStartRc : Int) : Waiting (acceptedConnection readStartRc) where
  data := ⟨_, ⟨rfl, rfl, rfl⟩, rfl⟩
  client := by
    by_cases hrc : readStartRc = 0
    · exact .inr (if_pos hrc)
    · exact .inl (if_neg hrc)
  timer := rfl
  work := rfl
  write := rfl
  counts := ⟨rfl, rfl, rfl⟩

theorem closed_refused : Closed refusedConnection where
  data := rfl
  client := Handle.not_live_closing
  timer := by decide
  work := ⟨nofun, nofun⟩
  write := nofun
  counts := ⟨rfl, Nat.zero_le 1, Nat.zero_le 1⟩

/-- A new connection waits, or is closed at once. -/
theorem connectionCb_phase {status acceptRc readStartRc : Int} {o : Option Connection}
    (h : connectionCb status acceptRc readStartRc = .ok o) : ∀ c ∈ o, Waiting c ∨ Closed c := by
  rw [connectionCb_eq, Except.ok.injEq] at h
  intro c hc
  rw [← h] at hc
  split_ifs at hc
  · exact nomatch hc
  · exact .inl (Option.some.inj hc ▸ waiting_accepted readStartRc)
  · exact .inr (Option.some.inj hc ▸ closed_refused)

/-! ## Runs of the server -/

def Event.KnownRead : Event abi → Prop
  | .connectionCb _ _ _ => True
  | .callback _ cb => cb.KnownRead

/-- A property of single connections that new ones have and that steps keep
is one of every connection of every state reached. -/
theorem forall_mem_of_reaches {Allowed : List Connection → Event abi → Prop}
    {P : Connection → Prop}
    (hnew : ∀ status acceptRc readStartRc o, connectionCb status acceptRc readStartRc = .ok o →
      ∀ c ∈ o, P c)
    (hstep : ∀ connections i callback c c', connections[i]? = some c →
      Allowed connections (.callback i callback) → P c → c.Permits callback →
      c.step callback = .ok c' → P c')
    {connections : List Connection} (h : Reaches (server abi) Allowed connections) :
    ∀ c ∈ connections, P c := by
  refine Reaches.invariant (P := fun s => ∀ c ∈ s, P c) (fun _ hc => absurd hc List.not_mem_nil)
    (fun s e s' hs henabled hallowed heq => ?_) h
  cases e with
  | connectionCb status acceptRc readStartRc =>
    obtain ⟨o, ho, heq⟩ := bind_ok_iff.mp heq
    obtain rfl := Except.ok.inj heq
    intro c hc
    rcases List.mem_append.mp hc with hc | hc
    · exact hs c hc
    · exact hnew _ _ _ o ho c (Option.mem_toList.mp hc)
  | callback i callback =>
    obtain ⟨c, hc, hp⟩ := henabled
    simp only [server, hc] at heq
    obtain ⟨c', hc', heq⟩ := bind_ok_iff.mp heq
    obtain rfl := Except.ok.inj heq
    intro d hd
    rcases List.mem_or_eq_of_mem_set hd with hd | rfl
    · exact hs d hd
    · exact hstep s i callback c d hc hallowed (hs c (List.mem_of_getElem? hc)) hp hc'

theorem good_of_reaches {connections : List Connection}
    (h : Reaches (server abi) (fun _ e => e.KnownRead) connections) :
    ∀ c ∈ connections, Good c := by
  refine forall_mem_of_reaches (fun status acceptRc readStartRc o ho c hc => ?_)
    (fun s i callback c c' _ hknown hgood hp hstep => ?_) h
  · rcases connectionCb_phase ho c hc with hwaiting | hclosed
    · exact .inl hwaiting
    · exact .inr (.inr (.inr (.inr hclosed)))
  · obtain ⟨d, hd, hgood'⟩ := hgood.step hp hknown (requestObtained_of_step hstep)
    exact Except.ok.inj (hstep.symm.trans hd) ▸ hgood'

/-- The callbacks that may call `uv_timer_stop`. -/
def Callback.StopsTimer : Callback abi → Prop
  | .readCb _ _ _ | .clientTimeoutCb | .afterProcessCommand _ => True
  | _ => False

/-- What must hold of a connection at any time. -/
structure Connection.Safe (abi : Abi) (c : Connection) : Prop where
  closeOnce : c.closeDataCalls ≤ 1
  freed : c.data = none ↔ c.closeDataCalls = 1
  afterFree : c.data = none → ∀ callback : Callback abi, c.Permits callback → callback.ClosesHandle
  workOnce : c.workItems ≤ 1
  writeOnce : c.writes ≤ 1
  timer : ∀ callback : Callback abi, c.Permits callback → callback.StopsTimer →
    ∃ data, c.data = some data ∧ data.timer = .own ∧ c.timer.Live

/-- The phases before `close_data` are safe as long as their timer is. -/
theorem Connection.Holds.safe {c : Connection} {data : ClientRequestData} (h : c.Holds data)
    (htimer : c.timer.Live) (hcounts : c.closeDataCalls = 0 ∧ c.workItems ≤ 1 ∧ c.writes ≤ 1) :
    c.Safe abi := by
  obtain ⟨hclose, hwork, hwrites⟩ := hcounts
  have hsome := h.eq
  exact
    { closeOnce := by omega
      freed := by simp [hsome, hclose]
      afterFree := fun hnone => nomatch hsome.symm.trans hnone
      workOnce := hwork
      writeOnce := hwrites
      timer := fun _ _ _ => ⟨data, hsome, h.timer, htimer⟩ }

theorem Good.safe {c : Connection} (h : Good c) : c.Safe abi := by
  rcases h with h | h | h | h | h
  · obtain ⟨data, hholds, -⟩ := h.data
    obtain ⟨hclose, hwork, hwrites⟩ := h.counts
    exact hholds.safe (.inr h.timer) ⟨hclose, by omega, by omega⟩
  · obtain ⟨data, hholds, -⟩ := h.data
    obtain ⟨hclose, hwork, hwrites⟩ := h.counts
    exact hholds.safe h.timer ⟨hclose, by omega, by omega⟩
  · obtain ⟨data, hholds, -⟩ := h.data
    obtain ⟨hclose, hwork, hwrites⟩ := h.counts
    exact hholds.safe (.inl h.timer) ⟨hclose, by omega, by omega⟩
  · obtain ⟨data, hholds, -⟩ := h.data
    obtain ⟨hclose, hwork, hwrites⟩ := h.counts
    exact hholds.safe h.timer ⟨hclose, by omega, hwrites⟩
  · obtain ⟨hclose, hwork, hwrites⟩ := h.counts
    exact
      { closeOnce := by omega
        freed := by simp [h.data, hclose]
        afterFree := fun _ callback hp => (h.step hp).1
        workOnce := hwork
        writeOnce := hwrites
        timer := fun callback hp hstops => by
          have hcloses := (h.step hp).1
          cases callback <;> first | exact hcloses.elim | exact hstops.elim }

/-- A fault of the parser is no use of anything freed. -/
theorem faultsIn_obtainRequest (locals : Locals abi) (text : List Char) :
    FaultsIn (· ≠ .useAfterFree) (Connection.obtainRequest locals text) :=
  (faultsIn_parseHttp (fun _ => nofun) nofun locals text).bind fun request =>
    (faultsIn_printHeaders (fun _ => nofun) request).bind fun _ => faultsIn_ok request

/-- Nothing that libuv may run uses anything freed. -/
theorem Good.faultsIn_step {c : Connection} (h : Good c) {callback : Callback abi}
    (hp : c.Permits callback) (hk : callback.KnownRead) :
    FaultsIn (· ≠ .useAfterFree) (c.step callback) := by
  intro fault hfault
  by_cases hobtained : c.RequestObtained callback
  · obtain ⟨c', hc', -⟩ := h.step hp hk hobtained
    exact nomatch hc'.symm.trans hfault
  · cases callback with
    | processCommand locals =>
      simp only [Connection.RequestObtained, not_forall] at hobtained
      obtain ⟨data, text, hdata, htext, -⟩ := hobtained
      have hrun : FaultsIn (· ≠ .useAfterFree) (c.processCommand locals) := by
        simp only [Connection.processCommand, Connection.deref_eq hdata, bind, Except.bind, htext]
        exact (faultsIn_obtainRequest locals text).bind fun _ => faultsIn_ok _
      exact hrun fault hfault
    | _ => exact absurd trivial hobtained

/-- The request of the event, if it is to obtain one, is obtained. -/
def RequestObtained (connections : List Connection) : Event abi → Prop
  | .connectionCb _ _ _ => True
  | .callback i cb => ∀ c ∈ connections[i]?, c.RequestObtained cb

/-- What libuv may run succeeds if it obtains its request, and uses nothing
freed. -/
theorem step_of_good {connections : List Connection} (hgood : ∀ c ∈ connections, Good c)
    {e : Event abi} (henabled : (server abi).Enabled connections e) (hknown : e.KnownRead) :
    ((∃ next, (server abi).step connections e = .ok next) ↔ RequestObtained connections e) ∧
      (server abi).step connections e ≠ .error .useAfterFree := by
  cases e with
  | connectionCb status acceptRc readStartRc =>
    have hok : (server abi).step connections (.connectionCb status acceptRc readStartRc) = _ :=
      bind_ok_iff.mpr ⟨_, connectionCb_eq status acceptRc readStartRc, rfl⟩
    exact ⟨iff_of_true ⟨_, hok⟩ trivial, fun hfault => nomatch hok.symm.trans hfault⟩
  | callback i callback =>
    obtain ⟨c, hc, hp⟩ := henabled
    have hcgood := hgood c (List.mem_of_getElem? hc)
    simp only [server, hc]
    refine ⟨⟨?_, ?_⟩, fun hfault => ?_⟩
    · intro hstep d hd
      obtain rfl := Option.some.inj (hc.symm.trans hd)
      obtain ⟨next, hnext⟩ := hstep
      obtain ⟨c', hc', -⟩ := bind_ok_iff.mp hnext
      exact requestObtained_of_step hc'
    · intro hobtained
      obtain ⟨c', hstep, -⟩ := hcgood.step hp hknown (hobtained c hc)
      exact ⟨_, bind_ok_iff.mpr ⟨c', hstep, rfl⟩⟩
    · exact ((hcgood.faultsIn_step hp hknown).bind fun _ => faultsIn_ok _) _ hfault rfl

/-- **Lifecycle safety**: in every state that any number of connections
reach by any order of their callbacks, every connection is safe, and of the
callbacks libuv may run next all succeed but a `process_command` whose
`parseHttp` or `print_headers` faults on the text, and that is no use of
freed data or of a closed handle either. -/
theorem lifecycle_safe (abi : Abi) {connections : List Connection}
    (h : Reaches (server abi) (fun _ e => e.KnownRead) connections) :
    (∀ c ∈ connections, c.Safe abi) ∧
      ∀ e, (server abi).Enabled connections e → e.KnownRead →
        ((∃ next, (server abi).step connections e = .ok next) ↔ RequestObtained connections e) ∧
          (server abi).step connections e ≠ .error .useAfterFree := by
  have hgood := good_of_reaches h
  exact ⟨fun c hc => (hgood c hc).safe, fun e henabled hknown => step_of_good hgood henabled hknown⟩

/-! ## One exchange -/

/-- A whole request, in one read. -/
def requestText : List Char := "GET / HTTP/1.1\r\nHost: a\r\n\r\nx".toList

/-- A client connects and sends it, and the answer is on its way. -/
def answering (abi : Abi) : List (Event abi) :=
  [.connectionCb 0 0 0, .callback 0 (.readCb requestText.length requestText 0),
    .callback 0 (.processCommand (.fill abi nul)), .callback 0 (.afterProcessCommand 0)]

/-- The end of the write, and of both handles. -/
def finishing (abi : Abi) : List (Event abi) :=
  [.callback 0 .onWriteEnd, .callback 0 .onCloseFreeClient, .callback 0 .onCloseFreeTimer]

/-- The connection with its answer in flight. -/
def answeringConnection (request : HttpRequest) : Connection where
  data := some
    { text := some (requestText ++ [nul]), textLen := requestText.length
      response := some Connection.responseText, workStarted := true
      client := .own, workReq := .own, writeReq := .own, timer := .own }
  client := .idle
  timer := .idle
  work := .finished
  write := .inFlight
  parsed := some request
  closeDataCalls := 0
  workItems := 1
  writes := 1

theorem exists_path_answering (abi : Abi)
    (hok : (Connection.obtainRequest (.fill abi nul) (requestText ++ [nul])).isOk = true)
    {Allowed : List Connection → Event abi → Prop}
    (hallowed : ∀ s, ∀ e ∈ answering abi, Allowed s e) :
    ∃ request, Path ((server abi).Next Allowed) [] (answering abi)
      [answeringConnection request] := by
  cases hrequest : Connection.obtainRequest (.fill abi nul) (requestText ++ [nul]) with
  | error fault =>
    rw [hrequest] at hok
    cases hok
  | ok request =>
    exact ⟨request,
      .cons ⟨trivial, hallowed _ _ (by simp [answering]), rfl⟩
      (.cons ⟨⟨_, rfl, rfl, Int.le_refl _⟩, hallowed _ _ (by simp [answering]), rfl⟩
      (.cons ⟨⟨_, rfl, rfl⟩, hallowed _ _ (by simp [answering]),
        bind_ok_iff.mpr ⟨_, processCommand_eq rfl rfl hrequest, rfl⟩⟩
      (.cons ⟨⟨_, rfl, rfl⟩, hallowed _ _ (by simp [answering]), rfl⟩ (.nil _))))⟩

/-- A whole exchange: the work runs, the answer is written, and both handles
are given back. -/
theorem lifecycle_safe_exchange :
    let abi : Abi := ⟨4, by decide⟩
    ∃ connections : List Connection,
      Path ((server abi).Next fun _ e => e.KnownRead) [] (answering abi ++ finishing abi)
        connections ∧
      (∀ c ∈ connections, c.Safe abi) ∧
        ∀ e, (server abi).Enabled connections e → e.KnownRead →
          ((∃ next, (server abi).step connections e = .ok next) ↔
            RequestObtained connections e) ∧
          (server abi).step connections e ≠ .error .useAfterFree := by
  intro abi
  have hallowed : ∀ (s : List Connection), ∀ e ∈ answering abi, e.KnownRead := by
    intro _ e he
    simp only [answering, List.mem_cons, List.not_mem_nil, or_false] at he
    rcases he with rfl | rfl | rfl | rfl
    · trivial
    · exact .inl (by decide)
    · trivial
    · trivial
  obtain ⟨request, hanswering⟩ := exists_path_answering abi (by decide +kernel) hallowed
  have hfinishing : Path ((server abi).Next fun _ e => e.KnownRead)
      [answeringConnection request] (finishing abi) _ :=
    .cons ⟨⟨_, rfl, rfl⟩, trivial, rfl⟩ (.cons ⟨⟨_, rfl, rfl⟩, trivial, rfl⟩
      (.cons ⟨⟨_, rfl, rfl⟩, trivial, rfl⟩ (.nil _)))
  have hpath := hanswering.append hfinishing
  exact ⟨_, hpath, lifecycle_safe abi (reaches_iff_path.mpr ⟨_, hpath⟩)⟩

end CWebServer.Server
