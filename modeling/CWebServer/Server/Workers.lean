/-
CWebServer.Server.Workers — `process_command` on the threads of the pool,
and what `strtok` has to do with it.

`CWebServer.Server.Connection` takes `process_command` for one step. Here it
runs call by call of `strtok`, and between two of them libuv's loop and the
other threads go on. The copy of the text, the request and the locals are
the call's own; the position that `strtok` keeps is not. A work item uses
one position: that of its thread, where the C library keeps one for each,
or else the only one there is.

`Exclusive` is the assumption that no item begins while another one uses
its position. With a position for each thread that is so, since a thread
runs one item at a time; with one for all it says that no two items
overlap. Under it `process_command` is a step: the connections that such
runs reach are those of `server` (`workers_serialise`). Without it an item
may go on in the copy of another client's text, or in one that was freed.

One call of `strtok` is atomic here, whatever the library.

No `sorry`, no `axiom`, no `native_decide`.
-/
import CWebServer.Runs.Routine
import CWebServer.Server.Lives

namespace CWebServer.Server

open Libc Http Runs

variable {abi : Abi}

/-! ## `parseHttp` call by call -/

/-- `parseHttp` and the `print_headers` behind it, on locals and a text, cut
where `strtok` is called. The position is in the copy of the text, which is
freed when the last call returns. -/
def parsing (abi : Abi) :
    Routine (Locals abi × List Char) (ParseState abi) (List Char) HttpRequest Fault where
  start input :=
    match strtok '\n' (cstr input.2) with
    | none => .error .nullPointer
    | some (line, rest) => do
      let request ← scanRequestLine
        { input.1.request with headers := { input.1.request.headers with count := 0 } } line
      .ok ({ request, body := input.1.body, bodyEncountered := false, lineCount := 0 }, rest)
  resume input state saved :=
    match strtok '\n' saved with
    | none => do
      let _ ← readString state.body.chars
      let _ ← printHeaders state.request
      .ok (.inr state.request)
    | some (line, rest) => do
      let state ← parseLine input.1 state line
      .ok (.inl (state, rest))
  stale := .useAfterFree

/-- What is left of `parseHttp` and `print_headers` at a call. -/
def obtainFrom (locals : Locals abi) (saved : List Char) (state : ParseState abi) :
    Except Fault HttpRequest := do
  let state ← parseLines locals saved state
  let _ ← readString state.body.chars
  let _ ← printHeaders state.request
  .ok state.request

theorem ok_bind {α β : Type} (a : α) (f : α → Except Fault β) : (Except.ok a >>= f) = f a := rfl

/-- The calls of `parsing` are those of the loop. -/
theorem obtainFrom_resume (input : Locals abi × List Char) (state : ParseState abi)
    (saved : List Char) :
    obtainFrom input.1 saved state = (parsing abi).resume input state saved >>= fun
      | .inl next => obtainFrom input.1 next.2 next.1
      | .inr request => .ok request := by
  rw [obtainFrom, parseLines]
  simp only [parsing]
  cases strtok '\n' saved with
  | none => simp only [bind_assoc, ok_bind]
  | some call => simp only [bind_assoc, ok_bind, obtainFrom]

theorem obtainRequest_start (input : Locals abi × List Char) :
    Connection.obtainRequest input.1 input.2 =
      (parsing abi).start input >>= fun next => obtainFrom input.1 next.2 next.1 := by
  simp only [Connection.obtainRequest, parseHttp, parseHttpState, parsing]
  cases strtok '\n' (cstr input.2) with
  | none => rfl
  | some call => simp only [bind_assoc, ok_bind, obtainFrom]

section

variable {input : Locals abi × List Char} {state : ParseState abi} {saved : List Char}

/-- Wherever the calls have got to, what they go on to make is what they
make from the start. -/
theorem obtainRequest_of_reached (h : (parsing abi).Reached input state saved) :
    Connection.obtainRequest input.1 input.2 = obtainFrom input.1 saved state := by
  induction h with
  | start hstart => rw [obtainRequest_start, hstart, ok_bind]
  | resume _ hresume ih => rw [ih, obtainFrom_resume, hresume, ok_bind]

theorem obtainRequest_of_yields {request : HttpRequest}
    (h : (parsing abi).Yields input request) :
    Connection.obtainRequest input.1 input.2 = .ok request := by
  obtain ⟨state, saved, hreached, hresume⟩ := h
  rw [obtainRequest_of_reached hreached, obtainFrom_resume, hresume, ok_bind]

theorem obtainRequest_of_fails {fault : Fault} (h : (parsing abi).Fails input fault) :
    Connection.obtainRequest input.1 input.2 = .error fault := by
  rcases h with hstart | ⟨state, saved, hreached, hresume⟩
  · rw [obtainRequest_start, hstart]
    rfl
  · rw [obtainRequest_of_reached hreached, obtainFrom_resume, hresume]
    rfl

/-- A call that goes on has used up a line. -/
theorem resume_parsing_lt {state' : ParseState abi} {saved' : List Char}
    (h : (parsing abi).resume input state saved = .ok (.inl (state', saved'))) :
    saved'.length < saved.length := by
  simp only [parsing] at h
  cases hcall : strtok '\n' saved with
  | none =>
    rw [hcall] at h
    obtain ⟨_, -, h⟩ := bind_ok_iff.mp h
    obtain ⟨_, -, h⟩ := bind_ok_iff.mp h
    cases h
  | some call =>
    rw [hcall] at h
    obtain ⟨_, -, heq⟩ := bind_ok_iff.mp h
    obtain ⟨-, rfl⟩ := Prod.mk.inj (Sum.inl.inj (Except.ok.inj heq))
    exact length_strtok_lt hcall

/-- **Call by call** `parseHttp` and `print_headers` obtain the request that
they obtain in one go. -/
theorem yields_iff {request : HttpRequest} :
    (parsing abi).Yields input request ↔
      Connection.obtainRequest input.1 input.2 = .ok request := by
  refine ⟨obtainRequest_of_yields, fun h => ?_⟩
  have hends : (∃ request, (parsing abi).Yields input request) ∨
      ∃ fault, (parsing abi).Fails input fault := by
    cases hstart : (parsing abi).start input with
    | error fault => exact .inr ⟨fault, .inl hstart⟩
    | ok next => exact (Routine.Reached.start hstart).ends fun _ _ _ _ _ => resume_parsing_lt
  rcases hends with ⟨request', hyields⟩ | ⟨fault, hfails⟩
  · obtain rfl := Except.ok.inj ((obtainRequest_of_yields hyields).symm.trans h)
    exact hyields
  · rw [obtainRequest_of_fails hfails] at h
    cases h

end

/-! ## The server with its threads -/

/-- The connections, and the work items under way, by connection. -/
structure WorkerState (abi : Abi) where
  connections : List Connection
  items : Tasks (Locals abi × List Char) (ParseState abi) (List Char)

/-- libuv's loop runs a callback, a thread begins `process_command` of a
connection, with its `strtok` at `position`, or goes on with it. -/
inductive WorkerEvent (abi : Abi) where
  | loop (e : Event abi)
  | start (i position : Nat) (locals : Locals abi)
  | resume (i : Nat)

/-- Everything but `process_command` runs on the loop. -/
def Event.onLoop : Event abi → Bool
  | .callback _ (.processCommand _) => false
  | _ => true

/-- The end of `process_command`, with the request obtained. -/
def Connection.respond (c : Connection) (request : HttpRequest) : Except Fault Connection := do
  let data ← c.deref
  .ok { c with
        data := some { data with response := some responseText }
        parsed := some request
        work := .ran }

namespace WorkerState

variable (s : WorkerState abi)

/-- `process_command` up to its second call of `strtok`. -/
def start (i position : Nat) (locals : Locals abi) : Except Fault (WorkerState abi) :=
  match s.connections[i]? with
  | none => .ok s
  | some c => do
    let data ← c.deref
    match data.text with
    | none => .error .nullPointer
    | some text => do
      let items ← s.items.start (parsing abi) i position (locals, text)
      .ok { s with items }

/-- `process_command` up to its next call of `strtok`, or to its end. -/
def resume (i : Nat) : Except Fault (WorkerState abi) := do
  let (items, result) ← s.items.resume (parsing abi) i
  match result with
  | none => .ok { s with items }
  | some request =>
    match s.connections[i]? with
    | none => .ok { s with items }
    | some c => do
      let c ← c.respond request
      .ok { connections := s.connections.set i c, items }

end WorkerState

/-- The server whose work items run call by call of `strtok`. -/
def workers (abi : Abi) : System (WorkerState abi) (WorkerEvent abi) Fault where
  init := { connections := [], items := .idle }
  Enabled s
    | .loop e => e.onLoop = true ∧ (server abi).Enabled s.connections e
    | .start i _ _ =>
      s.items.running i = none ∧ ∃ c, s.connections[i]? = some c ∧ c.work = .queued
    | .resume i => (s.items.running i).isSome = true
  step s
    | .loop e => do
      let connections ← (server abi).step s.connections e
      .ok { s with connections }
    | .start i position locals => s.start i position locals
    | .resume i => s.resume i

/-- No item begins while another one uses its position. -/
def Exclusive (s : WorkerState abi) : WorkerEvent abi → Prop
  | .start _ position _ => ∀ j item, s.items.running j = some item → item.register ≠ position
  | _ => True

/-- The events lead the server from its start to this state; no two items
that overlapped had one position, and every step succeeded. -/
def WorkerRun (es : List (WorkerEvent abi)) (s : WorkerState abi) : Prop :=
  Path ((workers abi).Next Exclusive) (workers abi).init es s

/-! ## `process_command` as one step -/

/-- The events on the loop. -/
def loopEvents (es : List (WorkerEvent abi)) : List (Event abi) :=
  es.filterMap fun
    | .loop e => some e
    | _ => none

theorem loopEvents_append (es es' : List (WorkerEvent abi)) :
    loopEvents (es ++ es') = loopEvents es ++ loopEvents es' :=
  List.filterMap_append

theorem Callback.eq_of_action_process {cb : Callback abi} {locals : Locals abi}
    (h : cb.action = .process locals) : cb = .processCommand locals := by
  cases cb with
  | processCommand locals' => rw [Action.process.inj h]
  | readCb nread base rc =>
    rw [Callback.action] at h
    split_ifs at h
  | _ => cases h

/-- A connection whose work is queued has submitted its exchange. -/
theorem Implements.of_queued {c : Connection} {x : ClientExchange} (h : Implements c x)
    (hqueued : c.work = .queued) : ∃ timed received, x = .submitted timed received := by
  cases x with
  | submitted timed received => exact ⟨timed, received, rfl⟩
  | receiving reading received => exact nomatch h.1.work.symm.trans hqueued
  | processed timed made => exact nomatch h.2.1.symm.trans hqueued
  | answering made => exact nomatch h.1.work.symm.trans hqueued
  | abandoned timed made =>
    rcases h.1.work with hwork | hwork <;> exact nomatch hwork.symm.trans hqueued
  | closing client timer made => exact absurd hqueued h.1.work.1

/-- Until its work has run, a connection keeps what it received. -/
theorem Implements.submitted_step {c c' : Connection} {timed : Bool} {received : List Char}
    {cb : Callback abi} (h : Implements c (.submitted timed received))
    (hnext : Connection.Next Unrestricted c cb c') (hcb : ∀ locals, cb ≠ .processCommand locals) :
    ∃ timed', Implements c' (.submitted timed' received) := by
  obtain ⟨x', hx', h'⟩ := (connection_refines abi).forth h hnext
  generalize haction : cb.action = action at hx'
  cases hx' with
  | expireSubmitted _ => exact ⟨false, h'⟩
  | process _ _ => exact absurd (Callback.eq_of_action_process haction) (hcb _)

/-- The connection's work is to run, and on this text. -/
def Awaits (connections : List Connection) (i : Nat) (text : List Char) : Prop :=
  ∃ c timed received, connections[i]? = some c ∧
    Implements c (.submitted timed received) ∧ text = received ++ [nul]

theorem deref_ok_iff {c : Connection} {data : ClientRequestData} :
    c.deref = .ok data ↔ c.data = some data := by
  unfold Connection.deref
  cases c.data with
  | none => exact iff_of_false nofun nofun
  | some data' => rw [Except.ok.injEq, Option.some.injEq]

/-- `process_command` in one step: what is obtained from the text, and the
answer. -/
theorem processCommand_ok_iff {c c' : Connection} {locals : Locals abi} :
    c.processCommand locals = .ok c' ↔ ∃ data text request, c.data = some data ∧
      data.text = some text ∧ Connection.obtainRequest locals text = .ok request ∧
        c.respond request = .ok c' := by
  constructor
  · intro h
    obtain ⟨data, hderef, h⟩ := bind_ok_iff.mp h
    have hdata := deref_ok_iff.mp hderef
    cases htext : data.text with
    | none =>
      rw [htext] at h
      cases h
    | some text =>
      rw [htext] at h
      obtain ⟨request, hrequest, heq⟩ := bind_ok_iff.mp h
      exact ⟨data, text, request, hdata, htext, hrequest,
        bind_ok_iff.mpr ⟨data, hderef, by rw [← heq, htext]⟩⟩
  · intro h
    obtain ⟨data, text, request, hdata, htext, hrequest, hrespond⟩ := h
    rw [Connection.respond, Connection.deref_eq hdata, ok_bind] at hrespond
    rw [processCommand_eq hdata htext hrequest]
    exact hrespond

/-- Each connection of a run is at some stage of its exchange. -/
theorem exists_implements {es : List (Event abi)} {connections : List Connection}
    (h : ServerRun Unrestricted es connections) {i : Nat} {c : Connection}
    (hc : connections[i]? = some c) : ∃ x, Implements c x := by
  obtain ⟨exchanges, -, hrel⟩ := exists_exchangeRun h
  obtain ⟨hi, rfl⟩ := List.getElem?_eq_some_iff.mp hc
  exact ⟨_, hrel.get hi (hrel.length_eq ▸ hi)⟩

/-- Queued work awaits its text. -/
theorem exists_awaits {es : List (Event abi)} {connections : List Connection}
    (h : ServerRun Unrestricted es connections) {i : Nat} {c : Connection}
    (hc : connections[i]? = some c) (hqueued : c.work = .queued) :
    ∃ data text, c.data = some data ∧ data.text = some text ∧ Awaits connections i text := by
  obtain ⟨x, himplements⟩ := exists_implements h hc
  obtain ⟨timed, received, rfl⟩ := himplements.of_queued hqueued
  obtain ⟨data, hdata, htext⟩ := himplements.1.text himplements.2.2.2.2
  exact ⟨data, _, hdata, htext, c, timed, received, hc, himplements, rfl⟩

section

variable {connections connections' : List Connection} {i : Nat}

/-- The loop leaves the text of work that is to run alone. -/
theorem Awaits.loop {text : List Char} (h : Awaits connections i text) {e : Event abi}
    (hloop : e.onLoop = true)
    (hnext : (server abi).Next (EachAllowed Unrestricted) connections e connections') :
    Awaits connections' i text := by
  obtain ⟨c, timed, received, hc, hsubmitted, htext⟩ := h
  obtain ⟨hi, -⟩ := List.getElem?_eq_some_iff.mp hc
  rw [next_iff_poolNext] at hnext
  cases e with
  | connectionCb status acceptRc readStartRc =>
    cases hnext with
    | enter _ =>
      exact ⟨c, timed, received, (List.getElem?_append_left hi).trans hc, hsubmitted, htext⟩
  | callback j cb =>
    cases hnext with
    | @act _ _ d d' hd hstep =>
      by_cases hji : j = i
      · subst hji
        obtain rfl := Option.some.inj (hc.symm.trans hd)
        have hcb : ∀ locals, cb ≠ .processCommand locals := by
          intro locals heq
          rw [heq] at hloop
          cases hloop
        obtain ⟨timed', hsubmitted'⟩ := hsubmitted.submitted_step hstep hcb
        exact ⟨d', timed', received, List.getElem?_set_self hi, hsubmitted', htext⟩
      · exact ⟨c, timed, received, (List.getElem?_set_ne hji).trans hc, hsubmitted, htext⟩

/-- So does another item that ends. -/
theorem Awaits.set {text : List Char} (h : Awaits connections i text) {j : Nat} (hji : j ≠ i)
    (c' : Connection) : Awaits (connections.set j c') i text := by
  obtain ⟨c, timed, received, hc, hsubmitted, htext⟩ := h
  exact ⟨c, timed, received, (List.getElem?_set_ne hji).trans hc, hsubmitted, htext⟩

/-- The last call of an item does what `process_command` does in one step. -/
theorem Awaits.respond {input : Locals abi × List Char} (h : Awaits connections i input.2)
    {request : HttpRequest} (hyields : (parsing abi).Yields input request) :
    ∃ c c', connections[i]? = some c ∧ c.respond request = .ok c' ∧
      (server abi).Next (EachAllowed Unrestricted) connections
        (.callback i (.processCommand input.1)) (connections.set i c') := by
  obtain ⟨c, timed, received, hc, hsubmitted, htext⟩ := h
  obtain ⟨data, hdata, hsome⟩ := hsubmitted.1.text hsubmitted.2.2.2.2
  have hrequest := yields_iff.mp hyields
  rw [htext] at hrequest
  have hrespond : c.respond request =
      .ok { c with data := some { data with response := some Connection.responseText }
                   parsed := some request, work := .ran } := by
    simp only [Connection.respond, Connection.deref_eq hdata, ok_bind]
  exact ⟨c, _, hc, hrespond, next_iff_poolNext.mpr
    (.act hc ⟨hsubmitted.2.1, trivial, processCommand_eq hdata hsome hrequest⟩)⟩

end

/-- These events, with `process_command` as one step, lead the server to the
same connections. On the loop they are the same, and each `process_command`
was begun. The items under way are apart, and each runs on the text of its
own connection. -/
structure Serialises (es : List (WorkerEvent abi)) (s : WorkerState abi)
    (es' : List (Event abi)) : Prop where
  run : ServerRun Unrestricted es' s.connections
  loop : es'.filter Event.onLoop = loopEvents es
  began : ∀ i locals, .callback i (.processCommand locals) ∈ es' →
    ∃ position, .start i position locals ∈ es
  apart : s.items.Apart (parsing abi)
  items : ∀ i item, s.items.running i = some item →
    .start i item.register item.input.1 ∈ es ∧ Awaits s.connections i item.input.2

section

variable {es : List (WorkerEvent abi)} {s s' : WorkerState abi} {es' : List (Event abi)}

theorem Serialises.began_append (h : Serialises es s es') (e : WorkerEvent abi) {i : Nat}
    {locals : Locals abi} (hmem : .callback i (.processCommand locals) ∈ es') :
    ∃ position, .start i position locals ∈ es ++ [e] := by
  obtain ⟨position, hstart⟩ := h.began i locals hmem
  exact ⟨position, List.mem_append_left _ hstart⟩

theorem Serialises.step_loop (h : Serialises es s es') {e : Event abi}
    (hnext : (workers abi).Next Exclusive s (.loop e) s') :
    Serialises (es ++ [.loop e]) s' (es' ++ [e]) := by
  obtain ⟨⟨hloop, henabled⟩, -, hstep⟩ := hnext
  obtain ⟨connections, hconnections, heq⟩ := bind_ok_iff.mp hstep
  obtain rfl := Except.ok.inj heq
  have hserver : (server abi).Next (EachAllowed Unrestricted) s.connections e connections :=
    ⟨henabled, eachAllowed_unrestricted _ _, hconnections⟩
  refine ⟨h.run.concat hserver, ?_, ?_, h.apart, fun i item hi => ?_⟩
  · rw [List.filter_append, h.loop, loopEvents_append, List.filter_cons_of_pos hloop]
    rfl
  · intro i locals hmem
    rcases List.mem_append.mp hmem with hmem | hmem
    · exact h.began_append _ hmem
    · obtain rfl := List.mem_singleton.mp hmem
      cases hloop
  · obtain ⟨hstart, hawaits⟩ := h.items i item hi
    exact ⟨List.mem_append_left _ hstart, hawaits.loop hloop hserver⟩

theorem Serialises.step_start (h : Serialises es s es') {i position : Nat} {locals : Locals abi}
    (hnext : (workers abi).Next Exclusive s (.start i position locals) s') :
    Serialises (es ++ [.start i position locals]) s' es' := by
  obtain ⟨⟨-, c, hc, hqueued⟩, hfree, hstep⟩ := hnext
  obtain ⟨data, text, hdata, htext, hawaits⟩ := exists_awaits h.run hc hqueued
  replace hstep : s.start i position locals = .ok s' := hstep
  simp only [WorkerState.start, hc, Connection.deref_eq hdata, ok_bind, htext] at hstep
  obtain ⟨items, hitems, heq⟩ := bind_ok_iff.mp hstep
  obtain rfl := Except.ok.inj heq
  refine ⟨h.run, ?_, fun j locals' => h.began_append _, h.apart.start hfree hitems,
    fun j item hj => ?_⟩
  · rw [h.loop, loopEvents_append]
    exact (List.append_nil _).symm
  · rcases Tasks.running_of_start hitems hj with ⟨rfl, rfl, hinput⟩ | hold
    · rw [hinput]
      exact ⟨List.mem_append_right _ (List.mem_singleton_self _), hawaits⟩
    · obtain ⟨hstart, hawaits'⟩ := h.items j item hold
      exact ⟨List.mem_append_left _ hstart, hawaits'⟩

/-- A call that ends its item is the `process_command` of its connection. -/
theorem Serialises.step_resume (h : Serialises es s es') {i : Nat}
    (hnext : (workers abi).Next Exclusive s (.resume i) s') :
    ∃ es'', Serialises (es ++ [.resume i]) s' es'' := by
  obtain ⟨hsome, -, hstep⟩ := hnext
  obtain ⟨item, hi⟩ := Option.isSome_iff_exists.mp hsome
  replace hstep : s.resume i = .ok s' := hstep
  obtain ⟨⟨items, result⟩, hitems, hrest⟩ := bind_ok_iff.mp hstep
  have hapart := h.apart.resume hi hitems
  have hold : ∀ j item', items.running j = some item' → (j = i → result = none) ∧
      .start j item'.register item'.input.1 ∈ es ++ [.resume i] ∧
        Awaits s.connections j item'.input.2 := by
    intro j item' hj
    obtain ⟨hover, old, hold, hregister, hinput⟩ := h.apart.running_of_resume hi hitems hj
    obtain ⟨hstart, hawaits⟩ := h.items j old hold
    rw [hregister, hinput]
    exact ⟨hover, List.mem_append_left _ hstart, hawaits⟩
  obtain ⟨hstart, hawaits⟩ := h.items i item hi
  rcases h.apart.resume_cases hi hitems with ⟨-, -, -, -, -, rfl, -⟩ | ⟨request, hyields, rfl, -⟩
  · obtain rfl := Except.ok.inj hrest
    refine ⟨es', h.run, ?_, fun j locals => h.began_append _, hapart, fun j item' hj =>
      (hold j item' hj).2⟩
    rw [h.loop, loopEvents_append]
    exact (List.append_nil _).symm
  · obtain ⟨c, c', hc, hrespond, hserver⟩ := hawaits.respond hyields
    simp only [hc, hrespond, ok_bind] at hrest
    obtain rfl := Except.ok.inj hrest
    refine ⟨es' ++ [.callback i (.processCommand item.input.1)], h.run.concat hserver, ?_,
      fun j locals hmem => ?_, hapart, fun j item' hj => ?_⟩
    · rw [List.filter_append, h.loop, loopEvents_append]
      rfl
    · rcases List.mem_append.mp hmem with hmem | hmem
      · exact h.began_append _ hmem
      · cases List.mem_singleton.mp hmem
        exact ⟨item.register, List.mem_append_left _ hstart⟩
    · obtain ⟨hover, hstart', hawaits'⟩ := hold j item' hj
      exact ⟨hstart', hawaits'.set (fun hij => nomatch hover hij.symm) c'⟩

theorem Serialises.step (h : Serialises es s es') {e : WorkerEvent abi}
    (hnext : (workers abi).Next Exclusive s e s') : ∃ es'', Serialises (es ++ [e]) s' es'' := by
  cases e with
  | loop e => exact ⟨_, h.step_loop hnext⟩
  | start i position locals => exact ⟨_, h.step_start hnext⟩
  | resume i => exact h.step_resume hnext

end

/-- A run with exclusive items is a run with `process_command` as one step. -/
theorem exists_serialises {es : List (WorkerEvent abi)} {s : WorkerState abi}
    (h : WorkerRun es s) : ∃ es', Serialises es s es' := by
  have hwhole : ∀ {s t : WorkerState abi} {es}, Path ((workers abi).Next Exclusive) s es t →
      ∀ pre, (∃ es', Serialises pre s es') → ∃ es', Serialises (pre ++ es) t es' := by
    intro s t es hpath
    induction hpath with
    | nil s =>
      intro pre hstart
      rwa [List.append_nil]
    | @cons s t u e es hnext _ ih =>
      intro pre hstart
      obtain ⟨es', hes'⟩ := hstart
      rw [List.append_cons]
      exact ih _ (hes'.step hnext)
  refine hwhole h [] ⟨[], .nil _, rfl, fun _ _ hmem => absurd hmem List.not_mem_nil,
    Tasks.apart_idle, fun i item hi => ?_⟩
  cases hi

/-! ## One step as its calls -/

section

variable {s : WorkerState abi} (hquiet : ∀ j, s.items.running j = none) {i : Nat}
  {c : Connection} (hc : s.connections[i]? = some c) (hqueued : c.work = .queued)
  {data : ClientRequestData} (hdata : c.data = some data) {text : List Char}
  (htext : data.text = some text)

include hquiet hc hqueued hdata htext

/-- With nothing else under way, an item gets wherever its calls lead. -/
theorem exists_path_reached {locals : Locals abi} {state : ParseState abi} {saved : List Char}
    (h : (parsing abi).Reached (locals, text) state saved) :
    ∃ es items, Path ((workers abi).Next Exclusive) s es { s with items } ∧
      loopEvents es = [] ∧ items.Only i ⟨(locals, text), 0, state⟩ saved := by
  induction h with
  | start hstart =>
    obtain ⟨items, hitems, honly⟩ := Tasks.exists_start_only hquiet i 0 hstart
    have hstep : s.start i 0 locals = .ok { s with items } := by
      simp only [WorkerState.start, hc, Connection.deref_eq hdata, ok_bind, htext, hitems]
    have hfree : Exclusive s (.start i 0 locals) :=
      fun j item hj => nomatch (hquiet j).symm.trans hj
    exact ⟨[.start i 0 locals], items,
      .cons ⟨⟨hquiet i, c, hc, hqueued⟩, hfree, hstep⟩ (.nil _), rfl, honly⟩
  | resume hreached hresume ih =>
    obtain ⟨es, items, hpath, hloop, honly⟩ := ih
    obtain ⟨items', hitems, honly'⟩ := honly.exists_resume hreached hresume
    have hstep :
        ({ s with items } : WorkerState abi).resume i = .ok { s with items := items' } := by
      simp only [WorkerState.resume, hitems, ok_bind]
    have hnext : (workers abi).Next Exclusive
        { s with items } (.resume i) { s with items := items' } :=
      ⟨Option.isSome_iff_exists.mpr ⟨_, honly.running⟩, trivial, hstep⟩
    refine ⟨es ++ [.resume i], items', hpath.concat hnext, ?_, honly'⟩
    rw [loopEvents_append, hloop]
    rfl

/-- So it can be run from its first call to its last. -/
theorem exists_path_item {locals : Locals abi} {request : HttpRequest} {c' : Connection}
    (hyields : (parsing abi).Yields (locals, text) request)
    (hrespond : c.respond request = .ok c') :
    ∃ es items, Path ((workers abi).Next Exclusive) s es ⟨s.connections.set i c', items⟩ ∧
      loopEvents es = [] ∧ ∀ j, items.running j = none := by
  obtain ⟨state, saved, hreached, hresume⟩ := hyields
  obtain ⟨es, items, hpath, hloop, honly⟩ :=
    exists_path_reached hquiet hc hqueued hdata htext hreached
  obtain ⟨items', hitems, hquiet'⟩ := honly.exists_end hreached hresume
  have hstep : ({ s with items } : WorkerState abi).resume i =
      .ok ⟨s.connections.set i c', items'⟩ := by
    simp only [WorkerState.resume, hitems, ok_bind, hc, hrespond]
  have hnext : (workers abi).Next Exclusive { s with items } (.resume i)
      ⟨s.connections.set i c', items'⟩ :=
    ⟨Option.isSome_iff_exists.mpr ⟨_, honly.running⟩, trivial, hstep⟩
  refine ⟨es ++ [.resume i], items', hpath.concat hnext, ?_, hquiet'⟩
  rw [loopEvents_append, hloop]
  rfl

end

/-- A step of the server is made by its own event, or by the calls of the
item it stands for. -/
theorem exists_path_step {s : WorkerState abi} (hquiet : ∀ j, s.items.running j = none)
    {e : Event abi} {connections : List Connection}
    (h : (server abi).Next (EachAllowed Unrestricted) s.connections e connections) :
    ∃ es items, Path ((workers abi).Next Exclusive) s es ⟨connections, items⟩ ∧
      loopEvents es = [e].filter Event.onLoop ∧ ∀ j, items.running j = none := by
  cases hloop : e.onLoop with
  | true =>
    refine ⟨[.loop e], s.items,
      .cons ⟨⟨hloop, h.1⟩, trivial, bind_ok_iff.mpr ⟨_, h.2.2, rfl⟩⟩ (.nil _), ?_, hquiet⟩
    rw [List.filter_cons_of_pos hloop]
    rfl
  | false =>
    rw [List.filter_cons_of_neg (by simp [hloop]), List.filter_nil]
    rw [next_iff_poolNext] at h
    cases e with
    | connectionCb status acceptRc readStartRc => cases hloop
    | callback i cb =>
      cases cb with
      | processCommand locals =>
        cases h with
        | act hc hnext =>
          obtain ⟨hqueued, -, hprocess⟩ := hnext
          obtain ⟨data, text, request, hdata, htext, hrequest, hrespond⟩ :=
            processCommand_ok_iff.mp hprocess
          exact exists_path_item hquiet hc hqueued hdata htext (yields_iff.mpr hrequest) hrespond
      | _ => cases hloop

/-- A run of the server is made by its events on the loop and the calls of
its items, one item after the other. -/
theorem exists_path_workers {connections connections' : List Connection} {es : List (Event abi)}
    (h : Path ((server abi).Next (EachAllowed Unrestricted)) connections es connections')
    {items : Tasks (Locals abi × List Char) (ParseState abi) (List Char)}
    (hquiet : ∀ j, items.running j = none) :
    ∃ es' items', Path ((workers abi).Next Exclusive) ⟨connections, items⟩ es'
      ⟨connections', items'⟩ ∧ loopEvents es' = es.filter Event.onLoop := by
  induction h generalizing items with
  | nil connections => exact ⟨[], items, .nil _, rfl⟩
  | cons hnext _ ih =>
    obtain ⟨es₁, items₁, hfirst, hloop, hquiet₁⟩ := exists_path_step (s := ⟨_, items⟩) hquiet hnext
    obtain ⟨es₂, items₂, hrest, hloop'⟩ := ih hquiet₁
    refine ⟨es₁ ++ es₂, items₂, hfirst.append hrest, ?_⟩
    rw [loopEvents_append, hloop, hloop', ← List.filter_append]
    rfl

/-- **Serialisation**: where no two items overlap on one position, the
server gets to the same connections by the same callbacks on its loop as
with `process_command` in one step. -/
theorem workers_serialise (abi : Abi) (loop : List (Event abi)) (connections : List Connection) :
    (∃ es s, WorkerRun es s ∧ loopEvents es = loop ∧ s.connections = connections) ↔
      ∃ es, ServerRun Unrestricted es connections ∧ es.filter Event.onLoop = loop := by
  constructor
  · intro h
    obtain ⟨es, s, hrun, hloop, hconnections⟩ := h
    obtain ⟨es', hes'⟩ := exists_serialises hrun
    exact ⟨es', hconnections ▸ hes'.run, hes'.loop.trans hloop⟩
  · intro h
    obtain ⟨es, hrun, hloop⟩ := h
    have hidle : ∀ j, ((workers abi).init).items.running j = none := fun _ => rfl
    obtain ⟨es', items, hpath, hloop'⟩ := exists_path_workers hrun hidle
    exact ⟨es', _, hpath, hloop'.trans hloop, rfl⟩

end CWebServer.Server
