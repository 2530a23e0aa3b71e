/-
CWebServer.Server.Isolation — what a client's work is about.

All connections share one loop and one thread pool. Still, whatever else
the loop runs in between, `process_command` finds in a connection's text
what that connection's own reads brought, and nothing else; and what it
obtains and prints is made of that (`server_isolates`). The exchanges carry
the argument: each holds what its own actions brought (`Exchange.Holds`).

`server_isolates` takes `process_command` for one step. Call by call it is
the same as long as no two work items overlap on one position of `strtok`
(`workers_isolate`): with one for each thread, or one item at a time. On
one position for all, items that overlap mix the clients' requests
(`overlapping_items_mix`).

No `sorry`, no `axiom`, no `native_decide`.
-/
import CWebServer.Server.Report
import CWebServer.Server.Workers

namespace CWebServer.Server

open Libc Http Runs

variable {abi : Abi}

/-! ## What reached a connection -/

/-- The bytes of a read that brings some. -/
def Callback.bytes : Callback abi → List Char
  | .readCb nread base _ => if nread < 0 then [] else base.take nread.toNat
  | _ => []

/-- The bytes that the reads of connection `i` brought. -/
def bytesOf (i : Nat) (es : List (Event abi)) : List Char :=
  (own i (es.map Event.view)).flatMap Callback.bytes

theorem bytes_action (cb : Callback abi) : cb.action.bytes = cb.bytes := by
  cases cb with
  | readCb nread base rc =>
    rw [Callback.action, Callback.bytes]
    split_ifs <;> rfl
  | _ => rfl

theorem brought_actions (i : Nat) (es : List (Event abi)) :
    brought ((own i (es.map Event.view)).map Callback.action) = bytesOf i es := by
  rw [brought, bytesOf, List.flatMap_map]
  exact congrArg (fun f => List.flatMap f _) (funext bytes_action)

/-! ## What the exchanges hold -/

theorem newExchange_holds {x : Arrival} {y : ClientExchange} (h : newExchange x = some y) :
    y.Holds (connectionService abi) [] := by
  unfold newExchange at h
  split_ifs at h <;> obtain rfl := Option.some.inj h
  · rfl
  · exact fun r hr => nomatch hr

/-- In a run each connection is where an exchange is that holds what the
connection's reads brought. -/
theorem exists_holds {es : List (Event abi)} {connections : List Connection}
    (h : ServerRun Unrestricted es connections) {i : Nat} {c : Connection}
    (hc : connections[i]? = some c) : ∃ x, Implements c x ∧
      x.Holds (connectionService abi) ((own i (es.map Event.view)).map Callback.action) := by
  obtain ⟨exchanges, hrun, hrel⟩ := exists_exchangeRun h
  obtain ⟨hi, rfl⟩ := List.getElem?_eq_some_iff.mp hc
  have hx := List.getElem?_eq_getElem (hrel.length_eq ▸ hi)
  obtain ⟨x₀, hx₀, hpath⟩ := (path_pool_iff.mp hrun).origin hx
  obtain ⟨arrival, hnew⟩ := exists_of_mem_entered (List.mem_of_getElem? hx₀)
  rw [map_exchange, own_map] at hpath
  exact ⟨_, hrel.get hi _, (newExchange_holds hnew).path hpath⟩

section

variable {c : Connection} {x : ClientExchange} {acts : List (Action Char (Locals abi))}

/-- What `parseHttp` returned is made of what was brought. -/
theorem Implements.madeOf (h : Implements c x) (hx : x.Holds (connectionService abi) acts) :
    ∀ request ∈ c.parsed, MadeOf (connectionService abi) acts request := by
  intro request hrequest
  cases x with
  | receiving reading received => exact nomatch h.2.2.1.symm.trans hrequest
  | submitted timed received => exact nomatch h.2.2.2.1.symm.trans hrequest
  | processed timed made =>
    obtain rfl := Option.some.inj (h.2.2.2.1.symm.trans hrequest)
    exact hx
  | answering made =>
    obtain rfl := Option.some.inj (h.2.1.symm.trans hrequest)
    exact hx
  | abandoned timed made => exact hx request (h.2.2 ▸ hrequest)
  | closing client timer made => exact hx request (h.2.2.2 ▸ hrequest)

/-- The text of work that is queued is what was brought. -/
theorem Implements.queuedText (h : Implements c x) (hx : x.Holds (connectionService abi) acts)
    (hqueued : c.work = .queued) :
    ∃ data, c.data = some data ∧ data.text = some (brought acts ++ [nul]) := by
  obtain ⟨timed, received, rfl⟩ := h.of_queued hqueued
  obtain ⟨data, hdata, htext⟩ := h.1.text h.2.2.2.2
  rw [hx.1] at htext
  exact ⟨data, hdata, htext⟩

end

/-! ## The server -/

/-- **Isolation**: in any run, whatever happens to the others, what a
connection's work obtained from `parseHttp` it obtained from the bytes of
that connection's own reads; and where the work is still to run, the output
of `process_command` is defined whatever its locals hold exactly for
reportable bytes, and is their report. -/
theorem server_isolates (abi : Abi) {es : List (Event abi)} {connections : List Connection}
    (h : ServerRun Unrestricted es connections) {i : Nat} {c : Connection}
    (hc : connections[i]? = some c) :
    (∀ request ∈ c.parsed, HoldsLineEnd (cstr (bytesOf i es)) ∧
      ∃ locals, .processCommand locals ∈ own i (es.map Event.view) ∧
        Connection.obtainRequest locals (bytesOf i es ++ [nul]) = .ok request) ∧
    (c.work = .queued → ∃ data, c.data = some data ∧
      ((∀ locals : Locals abi, ∃ out, processCommandOutput locals data = .ok out) ↔
        Reportable abi (bytesOf i es)) ∧
      (Reportable abi (bytesOf i es) → ∀ locals : Locals abi,
        processCommandOutput locals data = .ok (reportText (bytesOf i es)))) := by
  obtain ⟨x, himplements, hx⟩ := exists_holds h hc
  constructor
  · intro request hrequest
    obtain ⟨hready, locals, hmem, hparse⟩ := himplements.madeOf hx request hrequest
    obtain ⟨cb, hcb, haction⟩ := List.mem_map.mp hmem
    rw [brought_actions] at hready hparse
    rw [Callback.eq_of_action_process haction] at hcb
    exact ⟨hready, locals, hcb, parse_eq_some_iff.mp hparse⟩
  · intro hqueued
    obtain ⟨data, hdata, htext⟩ := himplements.queuedText hx hqueued
    rw [brought_actions] at htext
    exact ⟨data, hdata, forall_output_iff htext, fun hreportable => hreportable.output htext⟩

/-! ## The server with its threads -/

theorem bytesOf_filter (i : Nat) (es : List (Event abi)) :
    bytesOf i (es.filter Event.onLoop) = bytesOf i es := by
  induction es with
  | nil => rfl
  | cons e es ih =>
    cases hloop : e.onLoop with
    | true =>
      rw [List.filter_cons_of_pos hloop]
      cases e with
      | connectionCb status acceptRc readStartRc => exact ih
      | callback j cb =>
        simp only [bytesOf, List.map_cons, Event.view, own] at ih ⊢
        split_ifs
        · rw [List.flatMap_cons, List.flatMap_cons, ih]
        · exact ih
    | false =>
      rw [List.filter_cons_of_neg (by simp [hloop]), ih]
      cases e with
      | connectionCb status acceptRc readStartRc => cases hloop
      | callback j cb =>
        cases cb with
        | processCommand locals =>
          simp only [bytesOf, List.map_cons, Event.view, own]
          split_ifs
          · rfl
          · rfl
        | _ => cases hloop

theorem mem_of_mem_own {i : Nat} {cb : Callback abi} {es : List (Event abi)}
    (h : cb ∈ own i (es.map Event.view)) : .callback i cb ∈ es := by
  induction es with
  | nil => exact absurd h List.not_mem_nil
  | cons e es ih =>
    cases e with
    | connectionCb status acceptRc readStartRc => exact List.mem_cons_of_mem _ (ih h)
    | callback j cb' =>
      simp only [List.map_cons, Event.view, own] at h
      split_ifs at h with hji
      · subst hji
        rcases List.mem_cons.mp h with rfl | h
        · exact List.mem_cons_self
        · exact List.mem_cons_of_mem _ (ih h)
      · exact List.mem_cons_of_mem _ (ih h)

/-- The text of work that is to run is what was brought. -/
theorem Awaits.text_eq {connections : List Connection} {i : Nat} {text : List Char}
    (h : Awaits connections i text) {es : List (Event abi)}
    (hrun : ServerRun Unrestricted es connections) : text = bytesOf i es ++ [nul] := by
  obtain ⟨c, timed, received, hc, hsubmitted, rfl⟩ := h
  obtain ⟨x, himplements, hx⟩ := exists_holds hrun hc
  obtain ⟨data, hdata, hbrought⟩ := himplements.queuedText hx hsubmitted.2.1
  obtain ⟨data', hdata', hreceived⟩ := hsubmitted.1.text hsubmitted.2.2.2.2
  obtain rfl := Option.some.inj (hdata.symm.trans hdata')
  rw [hbrought, brought_actions, Option.some.injEq] at hreceived
  exact hreceived.symm

/-- What the item of connection `i` makes, prints and goes wrong with is
that of the bytes that the connection's own reads brought. -/
structure Isolated (es : List (WorkerEvent abi)) (s : WorkerState abi) (i : Nat)
    (c : Connection) : Prop where
  parsed : ∀ request ∈ c.parsed, HoldsLineEnd (cstr (bytesOf i (loopEvents es))) ∧
    ∃ position locals, .start i position locals ∈ es ∧
      Connection.obtainRequest locals (bytesOf i (loopEvents es) ++ [nul]) = .ok request
  report : c.work = .queued → ∃ data, c.data = some data ∧
    ((∀ locals : Locals abi, ∃ out, processCommandOutput locals data = .ok out) ↔
      Reportable abi (bytesOf i (loopEvents es))) ∧
    (Reportable abi (bytesOf i (loopEvents es)) → ∀ locals : Locals abi,
      processCommandOutput locals data = .ok (reportText (bytesOf i (loopEvents es))))
  start : c.work = .queued → ∀ position locals fault, s.start i position locals = .error fault →
    Connection.obtainRequest locals (bytesOf i (loopEvents es) ++ [nul]) = .error fault
  resume : ∀ fault, s.resume i = .error fault → ∃ position locals,
    .start i position locals ∈ es ∧
      Connection.obtainRequest locals (bytesOf i (loopEvents es) ++ [nul]) = .error fault

section

variable {es : List (WorkerEvent abi)} {s : WorkerState abi} {es' : List (Event abi)}
  (h : Serialises es s es')

include h

theorem Serialises.bytesOf_eq (i : Nat) : bytesOf i es' = bytesOf i (loopEvents es) := by
  rw [← bytesOf_filter, h.loop]

/-- A first call that goes wrong. -/
theorem Serialises.start_error {i : Nat} {c : Connection} (hc : s.connections[i]? = some c)
    (hqueued : c.work = .queued) {position : Nat} {locals : Locals abi} {fault : Fault}
    (hstart : s.start i position locals = .error fault) :
    Connection.obtainRequest locals (bytesOf i (loopEvents es) ++ [nul]) = .error fault := by
  obtain ⟨data, text, hdata, htext, hawaits⟩ := exists_awaits h.run hc hqueued
  simp only [WorkerState.start, hc, Connection.deref_eq hdata, ok_bind, htext] at hstart
  have hitems : s.items.start (parsing abi) i position (locals, text) = .error fault := by
    rcases bind_error_iff.mp hstart with hitems | ⟨_, -, hitems⟩
    · exact hitems
    · cases hitems
  rw [← h.bytesOf_eq, ← hawaits.text_eq h.run]
  exact obtainRequest_of_fails (.inl (Tasks.start_error_iff.mp hitems))

/-- A later one. -/
theorem Serialises.resume_error {i : Nat} {fault : Fault} (hresume : s.resume i = .error fault) :
    ∃ position locals, .start i position locals ∈ es ∧
      Connection.obtainRequest locals (bytesOf i (loopEvents es) ++ [nul]) = .error fault := by
  cases hi : s.items.running i with
  | none =>
    simp only [WorkerState.resume, Tasks.resume, hi, ok_bind] at hresume
    cases hresume
  | some item =>
    obtain ⟨hstart, hawaits⟩ := h.items i item hi
    rcases bind_error_iff.mp hresume with hitems | ⟨⟨items, result⟩, hitems, hrest⟩
    · refine ⟨item.register, item.input.1, hstart, ?_⟩
      rw [← h.bytesOf_eq, ← hawaits.text_eq h.run]
      exact obtainRequest_of_fails (h.apart.fails_of_resume hi hitems)
    · rcases h.apart.resume_cases hi hitems with
        ⟨-, -, -, -, -, rfl, -⟩ | ⟨request, hyields, rfl, -⟩
      · cases hrest
      · obtain ⟨c, c', hc, hrespond, -⟩ := hawaits.respond hyields
        simp only [hc, hrespond, ok_bind] at hrest
        cases hrest

end

/-- **Isolation**: in every run of the server with its threads in which no
two work items overlap on one position of `strtok`, the work of each
connection is about the bytes of that connection's own reads. -/
theorem workers_isolate (abi : Abi) {es : List (WorkerEvent abi)} {s : WorkerState abi}
    (h : WorkerRun es s) {i : Nat} {c : Connection} (hc : s.connections[i]? = some c) :
    Isolated es s i c := by
  obtain ⟨es', hes'⟩ := exists_serialises h
  obtain ⟨hparsed, hreport⟩ := server_isolates abi hes'.run hc
  rw [hes'.bytesOf_eq] at hparsed hreport
  refine ⟨fun request hrequest => ?_, hreport, fun hqueued position locals fault =>
    hes'.start_error hc hqueued, fun fault => hes'.resume_error⟩
  obtain ⟨hready, locals, hmem, hobtained⟩ := hparsed request hrequest
  obtain ⟨position, hstart⟩ := hes'.began i locals (mem_of_mem_own hmem)
  exact ⟨hready, position, locals, hstart, hobtained⟩

/-- Two clients connect, and their requests come in: `b` without a header,
and `a` with the header `H:v`. -/
def twoRequests (abi : Abi) : List (WorkerEvent abi) :=
  [.loop (.connectionCb 0 0 0), .loop (.connectionCb 0 0 0),
    .loop (.callback 0 (.readCb 3 ['b', '\n', '\n'] 0)),
    .loop (.callback 1 (.readCb 7 ['a', '\n', 'H', ':', 'v', '\n', '\n'] 0))]

/-- Both items at once, each with a position of its own: the first client
gets a request made of what it sent, while the second item is under way. -/
theorem workers_isolate_threads :
    let abi : Abi := ⟨4, by decide⟩
    let es := twoRequests abi ++
      [.start 0 0 (.fill abi nul), .start 1 1 (.fill abi nul), .resume 1, .resume 0]
    ∃ s c request, WorkerRun es s ∧ (s.items.running 1).isSome = true ∧
      s.connections[0]? = some c ∧ c.parsed = some request ∧
      ∃ position locals, .start 0 position locals ∈ es ∧
        Connection.obtainRequest locals ['b', '\n', '\n', nul] = .ok request := by
  intro abi es
  have hfirst : ∀ s : WorkerState abi, (∀ j, s.items.running j = none) →
      Exclusive s (.start 0 0 (.fill abi nul)) :=
    fun s hnone j item hj => nomatch (hnone j).symm.trans hj
  -- The other item under way has position 0.
  have hsecond : ∀ s : WorkerState abi, (∀ item ∈ s.items.running 0, item.register = 0) →
      (∀ j, s.items.running (j + 1) = none) → Exclusive s (.start 1 1 (.fill abi nul)) := by
    intro s hzero hnone j item hj
    rcases j with _ | j
    · rw [hzero item hj]
      exact Nat.zero_ne_one
    · exact nomatch (hnone j).symm.trans hj
  have hrun : ∃ s, WorkerRun es s ∧ (s.items.running 1).isSome = true ∧
      ∃ c request, s.connections[0]? = some c ∧ c.parsed = some request := by
    refine ⟨_, .cons ⟨⟨rfl, trivial⟩, trivial, rfl⟩ (.cons ⟨⟨rfl, trivial⟩, trivial, rfl⟩
      (.cons ⟨⟨rfl, _, rfl, rfl, by decide⟩, trivial, rfl⟩
      (.cons ⟨⟨rfl, _, rfl, rfl, by decide⟩, trivial, rfl⟩
      (.cons ⟨⟨rfl, _, rfl, rfl⟩, hfirst _ fun _ => rfl, rfl⟩
      (.cons ⟨⟨rfl, _, rfl, rfl⟩, hsecond _ (fun item hitem => ?_) fun _ => rfl, rfl⟩
      (.cons ⟨rfl, trivial, rfl⟩
      (.cons ⟨rfl, trivial, rfl⟩ (.nil _)))))))), rfl, _, _, rfl, rfl⟩
    exact congrArg Task.register (Option.some.inj hitem).symm
  obtain ⟨s, hrun, hrunning, c, request, hc, hrequest⟩ := hrun
  obtain ⟨-, position, locals, hstart, hobtained⟩ :=
    (workers_isolate abi hrun hc).parsed request hrequest
  exact ⟨s, c, request, hrun, hrunning, hc, hrequest, position, locals, hstart, hobtained⟩

/-- **Overlapping items** on one position: the first client's item finds
the second client's text there, and records its header. No locals obtain
such a request from what the first client sent. -/
theorem overlapping_items_mix :
    let abi : Abi := ⟨4, by decide⟩
    let es := twoRequests abi ++
      [.start 0 0 (.fill abi nul), .start 1 0 (.fill abi nul), .resume 0, .resume 0]
    ∃ s c request, Path ((workers abi).Next fun _ _ => True) (workers abi).init es s ∧
      s.connections[0]? = some c ∧ c.parsed = some request ∧
      request.headers.list = [(['H'], ['v'])] ∧ bytesOf 0 (loopEvents es) = ['b', '\n', '\n'] ∧
      ∀ locals : Locals abi,
        Connection.obtainRequest locals ['b', '\n', '\n', nul] ≠ .ok request := by
  intro abi es
  refine ⟨_, _, _, .cons ⟨⟨rfl, trivial⟩, trivial, rfl⟩ (.cons ⟨⟨rfl, trivial⟩, trivial, rfl⟩
    (.cons ⟨⟨rfl, _, rfl, rfl, by decide⟩, trivial, rfl⟩
    (.cons ⟨⟨rfl, _, rfl, rfl, by decide⟩, trivial, rfl⟩
    (.cons ⟨⟨rfl, _, rfl, rfl⟩, trivial, rfl⟩
    (.cons ⟨⟨rfl, _, rfl, rfl⟩, trivial, rfl⟩
    (.cons ⟨rfl, trivial, rfl⟩
    (.cons ⟨rfl, trivial, rfl⟩ (.nil _)))))))), rfl, rfl, rfl, rfl, fun locals h => ?_⟩
  have hlines : strtokPieces '\n' (cstr ['b', '\n', '\n', nul]) = [['b']] := by decide +kernel
  obtain ⟨-, hreads⟩ := of_parseHttp locals hlines (obtainRequest_ok_iff.mp h).1
  exact absurd hreads.count (by decide)

end CWebServer.Server
