/-
CWebServer.Server.ReadErrors — what `read_cb` does with a negative count.

libuv reports every failure of a read as a negative `nread`. `read_cb`
knows two of them, `-1` and `UV_EOF`, and ends the connection there. Any
other falls through to the copy, which takes the count as a length: it is
converted to a size that no block has. So the connection ends exactly at
the two counts the source names, in whatever state it is read
(`readCb_ends_iff`).

A step that faults leads nowhere, so runs need no condition on their reads
(`good_of_reaches_any`).

No `sorry`, no `axiom`, no `native_decide`.
-/
import CWebServer.Server.Lifecycle

namespace CWebServer.Server

open Libc Runs

variable {abi : Abi}

/-! ## Reads that succeed -/

/-- `read_cb` succeeds on no count but those the source tells apart. -/
theorem knownRead_of_step {c c' : Connection} {callback : Callback abi}
    (h : c.step callback = .ok c') : callback.KnownRead := by
  cases callback with
  | readCb nread base rc =>
    by_cases hend : nread = -1 ∨ nread = Connection.uvEof
    · exact .inr hend
    · obtain ⟨data, -, h⟩ := bind_ok_iff.mp h
      rw [if_neg hend] at h
      obtain ⟨data', hread, -⟩ := bind_ok_iff.mp h
      exact .inl (readChunk_nonneg hread)
  | clientTimeoutCb => trivial
  | processCommand locals => trivial
  | afterProcessCommand rc => trivial
  | onWriteEnd => trivial
  | onCloseFreeClient => trivial
  | onCloseFreeTimer => trivial

theorem good_of_reaches_any {connections : List Connection}
    (h : Reaches (server abi) (fun _ _ => True) connections) : ∀ c ∈ connections, Good c := by
  refine good_of_reaches (h.mono fun s e s' henabled _ hstep => ?_)
  cases e with
  | connectionCb status acceptRc readStartRc => trivial
  | callback i cb =>
    obtain ⟨c, hc, -⟩ := henabled
    simp only [server, hc] at hstep
    obtain ⟨c', hc', -⟩ := bind_ok_iff.mp hstep
    exact knownRead_of_step hc'

/-! ## The end of a connection -/

/-- From `c` to `c'` the timer was stopped and `close_data` called, once, on
the data as it was, and no work was started. -/
structure Connection.Ends (c c' : Connection) : Prop where
  closes : ∃ data, c.data = some data ∧
    (c.uvTimerStop data.timer >>= fun c => c.closeData data) = .ok c'
  closeOnce : c.closeDataCalls = 0 ∧ c'.closeDataCalls = 1
  timer : ¬ c'.timer.Live
  work : c'.work = c.work ∧ c'.workItems = c.workItems

/-- A stream is read in the waiting phase only. -/
theorem Good.waiting_of_active {c : Connection} (h : Good c) (hactive : c.client = .active) :
    Waiting c := by
  rcases h with h | h | h | h | h
  · exact h
  · exact nomatch h.client.symm.trans hactive
  · exact nomatch h.client.symm.trans hactive
  · exact nomatch h.client.symm.trans hactive
  · exact absurd (Or.inr hactive) h.client

theorem Waiting.ends {c : Connection} (h : Waiting c) {nread : Int}
    (hend : nread = -1 ∨ nread = Connection.uvEof) (base : List Char) (rc : Int) :
    ∃ c', c.readCb nread base rc = .ok c' ∧ c.Ends c' := by
  obtain ⟨data, hholds, -⟩ := h.data
  obtain ⟨c', heq, hclosed⟩ := h.stop_close hholds
  rw [← hholds.timer] at heq
  have hwork : c'.work = c.work ∧ c'.workItems = c.workItems := by
    obtain ⟨stopped, hstop, hclose⟩ := bind_ok_iff.mp heq
    rw [hholds.timer, Connection.uvTimerStop_eq (.inr h.timer)] at hstop
    obtain rfl := Except.ok.inj hstop
    rw [Connection.closeData_eq (c := { c with timer := .idle }) hholds.client hholds.timer
      h.client (.inl rfl) (by simp [h.work]) (by simp [h.work]) (by simp [h.write])] at hclose
    obtain rfl := Except.ok.inj hclose
    exact ⟨rfl, rfl⟩
  refine ⟨c', ?_, ⟨data, hholds.eq, heq⟩, ⟨h.counts.1, hclosed.counts.1⟩, hclosed.timer, hwork⟩
  rw [← heq]
  simp only [Connection.readCb, hholds.deref, if_pos hend, bind, Except.bind]

/-- **Read errors**: wherever a connection is read, `read_cb` ends it on a
negative count exactly when the count is `-1` or `UV_EOF`. -/
theorem readCb_ends_iff (abi : Abi) {connections : List Connection}
    (h : Reaches (server abi) (fun _ _ => True) connections) {c : Connection}
    (hc : c ∈ connections) (hactive : c.client = .active) {nread : Int} (hneg : nread < 0)
    (base : List Char) (rc : Int) :
    (∃ c', c.readCb nread base rc = .ok c' ∧ c.Ends c') ↔
      nread = -1 ∨ nread = Connection.uvEof := by
  constructor
  · intro hends
    obtain ⟨c', hread, -⟩ := hends
    have hknown : (Callback.readCb nread base rc : Callback abi).KnownRead :=
      knownRead_of_step hread
    exact Or.resolve_left hknown (by omega)
  · intro hend
    exact ((good_of_reaches_any h c hc).waiting_of_active hactive).ends hend base rc

/-- A client just accepted that resets the connection. -/
theorem connection_reset_faults :
    let abi : Abi := ⟨4, by decide⟩
    let reset : Int := -4077
    Reaches (server abi) (fun _ _ => True) [acceptedConnection 0] ∧
      (acceptedConnection 0).client = .active ∧ reset < 0 ∧
      (acceptedConnection 0).readCb reset [] 0 = .error (.outOfBounds 0) ∧
      ¬ ∃ c', (acceptedConnection 0).readCb reset [] 0 = .ok c' ∧
        (acceptedConnection 0).Ends c' := by
  intro abi reset
  have hconnects : (server abi).Enabled (server abi).init (.connectionCb 0 0 0) := trivial
  refine ⟨.step .init hconnects trivial rfl, rfl, by decide, rfl, ?_⟩
  intro hends
  obtain ⟨c', hread, -⟩ := hends
  exact nomatch hread

/-- One that goes away is closed. -/
theorem readCb_ends_iff_eof :
    (∃ c', (acceptedConnection 0).readCb Connection.uvEof [] 0 = .ok c' ∧
        (acceptedConnection 0).Ends c') ↔
      Connection.uvEof = -1 ∨ Connection.uvEof = Connection.uvEof := by
  let abi : Abi := ⟨4, by decide⟩
  have hconnects : (server abi).Enabled (server abi).init (.connectionCb 0 0 0) := trivial
  have haccepted : Reaches (server abi) (fun _ _ => True) [acceptedConnection 0] :=
    .step .init hconnects trivial rfl
  exact readCb_ends_iff abi haccepted (List.mem_singleton_self _) rfl (by decide) [] 0

end CWebServer.Server
