/-
CWebServer.Server.Leaks — when the server's memory can all be given back.

A connection whose `uv_queue_work` or `uv_write` was refused is `Stranded`:
no callback will ever run `close_data` for it, so its blocks stay live in
every continuation. All others are gone within a few callbacks. So the heap
can still be emptied after a run exactly when nothing was refused in it
(`ledger_drains_iff`).

No `sorry`, no `axiom`, no `native_decide`.
-/
import CWebServer.Server.Memory

namespace CWebServer.Server

open Libc Http Runs

variable {abi : Abi}

/-! ## Runs in which nothing was refused -/

theorem Stranded.path {c d : Connection} {cbs : List (Callback abi)} (hc : Stranded c)
    (h : Path (Connection.Next Unrestricted) c cbs d) : Stranded d := by
  refine h.invariant (fun c cb c' hc hnext => ?_) hc
  obtain ⟨hp, -, hstep⟩ := hnext
  obtain ⟨d, hd, hstranded⟩ := hc.step hp
  exact Except.ok.inj (hstep.symm.trans hd) ▸ hstranded

/-- A stranded connection is there to the end. -/
theorem exists_stranded_of_path {connections next : List Connection} {es : List (Event abi)}
    (h : Path ((server abi).Next (EachAllowed Unrestricted)) connections es next) {c : Connection}
    (hc : c ∈ connections) (hstranded : Stranded c) : ∃ d ∈ next, Stranded d := by
  obtain ⟨i, hi⟩ := List.mem_iff_getElem?.mp hc
  have hstays : ∃ d, next[i]? = some d ∧ Stranded d := by
    refine h.invariant (P := fun cs => ∃ d : Connection, cs[i]? = some d ∧ Stranded d)
      (fun cs e ds hcs hstep => ?_) ⟨c, hi, hstranded⟩
    refine (next_iff_poolNext.mp hstep).keeps (fun c cb c' hc hnext => ?_) hcs
    exact hc.path (.cons hnext (.nil c'))
  obtain ⟨d, hd, hdstranded⟩ := hstays
  exact ⟨d, List.mem_of_getElem? hd, hdstranded⟩

/-- A connection that is not stranded in the end was refused nothing. -/
theorem Sound.served {c d : Connection} {cbs : List (Callback abi)} (hc : Sound c)
    (hd : ¬ Stranded d) (h : Path (Connection.Next Unrestricted) c cbs d) :
    Path (Connection.Next Connection.SubmissionSucceeds) c cbs d := by
  induction h with
  | nil c => exact .nil c
  | cons hnext hrest ih =>
    obtain ⟨hp, -, hstep⟩ := hnext
    obtain ⟨c', hc', ⟨hsubmits, hsound⟩ | ⟨-, hstranded⟩⟩ := hc.step hp
      (knownRead_of_step hstep) (requestObtained_of_step hstep)
    · obtain rfl := Except.ok.inj (hstep.symm.trans hc')
      exact .cons ⟨hp, hsubmits, hstep⟩ (ih hsound hd)
    · obtain rfl := Except.ok.inj (hstep.symm.trans hc')
      exact absurd (hstranded.path hrest) hd

theorem sound_newcomer {x : Arrival} {c : Connection} (h : newcomer x = some c) : Sound c := by
  unfold newcomer at h
  split_ifs at h <;> obtain rfl := Option.some.inj h
  · exact .inl (waiting_accepted x.readStartRc)
  · exact .inr (.inr (.inr closed_refused))

/-- Nothing was refused in a run that has stranded no connection. -/
theorem serverRun_served_iff {es : List (Event abi)} {connections : List Connection} :
    ServerRun Connection.SubmissionSucceeds es connections ↔
      ServerRun Unrestricted es connections ∧ ∀ c ∈ connections, ¬ Stranded c := by
  constructor
  · intro h
    obtain ⟨exchanges, -, hrel⟩ := (served_pool_refines abi).path .nil (path_iff_path_pool.mp h)
    refine ⟨path_unrestricted h, fun c hc => ?_⟩
    obtain ⟨x, -, hserves⟩ := exists_of_mem_left hrel hc
    exact (hserves.1.sound hserves.2).not_stranded
  · intro h
    obtain ⟨hrun, hnone⟩ := h
    have hinterleaves := path_pool_iff.mp (path_iff_path_pool.mp hrun)
    refine path_iff_path_pool.mpr (path_pool_iff.mpr
      ⟨hinterleaves.orderly, hinterleaves.length, fun i c d hc hd => ?_⟩)
    obtain ⟨x, hx⟩ := exists_of_mem_entered (List.mem_of_getElem? hc)
    exact (sound_newcomer hx).served (hnone d (List.mem_of_getElem? hd))
      (hinterleaves.each i c d hc hd)

/-- The exchanges of connections that are not stranded. -/
theorem forall₂_serves {connections : List Connection} {exchanges : List ClientExchange}
    (h : List.Forall₂ Implements connections exchanges) (hnone : ∀ c ∈ connections, ¬ Stranded c) :
    List.Forall₂ Serves connections exchanges := by
  induction h with
  | nil => exact .nil
  | cons hhead _ ih =>
    refine .cons ⟨hhead, fun habandoned => ?_⟩ (ih fun c hc => hnone c (List.mem_cons_of_mem _ hc))
    exact hnone _ List.mem_cons_self (hhead.stranded habandoned)

namespace Heap

/-! ## The ledger -/

/-- What is released has no block. -/
theorem blocks_of_released {h : HandleBlock} (hreleased : h.state.Released) : h.blocks = 0 := by
  unfold HandleBlock.blocks
  rcases hreleased with hfreed | habsent
  · rw [hfreed]
  · rw [habsent]

theorem blocks_of_freed {c : Connection} (h : c.erase.Freed) : c.blocks = 0 := by
  have hnone : c.data = none := by simpa [Connection.erase] using h.data
  have hclient : c.client.blocks = 0 := blocks_of_released h.client
  have htimer : c.timer.blocks = 0 := blocks_of_released h.timer
  rw [Connection.blocks, hnone, hclient, htimer]
  rfl

theorem total_of_freed {connections : List Connection}
    (h : ∀ c ∈ connections, c.erase.Freed) : total Connection.blocks connections = 0 := by
  induction connections with
  | nil => rfl
  | cons c connections ih =>
    rw [total, blocks_of_freed (h c List.mem_cons_self),
      ih fun d hd => h d (List.mem_cons_of_mem _ hd), add_zero]

/-- A connection with its data keeps a block. -/
theorem total_ne_zero {connections : List Connection} {c : Connection} (hc : c ∈ connections)
    (h : c.erase.data ≠ none) : total Connection.blocks connections ≠ 0 := by
  obtain ⟨i, hi⟩ := List.mem_iff_getElem?.mp hc
  obtain ⟨rest, hrest, -⟩ := exists_total_set Connection.blocks hi
  cases hdata : c.data with
  | none => exact absurd (by simp [Connection.erase, hdata]) h
  | some data =>
    intro hzero
    have hcard := congrArg Multiset.card (hrest.symm.trans hzero)
    simp [Connection.blocks, hdata, nullable, ClientRequestData.blocks] at hcard

/-- **Leaks**: after a run every block of the heap can still be given back
exactly when `uv_queue_work` and `uv_write` took all that they were given in
it, and `process_command` comes back from the work that is queued. -/
theorem ledger_drains_iff (abi : Abi) {es : List (Event abi)} {s : List Connection × Ledger}
    (h : HeapRun abi es s) :
    (∃ es' t, Path ((heapServer abi).Next fun _ _ => True) s es' t ∧ t.2.live = 0) ↔
      ServerRun Connection.SubmissionSucceeds es (s.1.map Connection.erase) ∧
        ∀ c ∈ s.1, ¬ c.erase.Stuck abi := by
  obtain ⟨hrun, hrel⟩ := h.represents
  obtain ⟨exchanges, -, himplements⟩ := exists_exchangeRun hrun
  rw [serverRun_served_iff]
  constructor
  · intro hdrains
    obtain ⟨es', t, hpath, hlive⟩ := hdrains
    obtain ⟨next, hnext, hrel'⟩ := (heap_refines abi).path hrel hpath
    rw [List.map_id] at hnext
    -- What keeps its data to the end keeps a block.
    have hkept : ∀ d ∈ next, d.data = none := by
      intro d hd
      rw [← hrel'.erase] at hd
      obtain ⟨d', hd', rfl⟩ := List.mem_map.mp hd
      by_contra hdata
      exact total_ne_zero hd' hdata (hrel'.live.symm.trans hlive)
    refine ⟨⟨hrun, fun c hc hstranded => ?_⟩, fun c hc hstuck => ?_⟩
    · obtain ⟨d, hd, hstranded'⟩ := exists_stranded_of_path hnext hc hstranded
      obtain ⟨data, hholds, -⟩ := hstranded'.data
      exact nomatch (hkept d hd).symm.trans hholds.eq
    · have hmem := List.mem_map_of_mem (f := Connection.erase) hc
      obtain ⟨x, -, hx⟩ := exists_of_mem_left himplements hmem
      obtain ⟨d, hd, hdstuck⟩ := exists_stuck_of_path hnext hmem hx hstuck
      obtain ⟨-, data, text, hdata, -⟩ := hdstuck
      exact nomatch (hkept d hd).symm.trans hdata
  · intro h
    obtain ⟨⟨-, hnone⟩, hback⟩ := h
    have hdrains : Drains abi (s.1.map Connection.erase) :=
      drains_of_serves (forall₂_serves himplements hnone)
    obtain ⟨es', next, hpath, -, hfreed⟩ := hdrains.frees.mpr fun c hc => by
      obtain ⟨d, hd, rfl⟩ := List.mem_map.mp hc
      exact hback d hd
    have hpath' : Path ((server abi).Next (EachAllowed Unrestricted)) (s.1.map Connection.erase)
        (es'.map id) next := by
      rw [List.map_id]
      exact path_unrestricted hpath
    obtain ⟨t, ht, hrel'⟩ := (heap_refines abi).path_back hrel (fun _ _ => trivial) hpath'
    refine ⟨es', t, ht, hrel'.live.trans (total_of_freed fun c hc => ?_)⟩
    exact hfreed c.erase (hrel'.erase ▸ List.mem_map_of_mem hc)

/-- The blocks of a client whose answer is in flight. -/
theorem ledger_drains_iff_answering :
    let abi : Abi := ⟨4, by decide⟩
    ∃ s, HeapRun abi (answering abi) s ∧ s.2.live ≠ 0 ∧
      ∃ es' t, Path ((heapServer abi).Next fun _ _ => True) s es' t ∧ t.2.live = 0 := by
  intro abi
  obtain ⟨request, hserved⟩ := exists_path_answering abi (by decide +kernel)
    fun (_ : List Server.Connection) _ he => eachAllowed_answering he
  obtain ⟨s, hs, herase⟩ := exists_heapRun (path_unrestricted hserved)
  obtain ⟨c, hlist, hc⟩ := List.map_eq_singleton_iff.mp herase
  refine ⟨s, hs, ?_, (ledger_drains_iff abi hs).mpr ⟨herase ▸ hserved, fun d hd hstuck => ?_⟩⟩
  · rw [hs.represents.2.live]
    exact total_ne_zero (hlist ▸ List.mem_singleton_self c) (by rw [hc]; nofun)
  · rw [hlist, List.mem_singleton] at hd
    rw [hd, hc] at hstuck
    exact nomatch hstuck.1

end Heap

end CWebServer.Server
