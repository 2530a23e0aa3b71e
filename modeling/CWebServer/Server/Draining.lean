/-
CWebServer.Server.Draining — how much is still to come for the clients the
server has.

Reads with a count of zero or more apart, a connection gets at most six
callbacks in its life (`callbacks_bounded`): a timeout, the two halves of
the work, the end of the write and two close callbacks. Hence, as long as
libuv takes what the source submits, the server gets rid of its clients by
itself: any callbacks but those reads, in any order, come to an end after at
most six for each client, and they end only where everything is freed or work is
queued on a text that `process_command` does not come back from, whatever
its locals hold (`server_drains`).

Served connections, those with no failing submission, correspond to
exchanges that are not abandoned (`connection_served_refines`), and the
rank of an exchange does the counting.

No `sorry`, no `axiom`, no `native_decide`.
-/
import CWebServer.Server.Lives
import CWebServer.Server.Report
import CWebServer.Server.Stranding

namespace CWebServer.Server

open Libc Http Runs

variable {abi : Abi}

/-- Any callback but a read with a count of zero or more. -/
def Callback.internal (cb : Callback abi) : Bool := cb.action.internal

def Event.Internal (e : Event abi) : Prop := e.view.IsAct fun cb => cb.internal = true

/-- **Few callbacks**: in any run each connection gets any number of reads
with `nread >= 0` and at most six other callbacks. -/
theorem callbacks_bounded (abi : Abi) {es : List (Event abi)} {connections : List Connection}
    (h : ServerRun Unrestricted es connections) {i : Nat} (hi : i < connections.length) :
    (own i (es.map Event.view)).countP Callback.internal ≤ 6 := by
  obtain ⟨exchanges, hrun, hrel⟩ := exists_exchangeRun h
  have hx := List.getElem?_eq_getElem (hrel.length_eq ▸ hi)
  obtain ⟨x₀, -, hpath⟩ := (path_pool_iff.mp hrun).origin hx
  rw [map_exchange, own_map] at hpath
  have hcount := hpath.countP_add_rank_le fun _ _ _ hnext => hnext.rank_le
  rw [List.countP_map] at hcount
  have hrank := x₀.rank_le
  have hsame : (own i (es.map Event.view)).countP (Action.internal ∘ Callback.action) =
      (own i (es.map Event.view)).countP Callback.internal := rfl
  omega

/-- A client that connects and is timed out. -/
theorem callbacks_bounded_timeout :
    let abi : Abi := ⟨4, by decide⟩
    let es : List (Event abi) := [.connectionCb 0 0 0, .callback 0 .clientTimeoutCb]
    (own 0 (es.map Event.view)).countP Callback.internal ≤ 6 := by
  intro abi es
  have hrun : ServerRun Unrestricted es [(acceptedConnection 0).closed] :=
    .cons ⟨trivial, trivial, rfl⟩ (.cons ⟨⟨_, rfl, rfl⟩, fun _ _ => trivial, rfl⟩ (.nil _))
  exact callbacks_bounded abi hrun (by decide : 0 < 1)

/-! ## Served connections -/

theorem Sound.not_stranded {c : Connection} (h : Sound c) : ¬ Stranded c :=
  fun hstranded => hstranded.not_armed (h.armed hstranded.counts.1)

theorem Implements.sound {c : Connection} {x : ClientExchange} (h : Implements c x)
    (hx : ¬ x.IsAbandoned) : Sound c := by
  cases x with
  | receiving reading received => exact .inl h.1
  | submitted timed received => exact .inr (.inl h.1)
  | processed timed request => exact .inr (.inl h.1)
  | answering request => exact .inr (.inr (.inl h.1))
  | abandoned timed request => exact absurd trivial hx
  | closing client timer request => exact .inr (.inr (.inr h.1))

theorem Implements.stranded {c : Connection} {x : ClientExchange} (h : Implements c x)
    (hx : x.IsAbandoned) : Stranded c := by
  cases x with
  | abandoned timed request => exact h.1
  | _ => exact hx.elim

/-- A served exchange, and the connection that implements it. -/
def Serves (c : Connection) (x : ClientExchange) : Prop := Implements c x ∧ ¬ x.IsAbandoned

theorem connection_served_refines (abi : Abi) :
    Refinement (Connection.Next Connection.SubmissionSucceeds)
      (Exchange.NextServed (connectionService abi)) Callback.Offered Callback.action Serves where
  forth := by
    intro c c' x cb h hnext
    obtain ⟨himplements, hx⟩ := h
    obtain ⟨hp, hsubmits, hstep⟩ := hnext
    have hknown := knownRead_of_step hstep
    have hobtained := requestObtained_of_step hstep
    obtain ⟨d, x', hd, hx', hd'⟩ := himplements.step hp hknown hobtained
    obtain rfl := Except.ok.inj (hstep.symm.trans hd)
    have hserved : ¬ x'.IsAbandoned := by
      intro habandoned
      obtain ⟨d, hd, ⟨-, hsound⟩ | ⟨hfails, -⟩⟩ := (himplements.sound hx).step hp hknown hobtained
      · obtain rfl := Except.ok.inj (hstep.symm.trans hd)
        exact hsound.not_stranded (hd'.stranded habandoned)
      · exact hfails hsubmits
    exact ⟨x', ⟨hx', hserved⟩, hd', hserved⟩
  back := by
    intro c x x' cb h hoffered hnext
    obtain ⟨himplements, hx⟩ := h
    obtain ⟨hx', hserved⟩ := hnext
    obtain ⟨c', ⟨hp, -, hstep⟩, hc'⟩ := (connection_refines abi).back himplements hoffered hx'
    obtain ⟨d, hd, ⟨hsubmits, -⟩ | ⟨-, hstranded⟩⟩ :=
      (himplements.sound hx).step hp hoffered.knownRead (himplements.requestObtained hx')
    · exact ⟨c', ⟨hp, hsubmits, hstep⟩, hc', hserved⟩
    · obtain rfl := Except.ok.inj (hstep.symm.trans hd)
      exact absurd hstranded (hc'.sound hserved).not_stranded

theorem newcomer_serves (x : Arrival) : Option.Rel Serves (newcomer x) (newExchange x) := by
  have h := newcomer_implements x
  have hnew : ∀ y, newExchange x = some y → ¬ y.IsAbandoned := by
    intro y hy
    unfold newExchange at hy
    split_ifs at hy <;> obtain rfl := Option.some.inj hy <;> exact id
  generalize newcomer x = o at h
  generalize newExchange x = p at h hnew
  cases h with
  | none => exact .none
  | some h => exact .some ⟨h, hnew _ rfl⟩

theorem eachAllowed_answering {s : List Connection} {e : Event abi} (he : e ∈ answering abi) :
    EachAllowed Connection.SubmissionSucceeds s e := by
  have h := (submissionSucceeds_answering (s := s) he).2
  cases e with
  | connectionCb _ _ _ => trivial
  | callback i cb => exact h

/-! ## Pools of exchanges -/

/-- The event that the exchanges see as `e`. -/
def Event.ofExchange : PoolEvent Arrival (Action Char (Locals abi)) → Event abi
  | .enter x => .connectionCb x.status x.acceptRc x.readStartRc
  | .act i a => .callback i (.ofAction a)

theorem exchange_ofExchange (e : PoolEvent Arrival (Action Char (Locals abi))) :
    (Event.ofExchange e).exchange = e := by
  cases e with
  | enter x => rfl
  | act i a => exact congrArg (PoolEvent.act i) (action_ofAction a)

theorem offered_ofExchange (e : PoolEvent Arrival (Action Char (Locals abi))) :
    (Event.ofExchange e).Offered := by
  cases e with
  | enter x => trivial
  | act i a => exact offered_ofAction a

theorem internal_iff_exchange {e : Event abi} :
    e.Internal ↔ e.exchange.IsAct fun a => a.internal = true := by
  cases e <;> exact Iff.rfl

/-- The step of a pool of exchanges in which nothing is refused. -/
abbrev ServedNext (abi : Abi) :=
  PoolNext newExchange (Exchange.NextServed (connectionService abi))

/-- A pool in which something is neither over nor stuck can go on without
reads. -/
theorem exists_servedNext {exchanges : List ClientExchange}
    (hserved : ∀ x ∈ exchanges, ¬ x.IsAbandoned)
    (hrest : ¬ ∀ x ∈ exchanges, x.IsOver ∨ x.Stuck (connectionService abi)) :
    ∃ e next, e.IsAct (fun a => a.internal = true) ∧ ServedNext abi exchanges e next := by
  have hprogress : ∀ x : ClientExchange, ¬ x.IsAbandoned →
      ¬ (x.IsOver ∨ x.Stuck (connectionService abi)) → ∃ (a : Action Char (Locals abi)) (y : _),
        a.internal = true ∧ Exchange.NextServed (connectionService abi) x a y ∧
          ¬ y.IsAbandoned ∧ y.rank < x.rank := by
    intro x hx hgoes
    obtain ⟨hover, hstuck⟩ := not_or.mp hgoes
    obtain ⟨a, y, ha, hy⟩ := Exchange.exists_nextServed hx hstuck hover
    exact ⟨a, y, ha, hy, hy.2, (hy.1.rank_le).2 ha⟩
  obtain ⟨e, next, hact, hnext, -⟩ := exists_poolNext hprogress hserved hrest
  exact ⟨e, next, hact, hnext⟩

/-- One in which nothing is stuck can go on to its end. -/
theorem exists_servedPath {exchanges : List ClientExchange}
    (h : ∀ x ∈ exchanges, ¬ x.IsAbandoned ∧ ¬ x.Stuck (connectionService abi)) :
    ∃ es next, Path (ServedNext abi) exchanges es next ∧ (∀ x ∈ next, x.IsOver) ∧
      ∀ e ∈ es, e.IsAct fun a => a.internal = true := by
  have hprogress : ∀ x : ClientExchange, ¬ x.IsAbandoned ∧ ¬ x.Stuck (connectionService abi) →
      ¬ x.IsOver → ∃ (a : Action Char (Locals abi)) (y : _), a.internal = true ∧
        Exchange.NextServed (connectionService abi) x a y ∧
          (¬ y.IsAbandoned ∧ ¬ y.Stuck (connectionService abi)) ∧ y.rank < x.rank := by
    intro x hx hover
    obtain ⟨a, y, ha, hy⟩ := Exchange.exists_nextServed hx.1 hx.2 hover
    exact ⟨a, y, ha, hy, ⟨hy.2, hy.1.not_stuck ha hx.2⟩, (hy.1.rank_le).2 ha⟩
  obtain ⟨es, next, hpath, -, hover, hacts, -⟩ := exists_path_of_progress
    (fun xs hxs hover => exists_poolNext hprogress hxs hover) h
  exact ⟨es, next, hpath, hover, hacts⟩

theorem served_pool_refines (abi : Abi) :
    Refinement (PoolNext newcomer (Connection.Next Connection.SubmissionSucceeds))
      (ServedNext abi) (PoolEvent.Acts Callback.Offered) (PoolEvent.map id Callback.action)
      (List.Forall₂ Serves) :=
  (connection_served_refines abi).pool newcomer_serves

/-! ## Draining -/

/-- An event of the server at which every submission succeeds. -/
abbrev ServerNext (connections : List Connection) (e : Event abi) (next : List Connection) :
    Prop :=
  (server abi).Next (EachAllowed Connection.SubmissionSucceeds) connections e next

/-- The work is queued on a text that `process_command` does not come back
from. -/
def Connection.Stuck (abi : Abi) (c : Connection) : Prop :=
  c.work = .queued ∧
    ∃ data text, c.data = some data ∧ data.text = some text ∧ ¬ Answerable abi text

theorem Connection.Freed.not_stuck {c : Connection} (h : c.Freed) : ¬ c.Stuck abi := by
  intro hstuck
  obtain ⟨-, data, text, hdata, -⟩ := hstuck
  exact nomatch h.data.symm.trans hdata

theorem Implements.stuck_iff {c : Connection} {x : ClientExchange} (h : Implements c x) :
    x.Stuck (connectionService abi) ↔ c.Stuck abi := by
  have hother : c.work ≠ .queued → ¬ c.Stuck abi := fun hwork hstuck => hwork hstuck.1
  cases x with
  | submitted timed received =>
    obtain ⟨hworking, hwork, -, -, hreceived⟩ := h
    obtain ⟨data, hdata, htext⟩ := hworking.text hreceived
    have hstuck : (Exchange.submitted timed received).Stuck (connectionService abi) ↔
        ¬ Answerable abi (received ++ [nul]) := by
      rw [← exists_obtainRequest_iff, not_exists]
      refine forall_congr' fun locals => ?_
      rw [Option.eq_none_iff_forall_ne_some, not_exists]
      exact forall_congr' fun request => not_congr parse_eq_some_iff
    rw [hstuck]
    constructor
    · exact fun hnot => ⟨hwork, data, _, hdata, htext, hnot⟩
    · intro h
      obtain ⟨-, data', text', hdata', htext', hnot⟩ := h
      obtain rfl := Option.some.inj (hdata.symm.trans hdata')
      obtain rfl := Option.some.inj (htext.symm.trans htext')
      exact hnot
  | receiving reading received => exact iff_of_false id (hother (by simp [h.1.work]))
  | processed timed request => exact iff_of_false id (hother (by simp [h.2.1]))
  | answering request => exact iff_of_false id (hother (by simp [h.1.work]))
  | abandoned timed request =>
    refine iff_of_false id (hother fun hwork => ?_)
    rcases h.1.work with hidle | hidle <;> exact nomatch hidle.symm.trans hwork
  | closing client timer request => exact iff_of_false id (hother h.1.work.1)

/-- Work that is stuck stays so, whatever happens to it. -/
theorem Implements.stuck_next {c c' : Connection} {x : ClientExchange} (h : Implements c x)
    (hstuck : c.Stuck abi) {cb : Callback abi} (hnext : Connection.Next Unrestricted c cb c') :
    ∃ x', Implements c' x' ∧ c'.Stuck abi := by
  obtain ⟨x', hx', himplements⟩ := (connection_refines abi).forth h hnext
  exact ⟨x', himplements, himplements.stuck_iff.mp ((h.stuck_iff.mpr hstuck).next hx')⟩

/-- By induction on the run: it is still there at the end. -/
theorem exists_stuck_of_path {connections next : List Connection} {es : List (Event abi)}
    (h : Path ((server abi).Next (EachAllowed Unrestricted)) connections es next) {c : Connection}
    (hc : c ∈ connections) {x : ClientExchange} (hx : Implements c x) (hstuck : c.Stuck abi) :
    ∃ d ∈ next, d.Stuck abi := by
  obtain ⟨i, hi⟩ := List.mem_iff_getElem?.mp hc
  have hstays : ∃ d, next[i]? = some d ∧ ∃ y, Implements d y ∧ d.Stuck abi := by
    refine h.invariant (P := fun cs : List Connection => ∃ d, cs[i]? = some d ∧
      ∃ y, Implements d y ∧ d.Stuck abi) (fun cs e ds hcs hstep => ?_) ⟨c, hi, x, hx, hstuck⟩
    refine (next_iff_poolNext.mp hstep).keeps (fun d cb d' hd hnext => ?_) hcs
    obtain ⟨y, hy, hdstuck⟩ := hd
    exact hy.stuck_next hdstuck hnext
  obtain ⟨d, hd, -, -, hdstuck⟩ := hstays
  exact ⟨d, List.mem_of_getElem? hd, hdstuck⟩

/-- A run in which nothing was refused is a run. -/
theorem path_unrestricted {connections next : List Connection} {es : List (Event abi)}
    (h : Path ServerNext connections es next) :
    Path ((server abi).Next (EachAllowed Unrestricted)) connections es next :=
  h.mono fun s e _ hnext => ⟨hnext.1, eachAllowed_unrestricted s e, hnext.2.2⟩

/-- Without new clients and reads with `nread >= 0` the server comes to
rest. -/
structure Drains (abi : Abi) (connections : List Connection) : Prop where
  /-- However libuv goes on, that is after at most six callbacks a client, -/
  short : ∀ (es : List (Event abi)) (next : List Connection), Path ServerNext connections es next →
    (∀ e ∈ es, e.Internal) → es.length ≤ 6 * connections.length
  /-- and only where everything is freed, but for work it does not come back
  from; -/
  stops : ∀ (es : List (Event abi)) (next : List Connection), Path ServerNext connections es next →
    (∀ e ∈ es, e.Internal) → (∀ (e : Event abi) (next' : List Connection), e.Internal →
      ¬ ServerNext next e next') → ∀ c ∈ next, c.Freed ∨ c.Stuck abi
  /-- and it can go on to where everything is freed exactly when it comes back
  from all the work that is queued. -/
  frees : (∃ (es : List (Event abi)) (next : List Connection),
      Path ServerNext connections es next ∧ (∀ e ∈ es, e.Internal) ∧ ∀ c ∈ next, c.Freed) ↔
    ∀ c ∈ connections, ¬ c.Stuck abi

theorem drains_of_serves {connections : List Connection}
    {exchanges : List ClientExchange} (h : List.Forall₂ Serves connections exchanges) :
    Drains abi connections := by
  have hpool := served_pool_refines abi
  have hbound : poolRank Exchange.rank exchanges ≤ 6 * connections.length := by
    rw [h.length_eq]
    exact poolRank_le Exchange.rank_le
  refine ⟨fun es next hpath hinternal => ?_, fun es next hpath hinternal hstuck c hc => ?_, ?_⟩
  · obtain ⟨exchanges', hpath', -⟩ := hpool.path h (path_iff_path_pool.mp hpath)
    rw [← map_exchange] at hpath'
    have hacts : ∀ e ∈ es.map Event.exchange, e.IsAct fun a => a.internal = true := by
      intro e he
      obtain ⟨e', he', rfl⟩ := List.mem_map.mp he
      exact internal_iff_exchange.mp (hinternal e' he')
    have hlength := hpath'.length_add_poolRank_le
      (fun _ _ _ hnext ha => (hnext.1.rank_le).2 ha) hacts
    rw [List.length_map] at hlength
    omega
  · obtain ⟨exchanges', -, hrel⟩ := hpool.path h (path_iff_path_pool.mp hpath)
    have hrest : ∀ x ∈ exchanges', x.IsOver ∨ x.Stuck (connectionService abi) := by
      by_contra hrest
      have hserved : ∀ x ∈ exchanges', ¬ x.IsAbandoned := by
        intro x hx
        obtain ⟨c, -, hserves⟩ := exists_of_mem_right hrel hx
        exact hserves.2
      obtain ⟨e, next', he, hnext⟩ := exists_servedNext hserved hrest
      rw [← exchange_ofExchange e] at hnext
      obtain ⟨connections', hnext', -⟩ := hpool.back hrel (offered_ofExchange e) hnext
      refine hstuck (.ofExchange e) connections' ?_ (next_iff_poolNext.mpr hnext')
      rw [internal_iff_exchange, exchange_ofExchange]
      exact he
    obtain ⟨x, hx, hserves⟩ := exists_of_mem_left hrel hc
    rcases hrest x hx with ⟨request, rfl⟩ | hxstuck
    · exact .inl hserves.1.freed
    · exact .inr (hserves.1.stuck_iff.mp hxstuck)
  · constructor
    · intro hfrees c hc hcstuck
      obtain ⟨es, next, hpath, -, hfreed⟩ := hfrees
      obtain ⟨x, -, hserves⟩ := exists_of_mem_left h hc
      obtain ⟨d, hd, hdstuck⟩ :=
        exists_stuck_of_path (path_unrestricted hpath) hc hserves.1 hcstuck
      exact (hfreed d hd).not_stuck hdstuck
    · intro hnone
      have hserved : ∀ x ∈ exchanges, ¬ x.IsAbandoned ∧ ¬ x.Stuck (connectionService abi) := by
        intro x hx
        obtain ⟨c, hc, hserves⟩ := exists_of_mem_right h hx
        exact ⟨hserves.2, fun hstuck => hnone c hc (hserves.1.stuck_iff.mp hstuck)⟩
      obtain ⟨es, exchanges', hpath, hover, hacts⟩ := exists_servedPath hserved
      have hsame : (es.map Event.ofExchange).map Event.exchange = es := by
        rw [List.map_map]
        exact (List.map_congr_left fun e _ => exchange_ofExchange e).trans (List.map_id es)
      have hoffered : ∀ e ∈ (es.map Event.ofExchange).map Event.view,
          e.Acts (Callback.Offered : Callback abi → Prop) := by
        intro e he
        obtain ⟨e', he', rfl⟩ := List.mem_map.mp he
        obtain ⟨e'', -, rfl⟩ := List.mem_map.mp he'
        exact offered_ofExchange e''
      rw [← hsame, map_exchange] at hpath
      obtain ⟨next, hpath', hrel⟩ := hpool.path_back h hoffered hpath
      refine ⟨es.map Event.ofExchange, next, path_iff_path_pool.mpr hpath', fun e he => ?_,
        fun c hc => ?_⟩
      · obtain ⟨e', he', rfl⟩ := List.mem_map.mp he
        rw [internal_iff_exchange, exchange_ofExchange]
        exact hacts e' he'
      · obtain ⟨x, hx, hserves⟩ := exists_of_mem_left hrel hc
        obtain ⟨request, rfl⟩ := hover x hx
        exact hserves.1.freed

end CWebServer.Server
