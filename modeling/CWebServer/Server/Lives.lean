/-
CWebServer.Server.Lives — the server as a pool of exchanges, and the whole
history of a client.

`server_refines` carries the refinement of one connection over to the
server: its runs are those of a pool of exchanges. From it and from the
interleaving comes what a client's connection goes through from
`connection_cb` to the last `on_close_free`, whatever the other clients do
(`isHistory_iff_life`): reads that bring no line end and then the end of the
file or the timeout, or reads up to the one that brings a line end, the work
on the bytes received if it comes back from them, the answer and the end of
its write, with at most one timeout between; and then the two handles, in
either order.

No `sorry`, no `axiom`, no `native_decide`.
-/
import CWebServer.Server.Refinement

namespace CWebServer.Server

open Libc Http Runs

variable {abi : Abi}

/-! ## The pools -/

/-- An event as the exchanges have it. -/
def Event.exchange (e : Event abi) : PoolEvent Arrival (Action Char (Locals abi)) :=
  e.view.map id Callback.action

/-- The events lead an empty pool to these exchanges. -/
def ExchangeRun (abi : Abi) (es : List (PoolEvent Arrival (Action Char (Locals abi))))
    (exchanges : List ClientExchange) : Prop :=
  Path (PoolNext newExchange (Exchange.Next (connectionService abi))) [] es exchanges

def Event.Offered (e : Event abi) : Prop := e.view.Acts Callback.Offered

theorem map_exchange (es : List (Event abi)) :
    es.map Event.exchange = (es.map Event.view).map (PoolEvent.map id Callback.action) := by
  rw [List.map_map]
  rfl

/-- The exchanges that a run of the server goes through. -/
theorem exists_exchangeRun {es : List (Event abi)} {connections : List Connection}
    (h : ServerRun Unrestricted es connections) : ∃ exchanges,
      ExchangeRun abi (es.map Event.exchange) exchanges ∧
        List.Forall₂ Implements connections exchanges := by
  have hstart : List.Forall₂ Implements ([] : List Connection) [] := .nil
  rw [map_exchange]
  exact ((connection_refines abi).pool newcomer_implements).path hstart (path_iff_path_pool.mp h)

/-- Everything the connection had was given back. -/
structure Connection.Freed (c : Connection) : Prop where
  data : c.data = none
  client : c.client.Released
  timer : c.timer.Released

/-- A freed connection is at the end of its exchange. -/
theorem Implements.eq_of_freed {c : Connection} {x : ClientExchange} (h : Implements c x)
    (hfreed : c.Freed) : x = .closing false false c.parsed := by
  have hlive := hfreed.client.not_live
  have hidle : c.client ≠ .idle := fun hidle => hlive (.inl hidle)
  cases x with
  | receiving reading received => exact absurd h.1.client hlive
  | submitted timed received => exact absurd h.1.client hidle
  | processed timed request => exact absurd h.1.client hidle
  | answering request => exact absurd h.1.client hidle
  | abandoned timed request => exact absurd h.1.client hidle
  | closing client timer request =>
    obtain ⟨-, hclient, htimer, rfl⟩ := h
    have hnot : ∀ h' : Handle, h'.Released → h' ≠ .closing := by
      intro h' hreleased heq
      rcases hreleased with hfreed | habsent
      · exact nomatch heq.symm.trans hfreed
      · exact nomatch heq.symm.trans habsent
    cases client with
    | true => exact absurd hclient (hnot _ hfreed.client)
    | false =>
      cases timer with
      | true => exact absurd htimer (hnot _ hfreed.timer)
      | false => rfl

theorem Implements.freed {c : Connection} {request : Option HttpRequest}
    (h : Implements c (.closing false false request)) : c.Freed :=
  ⟨h.1.data, h.2.1, h.2.2.1⟩

theorem implements_accepted (readStartRc : Int) :
    Implements (acceptedConnection readStartRc) (.receiving (decide (readStartRc = 0)) []) := by
  have h := newcomer_implements ⟨0, 0, readStartRc⟩
  simp only [newcomer, newExchange, if_true] at h
  rw [if_neg (by decide), if_neg (by decide)] at h
  cases h with
  | some h => exact h

/-- A stream that could not be read ends with its timeout. -/
theorem life_of_path {reading : Bool} {acts : List (Action Char (Locals abi))}
    {request : Option HttpRequest}
    (h : Path (Exchange.Next (connectionService abi)) (.receiving reading []) acts
      (.closing false false request)) :
    Exchange.Life (connectionService abi) [] acts request := by
  cases reading with
  | true => exact Exchange.path_iff_life.mp h
  | false =>
    cases h with
    | cons hstep hrest =>
      cases hstep with
      | timeOut _ _ => exact Exchange.path_iff_life.mp (.cons (.timeOut true []) hrest)

/-- A callback that is the action. -/
def Callback.ofAction : Action Char (Locals abi) → Callback abi
  | .receive bytes taken => .readCb bytes.length bytes (if taken then 0 else -1)
  | .hangUp => .readCb Connection.uvEof [] 0
  | .expire => .clientTimeoutCb
  | .process locals => .processCommand locals
  | .respond taken => .afterProcessCommand (if taken then 0 else -1)
  | .finish => .onWriteEnd
  | .releaseClient => .onCloseFreeClient
  | .releaseTimer => .onCloseFreeTimer

theorem action_ofAction (a : Action Char (Locals abi)) : (Callback.ofAction a).action = a := by
  cases a with
  | receive bytes taken =>
    have h0 : ¬ ((bytes.length : Int) < 0) := by omega
    rw [Callback.ofAction, Callback.action, if_neg h0, Int.toNat_natCast, List.take_length]
    cases taken <;> rfl
  | respond taken => cases taken <;> rfl
  | _ => rfl

theorem offered_ofAction (a : Action Char (Locals abi)) : (Callback.ofAction a).Offered := by
  cases a with
  | receive bytes taken => exact ⟨Int.le_refl _, .inl (Int.natCast_nonneg _)⟩
  | hangUp => exact ⟨by decide, .inr (.inr rfl)⟩
  | _ => trivial

/-- The actions are the whole history of a client that some run of the
server accepts, serves beside others and lets go of, and `request` is what
its work obtained, if it had any. -/
def IsHistory (abi : Abi) (acts : List (Action Char (Locals abi)))
    (request : Option HttpRequest) : Prop :=
  ∃ (es : List (Event abi)) (connections : List Connection) (i : Nat) (readStartRc : Int)
    (c : Connection), ServerRun Unrestricted es connections ∧
      (entered newcomer (es.map Event.view))[i]? = some (acceptedConnection readStartRc) ∧
      connections[i]? = some c ∧ c.Freed ∧ c.parsed = request ∧
      (own i (es.map Event.view)).map Callback.action = acts

/-- **Histories**: what happens to a client from its acceptance until
everything it had is given back, in any run and whatever happens to the
others, is a whole life of an exchange; and every such life happens. -/
theorem isHistory_iff_life (abi : Abi) (acts : List (Action Char (Locals abi)))
    (request : Option HttpRequest) :
    IsHistory abi acts request ↔ Exchange.Life (connectionService abi) [] acts request := by
  constructor
  · intro h
    obtain ⟨es, connections, i, readStartRc, c, hrun, hentered, hc, hfreed, rfl, rfl⟩ := h
    obtain ⟨c₀, hc₀, hpath⟩ := (path_pool_iff.mp (path_iff_path_pool.mp hrun)).origin hc
    obtain rfl := Option.some.inj (hentered.symm.trans hc₀)
    obtain ⟨x, hx, himplements⟩ :=
      (connection_refines abi).path (implements_accepted readStartRc) hpath
    exact life_of_path (himplements.eq_of_freed hfreed ▸ hx)
  · intro h
    have hmap : (acts.map Callback.ofAction).map Callback.action = acts := by
      rw [List.map_map]
      exact (List.map_congr_left fun a _ => action_ofAction a).trans (List.map_id acts)
    have hoffered : ∀ cb ∈ acts.map Callback.ofAction, cb.Offered := by
      intro cb hcb
      obtain ⟨a, -, rfl⟩ := List.mem_map.mp hcb
      exact offered_ofAction a
    have hlife := Exchange.path_iff_life.mpr h
    rw [← hmap] at hlife
    obtain ⟨c, hpath, himplements⟩ :=
      (connection_refines abi).path_back (implements_accepted 0) hoffered hlife
    have hview : (Event.connectionCb 0 0 0 :: (acts.map Callback.ofAction).map (.callback 0)).map
        Event.view = PoolEvent.enter ⟨0, 0, 0⟩ :: (acts.map Callback.ofAction).map (.act 0) := by
      rw [List.map_cons, List.map_map]
      rfl
    refine ⟨.connectionCb 0 0 0 :: (acts.map Callback.ofAction).map (.callback 0), [c], 0, 0, c,
      ?_, ?_, rfl, himplements.freed, himplements.2.2.2, ?_⟩
    · refine path_iff_path_pool.mpr ?_
      rw [hview]
      exact path_pool_single rfl hpath
    · rw [hview]
      rfl
    · rw [hview, own, own_acts, hmap]

end CWebServer.Server
