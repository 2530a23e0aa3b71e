/-
CWebServer.Server.Interleaving — the runs of the server in terms of the
runs of its connections.

Every callback of `server.c` works on the data of one connection, and with
`process_command` as one step connections share nothing but libuv's loop.
So the server is a pool: its steps are those of `PoolNext`
(`next_iff_poolNext`), and its runs are the interleavings of runs of single
connections that the pool's are (`path_iff_path_pool`).

No `sorry`, no `axiom`, no `native_decide`.
-/
import CWebServer.Runs.Pool
import CWebServer.Server.Lifecycle

namespace CWebServer.Server

open Libc Http Runs

variable {abi : Abi}

/-- What `connection_cb` is given and what its calls return. -/
structure Arrival where
  status : Int
  acceptRc : Int
  readStartRc : Int

/-- The connection that `connection_cb` makes, if any. -/
def newcomer (x : Arrival) : Option Connection :=
  if x.status = -1 then none
  else if x.acceptRc = 0 then some (acceptedConnection x.readStartRc)
  else some refusedConnection

theorem connectionCb_newcomer (x : Arrival) :
    connectionCb x.status x.acceptRc x.readStartRc = .ok (newcomer x) :=
  connectionCb_eq x.status x.acceptRc x.readStartRc

/-- An event as the pool has it. -/
def Event.view : Event abi → PoolEvent Arrival (Callback abi)
  | .connectionCb status acceptRc readStartRc => .enter ⟨status, acceptRc, readStartRc⟩
  | .callback i cb => .act i cb

/-- A callback that is permitted, meets the condition and succeeds. -/
def Connection.Next (Allowed : Connection → Callback abi → Prop) (c : Connection)
    (cb : Callback abi) (c' : Connection) : Prop :=
  c.Permits cb ∧ Allowed c cb ∧ c.step cb = .ok c'

/-- A condition on the callbacks of single connections, as one on events. -/
def EachAllowed (Allowed : Connection → Callback abi → Prop) (connections : List Connection) :
    Event abi → Prop
  | .connectionCb _ _ _ => True
  | .callback i cb => ∀ c ∈ connections[i]?, Allowed c cb

variable {Allowed : Connection → Callback abi → Prop}

theorem next_iff_poolNext {connections next : List Connection} {e : Event abi} :
    (server abi).Next (EachAllowed Allowed) connections e next ↔
      PoolNext newcomer (Connection.Next Allowed) connections e.view next := by
  cases e with
  | connectionCb status acceptRc readStartRc =>
    have hstep : (server abi).step connections (.connectionCb status acceptRc readStartRc) =
        .ok (connections ++ (newcomer ⟨status, acceptRc, readStartRc⟩).toList) :=
      bind_ok_iff.mpr ⟨_, connectionCb_newcomer ⟨status, acceptRc, readStartRc⟩, rfl⟩
    constructor
    · intro h
      obtain rfl := Except.ok.inj (hstep.symm.trans h.2.2)
      exact .enter connections _
    · intro h
      cases h with
      | enter _ => exact ⟨trivial, trivial, hstep⟩
  | callback i cb =>
    constructor
    · intro h
      obtain ⟨⟨c, hc, hp⟩, hallowed, hstep⟩ := h
      simp only [server, hc] at hstep
      obtain ⟨c', hc', heq⟩ := bind_ok_iff.mp hstep
      obtain rfl := Except.ok.inj heq
      exact .act hc ⟨hp, hallowed c hc, hc'⟩
    · intro h
      cases h with
      | @act _ _ c c' hc hnext =>
        obtain ⟨hp, hallowed, hc'⟩ := hnext
        refine ⟨⟨c, hc, hp⟩, fun d hd => ?_, ?_⟩
        · obtain rfl := Option.some.inj (hc.symm.trans hd)
          exact hallowed
        · simp only [server, hc]
          exact bind_ok_iff.mpr ⟨c', hc', rfl⟩

theorem path_iff_path_pool {connections next : List Connection} {es : List (Event abi)} :
    Path ((server abi).Next (EachAllowed Allowed)) connections es next ↔
      Path (PoolNext newcomer (Connection.Next Allowed)) connections (es.map Event.view) next := by
  induction es generalizing connections with
  | nil => simp
  | cons e es ih =>
    rw [List.map_cons, path_cons_iff, path_cons_iff]
    constructor
    · intro h
      obtain ⟨t, hstep, hrest⟩ := h
      exact ⟨t, next_iff_poolNext.mp hstep, ih.mp hrest⟩
    · intro h
      obtain ⟨t, hstep, hrest⟩ := h
      exact ⟨t, next_iff_poolNext.mpr hstep, ih.mpr hrest⟩

/-- The events lead the server from its start to these connections; every
callback met the condition and succeeded. -/
def ServerRun (Allowed : Connection → Callback abi → Prop) (es : List (Event abi))
    (connections : List Connection) : Prop :=
  Path ((server abi).Next (EachAllowed Allowed)) (server abi).init es connections

/-- Every callback that libuv may run. -/
def Unrestricted (_ : Connection) (_ : Callback abi) : Prop := True

theorem eachAllowed_unrestricted (connections : List Connection) (e : Event abi) :
    EachAllowed Unrestricted connections e := by
  cases e with
  | connectionCb _ _ _ => trivial
  | callback _ _ => exact fun _ _ => trivial

end CWebServer.Server
