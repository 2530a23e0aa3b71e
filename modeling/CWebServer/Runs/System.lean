/-
CWebServer.Runs.System — systems that change by events, and what holds in
every state a run reaches.

Nothing here names a program. An event that the environment may cause is
`Enabled`; the step it makes may still go wrong, and then it has no next
state but a fault. `Reaches` takes a further condition on the events of a
run, so that a property can be stated of the runs that meet it.

No `sorry`, no `axiom`, no `native_decide`.
-/
import Mathlib.Logic.Basic

namespace Runs

structure System (State Event Fault : Type) where
  init : State
  Enabled : State → Event → Prop
  step : State → Event → Except Fault State

section

variable {State Event Fault : Type} (system : System State Event Fault)
  (Allowed : State → Event → Prop)

/-- The states at the end of runs whose events are all allowed. -/
inductive Reaches : State → Prop where
  | init : Reaches system.init
  | step {s s' : State} {e : Event} :
      Reaches s → system.Enabled s e → Allowed s e → system.step s e = .ok s' → Reaches s'

variable {system Allowed}

/-- What holds at the start and is kept by every allowed step holds in
every state reached. -/
theorem Reaches.invariant {P : State → Prop} (hinit : P system.init)
    (hstep : ∀ s e s', P s → system.Enabled s e → Allowed s e → system.step s e = .ok s' → P s')
    {s : State} (h : Reaches system Allowed s) : P s := by
  induction h with
  | init => exact hinit
  | step _ henabled hallowed heq ih => exact hstep _ _ _ ih henabled hallowed heq

/-- A condition that the steps taken imply restricts no run. -/
theorem Reaches.mono {Allowed' : State → Event → Prop}
    (hweaker : ∀ s e s', system.Enabled s e → Allowed s e → system.step s e = .ok s' →
      Allowed' s e)
    {s : State} (h : Reaches system Allowed s) : Reaches system Allowed' s := by
  induction h with
  | init => exact .init
  | step _ henabled hallowed heq ih =>
    exact .step ih henabled (hweaker _ _ _ henabled hallowed heq) heq

end

end Runs
