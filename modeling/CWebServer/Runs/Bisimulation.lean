/-
CWebServer.Runs.Bisimulation — two step relations that match step for
step, and what one can reach in terms of the other.

Nothing here names a program.

No `sorry`, no `axiom`, no `native_decide`.
-/
import Mathlib.Logic.Relation

namespace Runs

open Relation

/-- Related elements answer each other's steps. -/
structure Bisimulation {α β : Type} (r : α → α → Prop) (p : β → β → Prop)
    (rel : α → β → Prop) : Prop where
  forth : ∀ {a a' : α} {b : β}, rel a b → r a a' → ∃ b', p b b' ∧ rel a' b'
  back : ∀ {a : α} {b b' : β}, rel a b → p b b' → ∃ a', r a a' ∧ rel a' b'

section

variable {α β : Type} {r : α → α → Prop} {p : β → β → Prop} {rel : α → β → Prop}

theorem Bisimulation.symm (h : Bisimulation r p rel) :
    Bisimulation p r (fun b a => rel a b) :=
  ⟨fun hrel hp => h.back hrel hp, fun hrel hr => h.forth hrel hr⟩

/-- Whatever the left side reaches, the right side reaches a partner of. -/
theorem Bisimulation.reflTransGen (h : Bisimulation r p rel) {a a' : α} {b : β} (hab : rel a b)
    (hr : ReflTransGen r a a') : ∃ b', ReflTransGen p b b' ∧ rel a' b' := by
  induction hr with
  | refl => exact ⟨b, .refl, hab⟩
  | tail _ hstep ih =>
    obtain ⟨c, hc, hrel⟩ := ih
    obtain ⟨b', hb', hrel'⟩ := h.forth hrel hstep
    exact ⟨b', hc.tail hb', hrel'⟩

end

end Runs
