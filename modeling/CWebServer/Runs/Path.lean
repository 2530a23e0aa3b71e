/-
CWebServer.Runs.Path — runs that keep their events.

Nothing here names a program. `Path r s es t` says that the events `es`, in
this order, lead from `s` to `t`; `r` is any labelled step relation. A
`Refinement` ties two of them: the steps of one are seen as steps of the
other, and whatever the other permits, the first can do. Paths go over
along it in both directions.

No `sorry`, no `axiom`, no `native_decide`.
-/
import CWebServer.Runs.System
import Mathlib.Data.List.Basic

namespace Runs

/-- The events, in turn, lead from one state to the other. -/
inductive Path {State Event : Type} (r : State → Event → State → Prop) :
    State → List Event → State → Prop where
  | nil (s : State) : Path r s [] s
  | cons {s t u : State} {e : Event} {es : List Event} :
      r s e t → Path r t es u → Path r s (e :: es) u

section

variable {State Event : Type} {r : State → Event → State → Prop} {s t u : State} {e : Event}
  {es es' : List Event}

@[simp]
theorem path_nil_iff : Path r s [] t ↔ s = t := by
  constructor
  · intro h
    cases h with
    | nil => rfl
  · intro h
    exact h ▸ .nil s

@[simp]
theorem path_cons_iff : Path r s (e :: es) u ↔ ∃ t, r s e t ∧ Path r t es u := by
  constructor
  · intro h
    cases h with
    | cons hstep hrest => exact ⟨_, hstep, hrest⟩
  · intro h
    obtain ⟨t, hstep, hrest⟩ := h
    exact .cons hstep hrest

theorem path_append_iff : Path r s (es ++ es') u ↔ ∃ t, Path r s es t ∧ Path r t es' u := by
  induction es generalizing s with
  | nil => simp
  | cons e es ih =>
    simp only [List.cons_append, path_cons_iff, ih]
    constructor
    · intro h
      obtain ⟨t, hstep, v, hfirst, hrest⟩ := h
      exact ⟨v, ⟨t, hstep, hfirst⟩, hrest⟩
    · intro h
      obtain ⟨v, ⟨t, hstep, hfirst⟩, hrest⟩ := h
      exact ⟨t, hstep, v, hfirst, hrest⟩

theorem Path.append (h : Path r s es t) (h' : Path r t es' u) : Path r s (es ++ es') u :=
  path_append_iff.mpr ⟨t, h, h'⟩

theorem Path.concat (h : Path r s es t) (hstep : r t e u) : Path r s (es ++ [e]) u :=
  h.append (.cons hstep (.nil u))

/-- What every step keeps, every run keeps. -/
theorem Path.invariant {P : State → Prop} (hstep : ∀ s e t, P s → r s e t → P t)
    (h : Path r s es t) (hs : P s) : P t := by
  induction h with
  | nil s => exact hs
  | cons hnext _ ih => exact ih (hstep _ _ _ hs hnext)

/-- Runs of a relation are runs of a wider one. -/
theorem Path.mono {r' : State → Event → State → Prop} (hr : ∀ s e t, r s e t → r' s e t)
    (h : Path r s es t) : Path r' s es t := by
  induction h with
  | nil s => exact .nil s
  | cons hstep _ ih => exact .cons (hr _ _ _ hstep) ih

/-- **Descent**: where the marked events take the rank down and the others do
not take it up, a run has no more marked events than the rank it uses up. -/
theorem Path.countP_add_rank_le {rank : State → Nat} {marked : Event → Bool}
    (hstep : ∀ s e t, r s e t → rank t ≤ rank s ∧ (marked e = true → rank t < rank s))
    (h : Path r s es t) : es.countP marked + rank t ≤ rank s := by
  induction h with
  | nil s => simp
  | @cons s t u e es hnext _ ih =>
    obtain ⟨hle, hlt⟩ := hstep _ _ _ hnext
    rw [List.countP_cons]
    cases hm : marked e with
    | true =>
      have hdown := hlt hm
      simp only [if_true]
      omega
    | false =>
      simp only [Bool.false_eq_true, if_false]
      omega

/-- **Progress**: where a state that is not over has a marked step to one of
lower rank, marked steps lead to the end, and no more of them than the
rank. -/
theorem exists_path_of_progress {rank : State → Nat} {P Over : State → Prop}
    {Marked : Event → Prop}
    (hprogress : ∀ s, P s → ¬ Over s → ∃ e t, Marked e ∧ r s e t ∧ P t ∧ rank t < rank s)
    (hs : P s) :
    ∃ es t, Path r s es t ∧ P t ∧ Over t ∧ (∀ e ∈ es, Marked e) ∧ es.length ≤ rank s := by
  induction hrank : rank s using Nat.strongRecOn generalizing s with
  | _ n ih =>
    by_cases hover : Over s
    · exact ⟨[], s, .nil s, hs, hover, fun _ he => absurd he List.not_mem_nil, Nat.zero_le _⟩
    · obtain ⟨e, t, hmarked, hstep, ht, hdown⟩ := hprogress s hs hover
      obtain ⟨es, u, hpath, hu, huover, hall, hlength⟩ := ih (rank t) (hrank ▸ hdown) ht rfl
      refine ⟨e :: es, u, .cons hstep hpath, hu, huover, fun e' he' => ?_, ?_⟩
      · rcases List.mem_cons.mp he' with rfl | he'
        · exact hmarked
        · exact hall e' he'
      · rw [List.length_cons]
        omega

end

/-! ## The runs of a system -/

section

variable {State Event Fault : Type} {system : System State Event Fault}
  {Allowed : State → Event → Prop}

/-- An allowed step of the system. -/
def System.Next (system : System State Event Fault) (Allowed : State → Event → Prop)
    (s : State) (e : Event) (t : State) : Prop :=
  system.Enabled s e ∧ Allowed s e ∧ system.step s e = .ok t

theorem Reaches.path {s t : State} {es : List Event} (hs : Reaches system Allowed s)
    (h : Path (system.Next Allowed) s es t) : Reaches system Allowed t := by
  refine h.invariant (fun s e t hs hstep => ?_) hs
  obtain ⟨henabled, hallowed, heq⟩ := hstep
  exact .step hs henabled hallowed heq

theorem reaches_iff_path {s : State} :
    Reaches system Allowed s ↔ ∃ es, Path (system.Next Allowed) system.init es s := by
  constructor
  · intro h
    induction h with
    | init => exact ⟨[], .nil _⟩
    | step _ henabled hallowed heq ih =>
      obtain ⟨es, hes⟩ := ih
      exact ⟨_, hes.concat ⟨henabled, hallowed, heq⟩⟩
  · intro h
    obtain ⟨es, hes⟩ := h
    exact Reaches.init.path hes

end

/-! ## Refinement -/

/-- The steps of `r` are seen as steps of `p`; and what `p` permits of an
event that `r` can be offered, `r` can do. -/
structure Refinement {α β E F : Type} (r : α → E → α → Prop) (p : β → F → β → Prop)
    (Offered : E → Prop) (view : E → F) (rel : α → β → Prop) : Prop where
  forth : ∀ {a a' : α} {b : β} {e : E}, rel a b → r a e a' →
    ∃ b', p b (view e) b' ∧ rel a' b'
  back : ∀ {a : α} {b b' : β} {e : E}, rel a b → Offered e → p b (view e) b' →
    ∃ a', r a e a' ∧ rel a' b'

namespace Refinement

variable {α β E F : Type} {r : α → E → α → Prop} {p : β → F → β → Prop} {Offered : E → Prop}
  {view : E → F} {rel : α → β → Prop}

theorem path (h : Refinement r p Offered view rel) {a a' : α} {b : β} {es : List E}
    (hrel : rel a b) (hpath : Path r a es a') :
    ∃ b', Path p b (es.map view) b' ∧ rel a' b' := by
  induction hpath generalizing b with
  | nil s => exact ⟨b, .nil b, hrel⟩
  | cons hstep _ ih =>
    obtain ⟨c, hc, hrel'⟩ := h.forth hrel hstep
    obtain ⟨b', hb', hend⟩ := ih hrel'
    exact ⟨b', .cons hc hb', hend⟩

theorem path_back (h : Refinement r p Offered view rel) {a : α} {b b' : β} {es : List E}
    (hrel : rel a b) (hoffered : ∀ e ∈ es, Offered e) (hpath : Path p b (es.map view) b') :
    ∃ a', Path r a es a' ∧ rel a' b' := by
  induction es generalizing a b with
  | nil =>
    obtain rfl := path_nil_iff.mp hpath
    exact ⟨a, .nil a, hrel⟩
  | cons e es ih =>
    obtain ⟨c, hstep, hrest⟩ := path_cons_iff.mp hpath
    obtain ⟨c', hc', hrel'⟩ := h.back hrel (hoffered e List.mem_cons_self) hstep
    obtain ⟨a', ha', hend⟩ := ih hrel' (fun e he => hoffered e (List.mem_cons_of_mem _ he)) hrest
    exact ⟨a', .cons hc' ha', hend⟩

end Refinement

end Runs
