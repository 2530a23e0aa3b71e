/-
CWebServer.Runs.Pool — components that come in one after the other and
then act, each by itself, in any order.

Nothing here names a program. A pool is a list of components; a newcomer is
put at its end, and a component that acts is replaced where it stands. The
runs of a pool are the interleavings of the runs of its components
(`path_pool_iff`), which `Interleaves` says without the pool: every
component acts only after it came in, and its own events alone lead from
where it started to where it is. A `Refinement` of the component is one of
the pool (`Refinement.pool`).

No `sorry`, no `axiom`, no `native_decide`.
-/
import CWebServer.Runs.Path
import Mathlib.Data.List.Forall2

namespace Runs

/-- One component comes in, if `start` makes one, or one acts. -/
inductive PoolEvent (Start Act : Type) where
  | enter (x : Start)
  | act (i : Nat) (a : Act)

section

variable {C Start Act : Type} (start : Start → Option C) (r : C → Act → C → Prop)

inductive PoolNext : List C → PoolEvent Start Act → List C → Prop where
  | enter (cs : List C) (x : Start) : PoolNext cs (.enter x) (cs ++ (start x).toList)
  | act {cs : List C} {i : Nat} {a : Act} {c c' : C} :
      cs[i]? = some c → r c a c' → PoolNext cs (.act i a) (cs.set i c')

/-- The components that came in, as they were then. -/
def entered : List (PoolEvent Start Act) → List C
  | [] => []
  | .enter x :: es => (start x).toList ++ entered es
  | .act _ _ :: es => entered es

/-- What one component did. -/
def own (i : Nat) : List (PoolEvent Start Act) → List Act
  | [] => []
  | .enter _ :: es => own i es
  | .act j a :: es => if j = i then a :: own i es else own i es

/-- Only components that have come in act; `n` had at the start. -/
def Orderly (n : Nat) : List (PoolEvent Start Act) → Prop
  | [] => True
  | .enter x :: es => Orderly (n + (start x).toList.length) es
  | .act i _ :: es => i < n ∧ Orderly n es

/-- The events interleave runs of the components, those of `cs` and those
that come in, which end in `ds`. -/
structure Interleaves (cs : List C) (es : List (PoolEvent Start Act)) (ds : List C) : Prop where
  orderly : Orderly start cs.length es
  length : ds.length = (cs ++ entered start es).length
  each : ∀ (i : Nat) (c d : C), (cs ++ entered start es)[i]? = some c → ds[i]? = some d →
    Path r c (own i es) d

variable {start r} {cs ds : List C} {es : List (PoolEvent Start Act)}

theorem interleaves_nil_iff : Interleaves start r cs [] ds ↔ cs = ds := by
  constructor
  · intro h
    have hlength : ds.length = cs.length := by simpa [entered] using h.length
    refine List.ext_getElem hlength.symm fun i hc hd => ?_
    have hpath := h.each i cs[i] ds[i] (by simp [entered, hc]) (List.getElem?_eq_getElem hd)
    exact path_nil_iff.mp hpath
  · intro h
    subst h
    refine ⟨trivial, by simp [entered], fun i c d hc hd => ?_⟩
    rw [entered, List.append_nil, hd] at hc
    exact path_nil_iff.mpr (Option.some.inj hc).symm

theorem interleaves_enter_iff {x : Start} :
    Interleaves start r cs (.enter x :: es) ds ↔
      Interleaves start r (cs ++ (start x).toList) es ds := by
  have hsame : cs ++ entered start (.enter x :: es) =
      cs ++ (start x).toList ++ entered start es := by simp [entered]
  have horderly : Orderly start cs.length (.enter x :: es) ↔
      Orderly start (cs ++ (start x).toList).length es := by rw [List.length_append, Orderly]
  constructor
  · intro h
    exact ⟨horderly.mp h.orderly, hsame ▸ h.length, fun i c d hc => h.each i c d (hsame ▸ hc)⟩
  · intro h
    exact ⟨horderly.mpr h.orderly, hsame ▸ h.length, fun i c d hc => h.each i c d (hsame ▸ hc)⟩

/-- A component that acts is replaced where it stands, -/
theorem getElem?_set_append_self {ds : List C} {i : Nat} (hi : i < cs.length) (c : C) :
    (cs.set i c ++ ds)[i]? = some c := by
  rw [List.getElem?_append_left (by rwa [List.length_set]), List.getElem?_set_self hi]

/-- and no other is. -/
theorem getElem?_set_append_ne {ds : List C} {i j : Nat} (hij : i ≠ j) (c : C) :
    (cs.set i c ++ ds)[j]? = (cs ++ ds)[j]? := by
  rw [List.getElem?_append, List.getElem?_append, List.length_set, List.getElem?_set_ne hij]

theorem interleaves_act_iff {i : Nat} {a : Act} :
    Interleaves start r cs (.act i a :: es) ds ↔
      ∃ c c', cs[i]? = some c ∧ r c a c' ∧ Interleaves start r (cs.set i c') es ds := by
  have hcount : ∀ c', (cs.set i c' ++ entered start es).length =
      (cs ++ entered start es).length := by simp
  constructor
  · intro h
    obtain ⟨hi, horderly⟩ := h.orderly
    have hall : i < (cs ++ entered start es).length := by
      rw [List.length_append]
      omega
    have hc : (cs ++ entered start es)[i]? = some cs[i] := by
      rw [List.getElem?_append_left hi, List.getElem?_eq_getElem hi]
    have hd := List.getElem?_eq_getElem (l := ds) (i := i) (h.length ▸ hall)
    -- What the component does first is what the pool does first.
    have hpath := h.each i cs[i] _ hc hd
    rw [own, if_pos rfl] at hpath
    obtain ⟨c', hstep, hrest⟩ := path_cons_iff.mp hpath
    refine ⟨cs[i], c', List.getElem?_eq_getElem hi, hstep, ?_, ?_, ?_⟩
    · rwa [List.length_set]
    · rw [hcount]
      exact h.length
    · intro j c d hj hdj
      by_cases hij : i = j
      · subst hij
        obtain rfl := Option.some.inj ((getElem?_set_append_self hi c').symm.trans hj)
        obtain rfl := Option.some.inj (hd.symm.trans hdj)
        exact hrest
      · have hold : (cs ++ entered start es)[j]? = some c :=
          (getElem?_set_append_ne hij c').symm.trans hj
        have hother := h.each j c d hold hdj
        rwa [own, if_neg hij] at hother
  · intro h
    obtain ⟨c, c', hc, hstep, h⟩ := h
    obtain ⟨hi, rfl⟩ := List.getElem?_eq_some_iff.mp hc
    refine ⟨⟨hi, by simpa using h.orderly⟩, by simpa [entered] using h.length, ?_⟩
    intro j d e hj he
    rw [entered] at hj
    by_cases hij : i = j
    · subst hij
      have hold : (cs ++ entered start es)[i]? = some cs[i] := by
        rw [List.getElem?_append_left hi, List.getElem?_eq_getElem hi]
      obtain rfl := Option.some.inj (hold.symm.trans hj)
      rw [own, if_pos rfl]
      exact .cons hstep (h.each i c' e (getElem?_set_append_self hi c') he)
    · rw [own, if_neg hij]
      exact h.each j d e ((getElem?_set_append_ne hij c').trans hj) he

/-- **Interleaving**: the runs of a pool are the interleavings of runs of its
components. -/
theorem path_pool_iff : Path (PoolNext start r) cs es ds ↔ Interleaves start r cs es ds := by
  induction es generalizing cs with
  | nil => rw [path_nil_iff, interleaves_nil_iff]
  | cons e es ih =>
    rw [path_cons_iff]
    cases e with
    | enter x =>
      rw [interleaves_enter_iff, ← ih]
      constructor
      · intro h
        obtain ⟨t, hstep, hrest⟩ := h
        cases hstep with
        | enter _ => exact hrest
      · intro h
        exact ⟨_, .enter cs x, h⟩
    | act i a =>
      rw [interleaves_act_iff]
      constructor
      · intro h
        obtain ⟨t, hstep, hrest⟩ := h
        cases hstep with
        | act hc hnext => exact ⟨_, _, hc, hnext, ih.mp hrest⟩
      · intro h
        obtain ⟨c, c', hc, hnext, hrest⟩ := h
        exact ⟨_, .act hc hnext, ih.mpr hrest⟩

/-- Every component of a pool that started empty came in, and got where it
is by its own events. -/
theorem Interleaves.origin (h : Interleaves start r [] es ds) {i : Nat} {d : C}
    (hd : ds[i]? = some d) : ∃ c, (entered start es)[i]? = some c ∧ Path r c (own i es) d := by
  have hlength : ds.length = (entered start es).length := by simpa using h.length
  obtain ⟨hi, -⟩ := List.getElem?_eq_some_iff.mp hd
  have hc := List.getElem?_eq_getElem (l := entered start es) (i := i) (hlength ▸ hi)
  exact ⟨_, hc, h.each i _ d hc hd⟩

theorem exists_of_mem_entered {c : C} (h : c ∈ entered start es) : ∃ x, start x = some c := by
  induction es with
  | nil => exact absurd h List.not_mem_nil
  | cons e es ih =>
    cases e with
    | enter x =>
      rcases List.mem_append.mp h with h | h
      · exact ⟨x, Option.mem_toList.mp h⟩
      · exact ih h
    | act i a => exact ih h

/-- What one component keeps by its own events, it keeps in the pool. -/
theorem PoolNext.keeps {P : C → Prop} (hstep : ∀ c a c', P c → r c a c' → P c')
    {e : PoolEvent Start Act} (h : PoolNext start r cs e ds) {i : Nat}
    (hi : ∃ c, cs[i]? = some c ∧ P c) : ∃ d, ds[i]? = some d ∧ P d := by
  obtain ⟨c, hc, hp⟩ := hi
  obtain ⟨hlt, -⟩ := List.getElem?_eq_some_iff.mp hc
  cases h with
  | enter x => exact ⟨c, by rw [List.getElem?_append_left hlt, hc], hp⟩
  | @act j a d d' hd hr =>
    by_cases hij : j = i
    · subst hij
      obtain rfl := Option.some.inj (hc.symm.trans hd)
      exact ⟨d', List.getElem?_set_self hlt, hstep _ _ _ hp hr⟩
    · exact ⟨c, by rw [List.getElem?_set_ne hij, hc], hp⟩

/-- A pool of one component runs as the component does. -/
theorem path_pool_single {x : Start} {c d : C} {acts : List Act} (hstart : start x = some c)
    (h : Path r c acts d) :
    Path (PoolNext start r) [] (.enter x :: acts.map (.act 0)) [d] := by
  have henter : PoolNext start r [] (.enter x) [c] := by
    have hnext : PoolNext start r [] (.enter x) ([] ++ (start x).toList) := .enter [] x
    rwa [hstart] at hnext
  refine .cons henter ?_
  clear henter hstart
  induction h with
  | nil c => exact .nil [c]
  | cons hstep _ ih =>
    exact .cons (.act rfl hstep) ih

theorem own_acts (i : Nat) (acts : List Act) :
    own i (acts.map (.act i) : List (PoolEvent Start Act)) = acts := by
  induction acts with
  | nil => rfl
  | cons a acts ih => rw [List.map_cons, own, if_pos rfl, ih]

end

/-! ## Rank -/

section

variable {C Start Act : Type} {start : Start → Option C} {r : C → Act → C → Prop}
  {rank : C → Nat} {cs ds : List C} {es : List (PoolEvent Start Act)}

/-- The ranks of the components, together. -/
def poolRank (rank : C → Nat) : List C → Nat
  | [] => 0
  | c :: cs => rank c + poolRank rank cs

theorem poolRank_set {i : Nat} {c : C} (hc : cs[i]? = some c) (c' : C) :
    poolRank rank (cs.set i c') + rank c = poolRank rank cs + rank c' := by
  induction cs generalizing i with
  | nil => simp at hc
  | cons d cs ih =>
    cases i with
    | zero =>
      obtain rfl : d = c := by simpa using hc
      simp only [List.set_cons_zero, poolRank]
      omega
    | succ i =>
      have hrest := ih (by simpa using hc)
      simp only [List.set_cons_succ, poolRank]
      omega

theorem poolRank_le {bound : Nat} (h : ∀ c, rank c ≤ bound) :
    poolRank rank cs ≤ bound * cs.length := by
  induction cs with
  | nil => exact Nat.zero_le _
  | cons c cs ih =>
    have hc := h c
    rw [poolRank, List.length_cons, Nat.mul_succ]
    omega

/-- One of the components acts. -/
def PoolEvent.IsAct (Q : Act → Prop) : PoolEvent Start Act → Prop
  | .enter _ => False
  | .act _ a => Q a

/-- A run of acts that all use up rank is no longer than the rank. -/
theorem Path.length_add_poolRank_le {Q : Act → Prop}
    (hstep : ∀ c a c', r c a c' → Q a → rank c' < rank c)
    (h : Path (PoolNext start r) cs es ds) (hes : ∀ e ∈ es, e.IsAct Q) :
    es.length + poolRank rank ds ≤ poolRank rank cs := by
  induction h with
  | nil cs => simp
  | @cons cs _ _ e es hnext _ ih =>
    have hrest := ih fun e he => hes e (List.mem_cons_of_mem _ he)
    have he := hes e List.mem_cons_self
    cases hnext with
    | enter x => exact he.elim
    | @act i _ c c' hc hr =>
      have hset : poolRank rank (cs.set i c') + rank c = poolRank rank cs + rank c' :=
        poolRank_set hc c'
      have hdown := hstep _ _ _ hr he
      rw [List.length_cons]
      omega

/-- A pool in which some component is not over, but could go on, can go
on. -/
theorem exists_poolNext {P Over : C → Prop} {Q : Act → Prop}
    (hprogress : ∀ c, P c → ¬ Over c → ∃ a c', Q a ∧ r c a c' ∧ P c' ∧ rank c' < rank c)
    (hcs : ∀ c ∈ cs, P c) (hover : ¬ ∀ c ∈ cs, Over c) :
    ∃ (e : PoolEvent Start Act) (ds : List C), e.IsAct Q ∧ PoolNext start r cs e ds ∧
      (∀ d ∈ ds, P d) ∧ poolRank rank ds < poolRank rank cs := by
  simp only [not_forall] at hover
  obtain ⟨c, hmem, hc⟩ := hover
  obtain ⟨a, c', ha, hr, hc', hdown⟩ := hprogress c (hcs c hmem) hc
  obtain ⟨i, hi⟩ := List.mem_iff_getElem?.mp hmem
  refine ⟨.act i a, cs.set i c', ha, .act hi hr, fun d hd => ?_, ?_⟩
  · rcases List.mem_or_eq_of_mem_set hd with hd | rfl
    · exact hcs d hd
    · exact hc'
  · have hset : poolRank rank (cs.set i c') + rank c = poolRank rank cs + rank c' :=
      poolRank_set hi c'
    omega

end

/-! ## Refinement of the components -/

section

variable {C D Start Start' Act Act' : Type}

/-- What the other pool sees of an event. -/
def PoolEvent.map (f : Start → Start') (g : Act → Act') :
    PoolEvent Start Act → PoolEvent Start' Act'
  | .enter x => .enter (f x)
  | .act i a => .act i (g a)

/-- A condition on what components do. -/
def PoolEvent.Acts (Q : Act → Prop) : PoolEvent Start Act → Prop
  | .enter _ => True
  | .act _ a => Q a

theorem own_map (f : Start → Start') (g : Act → Act') (i : Nat)
    (es : List (PoolEvent Start Act)) :
    own i (es.map (PoolEvent.map f g)) = (own i es).map g := by
  induction es with
  | nil => rfl
  | cons e es ih =>
    cases e with
    | enter x => exact ih
    | act j a =>
      rw [List.map_cons, PoolEvent.map, own, own]
      by_cases hj : j = i
      · rw [if_pos hj, if_pos hj, List.map_cons, ih]
      · rw [if_neg hj, if_neg hj, ih]

theorem forall₂_set {rel : C → D → Prop} {cs : List C} {ds : List D} {i : Nat} {c : C} {d : D}
    (h : List.Forall₂ rel cs ds) (hcd : rel c d) : List.Forall₂ rel (cs.set i c) (ds.set i d) := by
  induction h generalizing i with
  | nil => exact .nil
  | cons hhead htail ih =>
    cases i with
    | zero => exact .cons hcd htail
    | succ i => exact .cons hhead ih

theorem forall₂_getElem? {rel : C → D → Prop} {cs : List C} {ds : List D}
    (h : List.Forall₂ rel cs ds) (i : Nat) : Option.Rel rel cs[i]? ds[i]? := by
  induction h generalizing i with
  | nil => exact .none
  | cons hhead _ ih =>
    cases i with
    | zero => exact .some hhead
    | succ i => exact ih i

theorem exists_of_mem_left {rel : C → D → Prop} {cs : List C} {ds : List D}
    (h : List.Forall₂ rel cs ds) {c : C} (hc : c ∈ cs) : ∃ d ∈ ds, rel c d := by
  obtain ⟨i, hi, rfl⟩ := List.mem_iff_getElem.mp hc
  have hd := h.length_eq ▸ hi
  exact ⟨ds[i], List.getElem_mem hd, h.get hi hd⟩

theorem exists_of_mem_right {rel : C → D → Prop} {cs : List C} {ds : List D}
    (h : List.Forall₂ rel cs ds) {d : D} (hd : d ∈ ds) : ∃ c ∈ cs, rel c d :=
  exists_of_mem_left h.flip hd

theorem forall₂_toList {rel : C → D → Prop} {o : Option C} {p : Option D}
    (h : Option.Rel rel o p) : List.Forall₂ rel o.toList p.toList := by
  cases h with
  | none => exact .nil
  | some h => exact .cons h .nil

/-- A refinement of the components is one of their pools. -/
theorem Refinement.pool {r : C → Act → C → Prop} {p : D → Act' → D → Prop}
    {Offered : Act → Prop} {view : Act → Act'} {rel : C → D → Prop}
    (h : Refinement r p Offered view rel) {start : Start → Option C} {start' : Start' → Option D}
    {f : Start → Start'} (hstart : ∀ x, Option.Rel rel (start x) (start' (f x))) :
    Refinement (PoolNext start r) (PoolNext start' p) (PoolEvent.Acts Offered)
      (PoolEvent.map f view) (List.Forall₂ rel) where
  forth := by
    intro cs cs' ds e hrel hstep
    cases hstep with
    | enter x => exact ⟨_, .enter ds (f x), List.rel_append hrel (forall₂_toList (hstart x))⟩
    | @act i a c c' hc hnext =>
      have hi := forall₂_getElem? hrel i
      rw [hc] at hi
      generalize hd : ds[i]? = o at hi
      cases hi with
      | some hcd =>
        obtain ⟨d', hnext', hcd'⟩ := h.forth hcd hnext
        exact ⟨_, .act hd hnext', forall₂_set hrel hcd'⟩
  back := by
    intro cs ds ds' e hrel hoffered hstep
    cases e with
    | enter x =>
      rw [PoolEvent.map] at hstep
      cases hstep with
      | enter _ => exact ⟨_, .enter cs x, List.rel_append hrel (forall₂_toList (hstart x))⟩
    | act i a =>
      rw [PoolEvent.map] at hstep
      cases hstep with
      | @act _ _ d d' hd hnext =>
        have hi := forall₂_getElem? hrel i
        rw [hd] at hi
        generalize hc : cs[i]? = o at hi
        cases hi with
        | some hcd =>
          obtain ⟨c', hnext', hcd'⟩ := h.back hcd hoffered hnext
          exact ⟨_, .act hc hnext', forall₂_set hrel hcd'⟩

end

end Runs
