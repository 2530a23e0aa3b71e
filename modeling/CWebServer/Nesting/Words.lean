/-
CWebServer.Nesting.Words — properly nested words over several kinds of
bracket, and what counters see of them.

Nothing here names a program. A letter opens a bracket of some kind,
closes one, or is plain (`Shape`). `Nested` is the stack discipline: every
closer closes the most recent open bracket, of its own kind. A program
without a stack keeps one counter a kind instead, and there are two common
ways to do it: the signed count of openers minus closers (`excess`), and
the count that ignores a closer when nothing is open (`unclosed`).

On a nested word both are exact: they return to where they started, they
never fall below it on the way, they agree on every prefix, and a closer
never meets its own counter at the starting value (`excess_before_closing`).
At a plain letter some signed count is positive exactly inside a pair
(`enclosed_iff`). On other words they say less than the stack does; nothing
here assumes the converse.

No `sorry`, no `axiom`, no `native_decide`.
-/
import Mathlib.Data.List.Basic

namespace Nesting

/-- What a letter does to the brackets. -/
inductive Shape (κ : Type) where
  | opening (k : κ)
  | closing (k : κ)
  | plain
  deriving DecidableEq, Repr

variable {α κ : Type}

/-! ## Nested words -/

/-- Every closer closes the most recent open bracket of its kind. -/
inductive Nested (shape : α → Shape κ) : List α → Prop where
  | nil : Nested shape []
  | plain {a : α} {w : List α} : shape a = .plain → Nested shape w → Nested shape (a :: w)
  | wrap {o c : α} {k : κ} {v w : List α} :
      shape o = .opening k → shape c = .closing k → Nested shape v → Nested shape w →
      Nested shape (o :: (v ++ c :: w))

theorem Nested.append {shape : α → Shape κ} {v w : List α} (hv : Nested shape v)
    (hw : Nested shape w) : Nested shape (v ++ w) := by
  induction hv with
  | nil => exact hw
  | plain ha _ ih => exact .plain ha ih
  | wrap ho hc hv _ _ ih =>
    rw [List.cons_append, List.append_assoc, List.cons_append]
    exact .wrap ho hc hv ih

/-- What nests under a renaming of the letters nests. -/
theorem Nested.of_map {β : Type} {f : β → α} {shape : α → Shape κ} {v : List α}
    (h : Nested shape v) : ∀ {w : List β}, w.map f = v → Nested (fun b => shape (f b)) w := by
  induction h with
  | nil =>
    intro w hw
    rw [List.map_eq_nil_iff.mp hw]
    exact .nil
  | plain ha _ ih =>
    intro w hw
    obtain ⟨b, u, rfl, rfl, hu⟩ := List.map_eq_cons_iff.mp hw
    exact .plain ha (ih hu)
  | wrap ho hc _ _ ihv ihw =>
    intro w hw
    obtain ⟨o, u, rfl, rfl, hu⟩ := List.map_eq_cons_iff.mp hw
    obtain ⟨v, x, rfl, hv, hx⟩ := List.map_eq_append_iff.mp hu
    obtain ⟨c, y, rfl, rfl, hy⟩ := List.map_eq_cons_iff.mp hx
    exact .wrap ho hc (ihv hv) (ihw hy)

/-- How a prefix of `v ++ c :: w` ends: inside `v`, or behind `c`. -/
theorem prefix_split {p s v w : List α} {c : α} (h : p ++ s = v ++ c :: w) :
    (∃ x, v = p ++ x ∧ s = x ++ c :: w) ∨ (∃ x, p = v ++ c :: x ∧ w = x ++ s) := by
  rcases List.append_eq_append_iff.mp h with ⟨x, hv, hs⟩ | ⟨x, hp, hw⟩
  · exact Or.inl ⟨x, hv, hs⟩
  · cases x with
    | nil => exact Or.inl ⟨[], by simpa using hp.symm, by simpa using hw.symm⟩
    | cons d x =>
      obtain ⟨rfl, rfl⟩ := List.cons.inj hw
      exact Or.inr ⟨x, hp, rfl⟩

/-- An opener inside a nested word has its closer behind it, with a nested
word between them. -/
theorem Nested.exists_closing {shape : α → Shape κ} {w : List α} (h : Nested shape w) :
    ∀ {p s : List α} {o : α} {k : κ}, w = p ++ o :: s → shape o = .opening k →
      ∃ v c t, s = v ++ c :: t ∧ Nested shape v ∧ shape c = .closing k := by
  induction h with
  | nil =>
    intro p s o k hw
    simp at hw
  | @plain a w ha _ ih =>
    intro p s o k hw ho
    cases p with
    | nil =>
      obtain ⟨rfl, -⟩ := List.cons.inj hw
      rw [ha] at ho
      cases ho
    | cons b p => exact ih (List.cons.inj hw).2 ho
  | @wrap o' c' k' v w ho' hc' hv _ ihv ihw =>
    intro p s o k hw ho
    cases p with
    | nil =>
      obtain ⟨rfl, rfl⟩ := List.cons.inj hw
      rw [ho'] at ho
      cases ho
      exact ⟨v, c', w, rfl, hv, hc'⟩
    | cons b p =>
      rcases prefix_split (List.cons.inj hw).2.symm with ⟨x, hx, hs⟩ | ⟨x, -, hx⟩
      · cases x with
        | nil =>
          -- The opener would be the closer `c'`.
          obtain ⟨rfl, -⟩ := List.cons.inj hs
          rw [hc'] at ho
          cases ho
        | cons d x =>
          obtain ⟨rfl, rfl⟩ := List.cons.inj hs
          obtain ⟨v', c, t, rfl, hv', hc⟩ := ihv hx ho
          exact ⟨v', c, t ++ c' :: w, by simp, hv', hc⟩
      · exact ihw hx ho

/-- Position `n` lies strictly between a bracket of `w` and its match. -/
def Enclosed (shape : α → Shape κ) (w : List α) (n : Nat) : Prop :=
  ∃ p o v c s k, w = p ++ o :: (v ++ c :: s) ∧ shape o = .opening k ∧ shape c = .closing k ∧
    Nested shape v ∧ p.length < n ∧ n ≤ p.length + v.length

/-- What is enclosed stays so behind more letters. -/
theorem Enclosed.append_left {w : List α} {n : Nat} (h : Enclosed shape w n) (u : List α) :
    Enclosed shape (u ++ w) (u.length + n) := by
  obtain ⟨p, o, v, c, s, k, rfl, ho, hc, hv, hlt, hle⟩ := h
  refine ⟨u ++ p, o, v, c, s, k, by simp, ho, hc, hv, ?_, ?_⟩ <;>
    · rw [List.length_append]
      omega

/-! ## The two ways to count -/

variable [DecidableEq κ] (shape : α → Shape κ)

/-- One letter's effect on a count that stops at zero. -/
def stepUnclosed (k : κ) (n : Nat) (a : α) : Nat :=
  if shape a = .opening k then n + 1
  else if shape a = .closing k then n - 1
  else n

/-- The brackets of kind `k` left open by `w`, from `n` open ones; a closer
with nothing to close is ignored. -/
def unclosed (k : κ) (n : Nat) (w : List α) : Nat := w.foldl (stepUnclosed shape k) n

/-- One letter's effect on a signed count. -/
def delta (k : κ) (a : α) : Int :=
  if shape a = .opening k then 1 else if shape a = .closing k then -1 else 0

/-- Openers minus closers of kind `k`. -/
def excess (k : κ) : List α → Int
  | [] => 0
  | a :: w => delta shape k a + excess k w

@[simp] theorem unclosed_nil (k : κ) (n : Nat) : unclosed shape k n [] = n := rfl

@[simp] theorem unclosed_cons (k : κ) (n : Nat) (a : α) (w : List α) :
    unclosed shape k n (a :: w) = unclosed shape k (stepUnclosed shape k n a) w := rfl

@[simp] theorem excess_nil (k : κ) : excess shape k [] = 0 := rfl

@[simp] theorem excess_cons (k : κ) (a : α) (w : List α) :
    excess shape k (a :: w) = delta shape k a + excess shape k w := rfl

@[simp] theorem excess_append (k : κ) (v w : List α) :
    excess shape k (v ++ w) = excess shape k v + excess shape k w := by
  induction v with
  | nil => simp
  | cons a v ih =>
    simp only [List.cons_append, excess_cons, ih]
    omega

/-! ## What the counts see of a nested word -/

variable {shape}

theorem delta_plain {a : α} (ha : shape a = .plain) (k : κ) : delta shape k a = 0 := by
  simp [delta, ha]

/-- A pair leaves every count as it was, that of its own kind too. -/
theorem delta_pair {o c : α} {k' : κ} (ho : shape o = .opening k') (hc : shape c = .closing k')
    (k : κ) : delta shape k o + delta shape k c = 0 := by
  by_cases hk : k' = k <;> simp [delta, ho, hc, hk]

/-- A nested word returns to the count it started from. -/
theorem Nested.excess_eq {w : List α} (h : Nested shape w) (k : κ) : excess shape k w = 0 := by
  induction h with
  | nil => rfl
  | plain ha _ ih => rw [excess_cons, delta_plain ha, ih, Int.add_zero]
  | wrap ho hc _ _ ihv ihw =>
    have hpair := delta_pair ho hc k
    simp only [excess_cons, excess_append, ihv, ihw]
    omega

/-- No prefix of a nested word closes more than it opens. -/
theorem Nested.excess_prefix {w : List α} (h : Nested shape w) (k : κ) :
    ∀ {p s : List α}, w = p ++ s → 0 ≤ excess shape k p := by
  induction h with
  | nil =>
    intro p s hp
    rw [(List.append_eq_nil_iff.mp hp.symm).1]
    exact Int.le_refl _
  | @plain a w ha _ ih =>
    intro p s hp
    cases p with
    | nil => exact Int.le_refl _
    | cons b p =>
      obtain ⟨rfl, hw⟩ := List.cons.inj hp
      rw [excess_cons, delta_plain ha, Int.zero_add]
      exact ih hw
  | @wrap o c k' v w ho hc hv hw ihv ihw =>
    intro p s hp
    cases p with
    | nil => exact Int.le_refl _
    | cons b p =>
      obtain ⟨rfl, hrest⟩ := List.cons.inj hp
      have hopen : 0 ≤ delta shape k o := by
        by_cases hk : k' = k <;> simp [delta, ho, hk]
      rcases prefix_split hrest.symm with ⟨x, hx, -⟩ | ⟨x, rfl, hx⟩
      · have := ihv hx
        simp only [excess_cons]
        omega
      · have h1 := hv.excess_eq k
        have h2 := ihw hx
        have hpair := delta_pair ho hc k
        simp only [excess_cons, excess_append, h1]
        omega

/-- A closer inside a nested word has its opener before it. -/
theorem Nested.excess_before_closing {w : List α} (h : Nested shape w) {k : κ}
    {p s : List α} {c : α} (hw : w = p ++ c :: s) (hc : shape c = .closing k) :
    0 < excess shape k p := by
  have hpre : 0 ≤ excess shape k (p ++ [c]) := h.excess_prefix k (s := s) (by simp [hw])
  have hclose : delta shape k c = -1 := by simp [delta, hc]
  simp only [excess_append, excess_cons, excess_nil, hclose] at hpre
  omega

/-- Where no prefix falls below the start, the count that stops at zero is
the signed one. -/
theorem unclosed_eq_excess (k : κ) (n : Nat) (w : List α)
    (h : ∀ p s, w = p ++ s → 0 ≤ n + excess shape k p) :
    (unclosed shape k n w : Int) = n + excess shape k w := by
  induction w generalizing n with
  | nil => simp
  | cons a w ih =>
    have h1 := h [a] w rfl
    simp only [excess_cons, excess_nil] at h1
    have hstep : (stepUnclosed shape k n a : Int) = n + delta shape k a := by
      unfold stepUnclosed
      unfold delta at h1 ⊢
      split_ifs at h1 ⊢ <;> omega
    have htail : ∀ p s, w = p ++ s →
        0 ≤ (stepUnclosed shape k n a : Int) + excess shape k p := by
      intro p s hp
      have := h (a :: p) s (by simp [hp])
      simp only [excess_cons] at this
      omega
    rw [unclosed_cons, ih _ htail, hstep, excess_cons]
    omega

/-- On every prefix of a nested word the two counts agree. -/
theorem Nested.unclosed_prefix {p s : List α} (h : Nested shape (p ++ s)) (k : κ) (n : Nat) :
    (unclosed shape k n p : Int) = n + excess shape k p := by
  apply unclosed_eq_excess
  intro q t hq
  have := h.excess_prefix k (p := q) (s := t ++ s) (by simp [hq])
  omega

theorem Nested.unclosed_eq {w : List α} (h : Nested shape w) (k : κ) (n : Nat) :
    unclosed shape k n w = n := by
  have hpre := Nested.unclosed_prefix (p := w) (s := []) (by simpa using h) k n
  rw [h.excess_eq k] at hpre
  omega

/-! ## What the counts see of a pair -/

/-- The signed count is positive inside a pair of its kind. -/
theorem Enclosed.excess_pos {w : List α} (hw : Nested shape w) {n : Nat}
    (h : Enclosed shape w n) : ∃ k, 0 < excess shape k (w.take n) := by
  obtain ⟨p, o, v, c, s, k, rfl, ho, -, hv, hlt, hle⟩ := h
  obtain ⟨m, rfl⟩ : ∃ m, n = p.length + (m + 1) := ⟨n - p.length - 1, by omega⟩
  have hm : m ≤ v.length := by omega
  have htake : (p ++ o :: (v ++ c :: s)).take (p.length + (m + 1)) = p ++ o :: v.take m := by
    rw [List.take_length_add_append, List.take_succ_cons, List.take_append_of_le_length hm]
  have hp : 0 ≤ excess shape k p := hw.excess_prefix k rfl
  have hinner : 0 ≤ excess shape k (v.take m) :=
    hv.excess_prefix k (List.take_append_drop m v).symm
  refine ⟨k, ?_⟩
  rw [htake]
  simp only [excess_append, excess_cons, delta, ho, if_true]
  omega

/-- Where a signed count of a nested word is positive at a plain letter, a
pair is open around it. -/
theorem Nested.enclosed_of_excess_pos {w : List α} (hw : Nested shape w) {k : κ} :
    ∀ {n : Nat} {a : α}, w[n]? = some a → shape a = .plain → 0 < excess shape k (w.take n) →
      Enclosed shape w n := by
  induction hw with
  | nil =>
    intro n a ha
    simp at ha
  | @plain b w hb _ ih =>
    intro n a ha hplain hpos
    cases n with
    | zero => simp at hpos
    | succ n =>
      rw [List.take_succ_cons, excess_cons, delta_plain hb, Int.zero_add] at hpos
      have := (ih (by simpa using ha) hplain hpos).append_left [b]
      rwa [List.length_singleton, Nat.add_comm] at this
  | @wrap o c k' v w ho hc hv _ _ ih =>
    intro n a ha hplain hpos
    cases n with
    | zero => simp at hpos
    | succ n =>
      rw [List.getElem?_cons_succ] at ha
      rcases Nat.lt_trichotomy n v.length with hlt | heq | hgt
      · exact ⟨[], o, v, c, w, k', rfl, ho, hc, hv, Nat.succ_pos n, by simp; omega⟩
      · subst heq
        -- The letter would be the closer.
        rw [List.getElem?_append_right (Nat.le_refl _), Nat.sub_self] at ha
        obtain rfl : c = a := by simpa using ha
        rw [hc] at hplain
        cases hplain
      · obtain ⟨m, rfl⟩ : ∃ m, n = v.length + (m + 1) := ⟨n - v.length - 1, by omega⟩
        rw [List.getElem?_append_right (by omega), Nat.add_sub_cancel_left,
          List.getElem?_cons_succ] at ha
        have hpair := delta_pair ho hc k
        have htail : 0 < excess shape k (w.take m) := by
          rw [List.take_succ_cons, List.take_length_add_append, List.take_succ_cons] at hpos
          simp only [excess_cons, excess_append, hv.excess_eq k] at hpos
          omega
        have := (ih ha hplain htail).append_left (o :: (v ++ [c]))
        simp only [List.cons_append, List.append_assoc, List.nil_append, List.length_cons,
          List.length_append, List.length_nil] at this
        convert this using 1
        omega

/-- **At a plain letter** of a nested word some signed count is positive
exactly inside a pair. -/
theorem Nested.enclosed_iff {w : List α} (hw : Nested shape w) {n : Nat} {a : α}
    (ha : w[n]? = some a) (hplain : shape a = .plain) :
    Enclosed shape w n ↔ ∃ k, 0 < excess shape k (w.take n) :=
  ⟨fun h => h.excess_pos hw, fun h => h.elim fun _ => hw.enclosed_of_excess_pos ha hplain⟩

end Nesting
