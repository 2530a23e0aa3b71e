/-
CWebServer.Nesting.Separated — words made of items with one separator
between neighbours.

Nothing here names a program. `Separated` relates the items to the word;
`itemStart` is where an item begins in it, which is also one behind the
separator before it (`itemStarts_cons`), and `Separated.split` cuts the
word at an item.

No `sorry`, no `axiom`, no `native_decide`.
-/
import Mathlib.Data.List.Basic

namespace Nesting

variable {α : Type}

/-- `w` is the items, with a separator between each two. -/
inductive Separated (sep : α → Prop) : (items : List (List α)) → (w : List α) → Prop where
  | nil : Separated sep [] []
  | one (v : List α) : Separated sep [v] v
  | cons {v u w : List α} {s : α} {vs : List (List α)} :
      sep s → Separated sep (u :: vs) w → Separated sep (v :: u :: vs) (v ++ s :: w)

/-- Where item `j` begins: behind the items before it, and a separator each. -/
def itemStart (items : List (List α)) (j : Nat) : Nat :=
  (items.take j).flatten.length + j

@[simp] theorem itemStart_zero (items : List (List α)) : itemStart items 0 = 0 := by
  simp [itemStart]

@[simp] theorem itemStart_cons_succ (v : List α) (items : List (List α)) (j : Nat) :
    itemStart (v :: items) (j + 1) = v.length + 1 + itemStart items j := by
  rw [itemStart, itemStart, List.take_succ_cons, List.flatten_cons, List.length_append]
  omega

/-- The beginnings of all items. -/
def itemStarts (items : List (List α)) : List Nat :=
  (List.range items.length).map (itemStart items)

@[simp] theorem length_itemStarts (items : List (List α)) :
    (itemStarts items).length = items.length := by
  simp [itemStarts]

theorem itemStarts_cons (v : List α) (items : List (List α)) :
    itemStarts (v :: items) = 0 :: (itemStarts items).map (v.length + 1 + ·) := by
  simp [itemStarts, List.range_succ_eq_map, Function.comp_def]

/-- The word, cut where item `j` begins and where it ends; a separator
follows it unless nothing does. -/
theorem Separated.split {sep : α → Prop} {items : List (List α)} {w : List α}
    (h : Separated sep items w) :
    ∀ {j : Nat} {v : List α}, items[j]? = some v →
      ∃ p s, w = p ++ (v ++ s) ∧ p.length = itemStart items j ∧
        (j + 1 < items.length → ∃ c t, s = c :: t ∧ sep c) := by
  induction h with
  | nil =>
    intro j v hv
    simp at hv
  | one u =>
    intro j v hv
    cases j with
    | zero =>
      obtain rfl := Option.some.inj hv
      exact ⟨[], [], by simp, by simp, by simp⟩
    | succ j => simp at hv
  | @cons u u' w s vs hs _ ih =>
    intro j v hv
    cases j with
    | zero =>
      obtain rfl := Option.some.inj hv
      exact ⟨[], s :: w, rfl, by simp, fun _ => ⟨s, w, rfl, hs⟩⟩
    | succ j =>
      obtain ⟨p, t, rfl, hp, ht⟩ := ih (by simpa using hv)
      refine ⟨u ++ s :: p, t, by simp, ?_, fun hlt => ht (by simpa using hlt)⟩
      rw [itemStart_cons_succ, ← hp, List.length_append, List.length_cons]
      omega

end Nesting
