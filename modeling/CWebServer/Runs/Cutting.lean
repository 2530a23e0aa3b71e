/-
CWebServer.Runs.Cutting — a list that arrives in chunks.

Nothing here names a program. A `Cutting` of a list is a list of non-empty
chunks that give it back. A reader that stops once `n` elements are there
has received whole chunks (`upTo`), so it may have received more than `n`;
what it has is a prefix of the list, and two readers of two cuttings need
not have the same one.

No `sorry`, no `axiom`, no `native_decide`.
-/
import Mathlib.Data.List.Infix

namespace Runs

variable {α : Type}

/-- Non-empty chunks, in order, that make up the list. -/
structure Cutting (whole : List α) where
  chunks : List (List α)
  ne_nil : ∀ chunk ∈ chunks, chunk ≠ []
  flatten_eq : chunks.flatten = whole

/-- The chunks up to the first with which `n` elements are there. -/
def upTo (n : Nat) : List (List α) → List (List α)
  | [] => []
  | chunk :: chunks => chunk :: if n ≤ chunk.length then [] else upTo (n - chunk.length) chunks

theorem upTo_prefix (n : Nat) (chunks : List (List α)) : upTo n chunks <+: chunks := by
  induction chunks generalizing n with
  | nil => exact List.prefix_refl []
  | cons chunk chunks ih =>
    rw [upTo, List.prefix_cons_inj]
    by_cases h : n ≤ chunk.length
    · rw [if_pos h]
      exact List.nil_prefix
    · rw [if_neg h]
      exact ih (n - chunk.length)

/-- What a reader of `n` elements has received. -/
def Cutting.received {whole : List α} (cutting : Cutting whole) (n : Nat) : List α :=
  (upTo n cutting.chunks).flatten

theorem Cutting.received_prefix {whole : List α} (cutting : Cutting whole) (n : Nat) :
    cutting.received n <+: whole := by
  obtain ⟨rest, hrest⟩ := upTo_prefix n cutting.chunks
  refine ⟨rest.flatten, ?_⟩
  rw [received, ← List.flatten_append, hrest, cutting.flatten_eq]

end Runs
