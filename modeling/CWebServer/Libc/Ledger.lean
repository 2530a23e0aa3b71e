/-
CWebServer.Libc.Ledger — the heap as a ledger of live blocks.

Nothing here names a program. A `Ledger` is the set of blocks allocated and
not yet freed; it carries the proofs that no block is in it twice and that
the next block is a new one, so a block freed twice is not in the ledger
the second time and the second `free` is a fault. What the blocks hold is
not part of it: a program in `Alloc` keeps its data in the values it
computes, with the blocks they occupy.

`Refines pre x y post` compares such a program `x` with one, `y`, that
computes the same data and allocates nothing. Beside the blocks `pre` that
`x` starts with, any others may be live, and they stay live (the frame is
part of the definition, so the rule for sequencing adds it by itself).

No `sorry`, no `axiom`, no `native_decide`.
-/
import CWebServer.Libc.Memory
import Mathlib.Algebra.Order.Group.Multiset
import Mathlib.Tactic.Abel

namespace Libc

/-! ## Blocks -/

/-- The identity of a block, never used again once it is freed. -/
abbrev Block := Nat

structure Ledger where
  next : Block
  live : Multiset Block
  nodup : live.Nodup
  lt_next : ∀ b ∈ live, b < next

def Ledger.empty : Ledger where
  next := 0
  live := 0
  nodup := Multiset.nodup_zero
  lt_next := fun b h => absurd h (Multiset.notMem_zero b)

/-- The ledger with a new block in it. -/
def Ledger.insert (L : Ledger) : Ledger where
  next := L.next + 1
  live := L.next ::ₘ L.live
  nodup := Multiset.nodup_cons.mpr ⟨fun h => Nat.lt_irrefl _ (L.lt_next _ h), L.nodup⟩
  lt_next := by
    intro b h
    rcases Multiset.mem_cons.mp h with rfl | h
    · exact Nat.lt_succ_self _
    · exact Nat.lt_succ_of_lt (L.lt_next b h)

/-- The ledger without a block. -/
def Ledger.erase (L : Ledger) (b : Block) : Ledger where
  next := L.next
  live := L.live.erase b
  nodup := L.nodup.erase b
  lt_next := fun c h => L.lt_next c (Multiset.mem_of_mem_erase h)

/-- A program that allocates. -/
abbrev Alloc := StateT Ledger (Except Fault)

def malloc : Alloc Block := fun L => .ok (L.next, L.insert)

/-- A block that is not live has been freed already. -/
def free (b : Block) : Alloc Unit := fun L =>
  if b ∈ L.live then .ok ((), L.erase b) else .error .useAfterFree

/-- A `realloc` that succeeds: the block may move, so it is another one. -/
def realloc (b : Block) : Alloc Block := do
  free b
  malloc

/-- The blocks behind a pointer that may be NULL. -/
def nullable {α : Type} (blocks : α → Multiset Block) : Option α → Multiset Block
  | none => 0
  | some a => blocks a

/-- The blocks of a list, each entry with its own. -/
def total {α : Type} (blocks : α → Multiset Block) : List α → Multiset Block
  | [] => 0
  | a :: as => blocks a + total blocks as

theorem total_concat {α : Type} (blocks : α → Multiset Block) (as : List α) (a : α) :
    total blocks (as ++ [a]) = total blocks as + blocks a := by
  induction as with
  | nil => simp [total]
  | cons b as ih => rw [List.cons_append, total, total, ih, add_assoc]

/-! ## Programs and what they own -/

/-- `x` computes what `y` does: where `y` returns `b` it returns some `a`,
having turned the blocks `pre` into blocks `own` with `post a b own`, and
where `y` faults so does it. All other blocks are left alone. -/
structure Refines {α β : Type} (pre : Multiset Block) (x : Alloc α) (y : Except Fault β)
    (post : α → β → Multiset Block → Prop) : Prop where
  ok : ∀ b, y = .ok b → ∀ L frame, L.live = pre + frame →
    ∃ a L' own, x L = .ok (a, L') ∧ L'.live = own + frame ∧ post a b own
  error : ∀ e, y = .error e → ∀ L frame, L.live = pre + frame → x L = .error e

/-- The postcondition of a program that builds a copy of a value: the copy
reads as the value, and its blocks are all that is owned. -/
def Stored {α β : Type} (erase : α → β) (blocks : α → Multiset Block) (a : α) (b : β)
    (own : Multiset Block) : Prop :=
  erase a = b ∧ own = blocks a

/-- The postcondition of a program that frees what it was given. -/
def Freed {α β : Type} (_ : α) (_ : β) (own : Multiset Block) : Prop := own = 0

namespace Refines

variable {α α' β β' : Type} {pre p rest : Multiset Block} {x : Alloc α} {y : Except Fault β}
  {mid : α → β → Multiset Block → Prop} {f : α → Alloc α'} {g : β → Except Fault β'}
  {post : α' → β' → Multiset Block → Prop}

theorem pure {a : α'} {b : β'} (h : post a b pre) :
    Refines pre (Pure.pure a) (.ok b) post where
  ok := by
    intro b' hb L frame hL
    obtain rfl := Except.ok.inj hb
    exact ⟨a, L, pre, rfl, hL, h⟩
  error := fun _ h => nomatch h

theorem throw (e : Fault) : Refines pre (MonadExcept.throw e : Alloc α') (.error e) post where
  ok := fun _ h => nomatch h
  error := by
    intro e' he L frame _
    obtain rfl := Except.error.inj he
    rfl

/-- Sequencing: the first program is given some of the blocks, the second
one what it made of them and the others. -/
theorem bind (hpre : pre = p + rest) (hx : Refines p x y mid)
    (hf : ∀ a b own, mid a b own → Refines (own + rest) (f a) (g b) post) :
    Refines pre (x >>= f) (y >>= g) post := by
  subst hpre
  cases y with
  | error e =>
    have herror : ∀ L frame, L.live = p + rest + frame → (x >>= f) L = .error e := by
      intro L frame hL
      change (x L >>= fun r => f r.1 r.2) = .error e
      rw [hx.error e rfl L (rest + frame) (by rw [hL, add_assoc])]
      rfl
    refine ⟨nofun, fun e' he L frame hL => ?_⟩
    rw [herror L frame hL]
    exact congrArg Except.error (Except.error.inj he)
  | ok b =>
    -- The run of `x` is known, so the whole is the run of `f`.
    have hrun : ∀ L frame, L.live = p + rest + frame →
        ∃ a L' own, (x >>= f) L = f a L' ∧ L'.live = own + rest + frame ∧ mid a b own := by
      intro L frame hL
      obtain ⟨a, L', own, hxL, hL', hmid⟩ :=
        hx.ok b rfl L (rest + frame) (by rw [hL, add_assoc])
      refine ⟨a, L', own, ?_, by rw [hL', add_assoc], hmid⟩
      change (x L >>= fun r => f r.1 r.2) = f a L'
      rw [hxL]
      rfl
    constructor
    · intro c hc L frame hL
      obtain ⟨a, L', own, heq, hL', hmid⟩ := hrun L frame hL
      rw [heq]
      exact (hf a b own hmid).ok c hc L' frame hL'
    · intro e he L frame hL
      obtain ⟨a, L', own, heq, hL', hmid⟩ := hrun L frame hL
      rw [heq]
      exact (hf a b own hmid).error e he L' frame hL'

/-- A step that cannot fault has nothing to wait for on the other side. -/
theorem step {b : β} {z : Except Fault β'} (hpre : pre = p + rest) (hx : Refines p x (.ok b) mid)
    (hf : ∀ a own, mid a b own → Refines (own + rest) (f a) z post) :
    Refines pre (x >>= f) z post := by
  have hx' : Refines p x (.ok b) fun a _ own => mid a b own := by
    refine ⟨fun c hc L frame hL => ?_, hx.error⟩
    obtain rfl := Except.ok.inj hc
    exact hx.ok b rfl L frame hL
  exact bind (g := fun _ => z) hpre hx' fun a _ own h => hf a own h

/-- Sequencing behind a program that builds a copy of a value. -/
theorem bind_stored {erase : α → β} {blocks : α → Multiset Block} (hpre : pre = p + rest)
    (hx : Refines p x y (Stored erase blocks))
    (hf : ∀ a, Refines (blocks a + rest) (f a) (g (erase a)) post) :
    Refines pre (x >>= f) (y >>= g) post := by
  refine bind hpre hx fun a b own h => ?_
  obtain ⟨rfl, rfl⟩ := h
  exact hf a

theorem step_stored {erase : α → β} {blocks : α → Multiset Block} {b : β} {z : Except Fault β'}
    (hpre : pre = p + rest) (hx : Refines p x (.ok b) (Stored erase blocks))
    (hf : ∀ a, erase a = b → Refines (blocks a + rest) (f a) z post) :
    Refines pre (x >>= f) z post := by
  refine step hpre hx fun a own h => ?_
  obtain ⟨ha, rfl⟩ := h
  exact hf a ha

/-- A computation that allocates nothing is made on both sides. -/
theorem lift {f : β → Alloc α'} (y : Except Fault β)
    (hf : ∀ b, Refines pre (f b) (g b) post) : Refines pre (liftM y >>= f) (y >>= g) post := by
  cases y with
  | error e =>
    refine ⟨nofun, fun e' he L frame _ => ?_⟩
    obtain rfl := Except.error.inj he
    rfl
  | ok b => exact hf b

/-- The same, where the value matters. -/
theorem lift_of {f : β → Alloc α'} (y : Except Fault β)
    (hf : ∀ b, y = .ok b → Refines pre (f b) (g b) post) :
    Refines pre (liftM y >>= f) (y >>= g) post := by
  cases y with
  | error e =>
    refine ⟨nofun, fun e' he L frame _ => ?_⟩
    obtain rfl := Except.error.inj he
    rfl
  | ok b => exact hf b rfl

/-- A computation on data with blocks, and the same on data without. -/
theorem lift_map {γ : Type} {y : Except Fault γ} {z : Except Fault β} (erase : γ → β)
    {f : γ → Alloc α'} (hz : z = erase <$> y)
    (hf : ∀ c, y = .ok c → Refines pre (f c) (g (erase c)) post) :
    Refines pre (liftM y >>= f) (z >>= g) post := by
  subst hz
  cases y with
  | error e =>
    refine ⟨nofun, fun e' he L frame _ => ?_⟩
    obtain rfl := Except.error.inj he
    rfl
  | ok c => exact hf c rfl

/-- What the program is not given is still owned behind it. -/
theorem frame (rest : Multiset Block) (hx : Refines p x y mid) :
    Refines (p + rest) x y fun a b own => ∃ own', own = own' + rest ∧ mid a b own' where
  ok := by
    intro b hb L frame hL
    obtain ⟨a, L', own, hxL, hL', hmid⟩ := hx.ok b hb L (rest + frame) (by rw [hL, add_assoc])
    exact ⟨a, L', own + rest, hxL, by rw [hL', add_assoc], own, rfl, hmid⟩
  error := fun e he L frame hL => hx.error e he L (rest + frame) (by rw [hL, add_assoc])

theorem mono {mid' : α → β → Multiset Block → Prop} (hx : Refines p x y mid)
    (h : ∀ a b own, mid a b own → mid' a b own) : Refines p x y mid' where
  ok := by
    intro b hb L frame hL
    obtain ⟨a, L', own, hxL, hL', hmid⟩ := hx.ok b hb L frame hL
    exact ⟨a, L', own, hxL, hL', h a b own hmid⟩
  error := hx.error

/-- Some blocks are freed behind a walk over others. -/
theorem then_free {x z : Alloc Unit} {y : Except Fault Unit}
    {mid : Unit → Unit → Multiset Block → Prop} (hx : Refines p x y mid)
    (hz : Refines rest z (.ok ()) Freed) : Refines (p + rest) (do x; z) y mid := by
  have hy : y = (y >>= fun _ => .ok ()) := by cases y <;> rfl
  rw [hy]
  refine bind rfl hx fun _ b own hmid => ?_
  rw [add_comm]
  refine (hz.frame own).mono ?_
  intro _ _ own' h
  obtain ⟨own'', rfl, h⟩ := h
  rw [show own'' = 0 from h, zero_add]
  exact hmid

/-! ## The operations -/

variable {z : Except Fault β'}

theorem malloc {f : Block → Alloc α'} (hf : ∀ b, Refines ({b} + pre) (f b) z post) :
    Refines pre (Libc.malloc >>= f) z post := by
  have hinsert : ∀ (L : Ledger) frame, L.live = pre + frame →
      L.insert.live = {L.next} + pre + frame := by
    intro L frame hL
    change L.next ::ₘ L.live = {L.next} + pre + frame
    rw [hL, add_assoc, Multiset.singleton_add]
  exact ⟨fun c hc L frame hL => (hf L.next).ok c hc L.insert frame (hinsert L frame hL),
    fun e he L frame hL => (hf L.next).error e he L.insert frame (hinsert L frame hL)⟩

theorem free (b : Block) : Refines {b} (Libc.free b) (.ok ()) Freed where
  ok := by
    intro _ _ L frame hL
    have hlive : b ∈ L.live := by simp [hL]
    refine ⟨(), L.erase b, 0, if_pos hlive, ?_, rfl⟩
    change L.live.erase b = 0 + frame
    rw [hL, Multiset.singleton_add, Multiset.erase_cons_head, zero_add]
  error := fun _ h => nomatch h

/-- Sequencing behind a program that frees what it is given. -/
theorem step_freed {x : Alloc Unit} {f : Unit → Alloc α'} (hpre : pre = p + rest)
    (hx : Refines p x (.ok ()) Freed) (hf : Refines rest (f ()) z post) :
    Refines pre (x >>= f) z post := by
  refine step hpre hx fun _ own h => ?_
  rw [show own = 0 from h, zero_add]
  exact hf

theorem realloc (b : Block) {f : Block → Alloc α'} (hf : ∀ b, Refines ({b} + pre) (f b) z post) :
    Refines ({b} + pre) (Libc.realloc b >>= f) z post := by
  have hassoc : Libc.realloc b >>= f = (do Libc.free b; let b ← Libc.malloc; f b) := by
    rw [Libc.realloc, bind_assoc]
  rw [hassoc]
  exact step_freed rfl (free b) (malloc hf)

/-! ## Whole runs -/

section

variable (h : Refines 0 x y mid)

include h

/-- From the empty ledger, what is owned at the end is all that is live. -/
theorem exists_run {b : β} (hy : y = .ok b) :
    ∃ a L, x .empty = .ok (a, L) ∧ mid a b L.live := by
  obtain ⟨a, L, own, hx, hlive, hmid⟩ := h.ok b hy .empty 0 rfl
  rw [add_zero] at hlive
  exact ⟨a, L, hx, hlive ▸ hmid⟩

theorem run_error_iff {e : Fault} : x .empty = .error e ↔ y = .error e := by
  cases y with
  | error e' =>
    rw [h.error e' rfl .empty 0 rfl, Except.error.injEq, Except.error.injEq]
  | ok b =>
    obtain ⟨a, L, hx, -⟩ := h.exists_run rfl
    rw [hx]
    exact ⟨nofun, nofun⟩

theorem of_run {a : α} {L : Ledger} (hx : x .empty = .ok (a, L)) :
    ∃ b, y = .ok b ∧ mid a b L.live := by
  cases y with
  | error e =>
    rw [h.run_error_iff.mpr rfl] at hx
    cases hx
  | ok b =>
    obtain ⟨a', L', hx', hmid⟩ := h.exists_run rfl
    rw [hx', Except.ok.injEq, Prod.mk.injEq] at hx
    obtain ⟨rfl, rfl⟩ := hx
    exact ⟨b, rfl, hmid⟩

end

end Refines

end Libc
