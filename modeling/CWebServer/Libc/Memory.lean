/-
CWebServer.Libc.Memory — C strings and fixed-size character arrays.

Nothing here names a program. A C string is the part of a character list
before its first NUL (`cstr`); a `char a[n]` is a list that carries the
proof of its length (`CharArray n`), so an array of the wrong size cannot
be built. The unbounded writes of the C library (`strcpy`, the string
conversions of `sscanf`) are length-checked here: `CharArray.store` fails
with a `Fault` where the C write would leave the array. `strncpy` is the
truncating copy, which does not always terminate what it writes.

No `sorry`, no `axiom`, no `native_decide`.
-/
import Mathlib.Data.List.Forall2
import Mathlib.Data.List.TakeWhile

namespace Libc

/-- What a C execution does outside its defined behaviour. -/
inductive Fault where
  /-- An access outside the block it points into. -/
  | outOfBounds (index : Nat)
  /-- A NULL pointer passed where an object is needed. -/
  | nullPointer
  /-- An access to a block or handle already freed or being closed. -/
  | useAfterFree
  /-- A field read that nothing was assigned to. -/
  | indeterminate
  /-- The step bound of a recursive model ran out. -/
  | outOfFuel
  deriving DecidableEq, Repr

theorem bind_ok_iff {α β : Type} {x : Except Fault α} {f : α → Except Fault β} {b : β} :
    (x >>= f) = .ok b ↔ ∃ a, x = .ok a ∧ f a = .ok b := by
  cases x with
  | error e => exact ⟨nofun, fun ⟨_, h, _⟩ => nomatch h⟩
  | ok a => exact ⟨fun h => ⟨a, rfl, h⟩, fun ⟨_, h, hf⟩ => Except.ok.inj h ▸ hf⟩

theorem bind_error_iff {α β : Type} {x : Except Fault α} {f : α → Except Fault β} {e : Fault} :
    (x >>= f) = .error e ↔ x = .error e ∨ ∃ a, x = .ok a ∧ f a = .error e := by
  cases x with
  | error e' =>
    constructor
    · exact fun h => .inl (congrArg Except.error (Except.error.inj h))
    · intro h
      rcases h with h | ⟨_, h, _⟩
      · exact congrArg Except.error (Except.error.inj h)
      · exact nomatch h
  | ok a =>
    constructor
    · exact fun h => .inr ⟨a, rfl, h⟩
    · intro h
      rcases h with h | ⟨_, h, hf⟩
      · exact nomatch h
      · exact Except.ok.inj h ▸ hf

/-- Every fault of `x` is one of `P`. -/
def FaultsIn {α : Type} (P : Fault → Prop) (x : Except Fault α) : Prop :=
  ∀ fault, x = .error fault → P fault

section

variable {α β : Type} {P : Fault → Prop}

theorem faultsIn_ok (a : α) : FaultsIn P (.ok a) := fun _ h => nomatch h

theorem faultsIn_error {fault : Fault} (h : P fault) : FaultsIn P (.error fault : Except Fault α) :=
  fun _ heq => Except.error.inj heq ▸ h

theorem FaultsIn.bind {x : Except Fault α} {f : α → Except Fault β} (hx : FaultsIn P x)
    (hf : ∀ a, FaultsIn P (f a)) : FaultsIn P (x >>= f) := by
  intro fault h
  rcases bind_error_iff.mp h with h | ⟨a, -, h⟩
  · exact hx fault h
  · exact hf a fault h

theorem faultsIn_foldlM {f : β → α → Except Fault β} (hf : ∀ b a, FaultsIn P (f b a))
    (as : List α) (b : β) : FaultsIn P (as.foldlM f b) := by
  induction as generalizing b with
  | nil => exact faultsIn_ok b
  | cons a as ih =>
    rw [List.foldlM_cons]
    exact (hf b a).bind ih

variable {f : α → Except Fault β} {as : List α}

theorem faultsIn_mapM (hf : ∀ a ∈ as, FaultsIn P (f a)) : FaultsIn P (as.mapM f) := by
  induction as with
  | nil => exact faultsIn_ok []
  | cons a as ih =>
    rw [List.mapM_cons]
    refine (hf a (by simp)).bind fun b => ?_
    exact (ih fun a' ha' => hf a' (by simp [ha'])).bind fun bs => faultsIn_ok (b :: bs)

/-- A traversal that succeeds has succeeded everywhere. -/
theorem mapM_ok_iff {bs : List β} :
    as.mapM f = .ok bs ↔ List.Forall₂ (fun a b => f a = .ok b) as bs := by
  induction as generalizing bs with
  | nil =>
    rw [List.mapM_nil, List.forall₂_nil_left_iff]
    exact ⟨fun h => (Except.ok.inj h).symm, fun h => congrArg Except.ok h.symm⟩
  | cons a as ih =>
    rw [List.mapM_cons, bind_ok_iff]
    constructor
    · intro h
      obtain ⟨b, hb, h⟩ := h
      obtain ⟨bs', hbs, heq⟩ := bind_ok_iff.mp h
      exact Except.ok.inj heq ▸ .cons hb (ih.mp hbs)
    · intro h
      cases h with
      | @cons _ b _ bs' hb hbs => exact ⟨b, hb, bind_ok_iff.mpr ⟨bs', ih.mpr hbs, rfl⟩⟩

theorem exists_mapM_ok (hf : ∀ a ∈ as, ∃ b, f a = .ok b) : ∃ bs, as.mapM f = .ok bs := by
  induction as with
  | nil => exact ⟨[], rfl⟩
  | cons a as ih =>
    obtain ⟨b, hb⟩ := hf a (by simp)
    obtain ⟨bs, hbs⟩ := ih fun a' ha' => hf a' (by simp [ha'])
    refine ⟨b :: bs, ?_⟩
    rw [List.mapM_cons]
    exact bind_ok_iff.mpr ⟨b, hb, bind_ok_iff.mpr ⟨bs, hbs, rfl⟩⟩

theorem mapM_congr {g : α → Except Fault β} (h : ∀ a ∈ as, f a = g a) : as.mapM f = as.mapM g := by
  induction as with
  | nil => rfl
  | cons a as ih =>
    rw [List.mapM_cons, List.mapM_cons, h a (by simp), ih fun a' ha' => h a' (by simp [ha'])]

end

/-- The sizes a program's layout depends on. -/
structure Abi where
  sizeofPtr : Nat
  sizeofPtr_pos : 0 < sizeofPtr

/-! ## C strings -/

/-- The NUL that ends a C string. -/
abbrev nul : Char := '\x00'

/-- The C string held at the front of a block. -/
def cstr (s : List Char) : List Char := s.takeWhile (fun c => c != nul)

def strlen (s : List Char) : Nat := (cstr s).length

/-- `strncmp(a, b, n) == 0`: the first `n` characters agree, a terminator
ending the comparison. -/
def strncmpEq (a b : List Char) (n : Nat) : Bool := (cstr a).take n == (cstr b).take n

/-- `strncpy` into a fresh `char s[n + 1]`, then `s[n] = '\0'`, read back
as a C string. -/
def strnstr (s : List Char) (n : Nat) : List Char := (cstr s).take n

/-- What holds of every character of a text is decided along the text. -/
instance decidableForallMem (s : List Char) (p : Char → Prop) [DecidablePred p] :
    Decidable (∀ c ∈ s, p c) :=
  List.decidableBAll p s

/-- The test that a scan for `c` makes of every character before it. -/
theorem bne_of_not_mem {c : Char} {s : List Char} (h : c ∉ s) : ∀ d ∈ s, (d != c) = true := by
  intro d hd
  have hne : d ≠ c := fun heq => h (heq ▸ hd)
  simpa using hne

theorem cstr_of_not_mem {s : List Char} (h : nul ∉ s) : cstr s = s := by
  rw [cstr, List.takeWhile_eq_self_iff]
  exact bne_of_not_mem h

theorem cstr_replicate {c : Char} (hc : c ≠ nul) (n : Nat) :
    cstr (List.replicate n c) = List.replicate n c :=
  cstr_of_not_mem fun h => hc (List.eq_of_mem_replicate h).symm

theorem cstr_replicate_nul (n : Nat) : cstr (List.replicate n nul) = [] := by
  cases n with
  | zero => rfl
  | succ n => simp [cstr, List.replicate_succ]

theorem strlen_of_not_mem {s : List Char} (h : nul ∉ s) : strlen s = s.length := by
  rw [strlen, cstr_of_not_mem h]

theorem nul_not_mem_cstr (s : List Char) : nul ∉ cstr s := by
  intro h
  have := List.mem_takeWhile_imp h
  simp at this

theorem cstr_append_of_not_mem {s : List Char} (h : nul ∉ s) (t : List Char) :
    cstr (s ++ t) = s ++ cstr t := by
  rw [cstr, List.takeWhile_append_of_pos (bne_of_not_mem h)]
  rfl

/-- A terminator behind a block adds nothing to its string. -/
theorem cstr_terminated (s : List Char) : cstr (s ++ [nul]) = cstr s := by
  induction s with
  | nil => rfl
  | cons c s ih =>
    unfold cstr at *
    rw [List.cons_append, List.takeWhile_cons, List.takeWhile_cons, ih]

/-- A terminated block holds the string in front of its NUL. -/
theorem cstr_append_nul {s : List Char} (h : nul ∉ s) : cstr (s ++ [nul]) = s := by
  rw [cstr_terminated, cstr_of_not_mem h]

/-- The string of a longer block is no shorter. -/
theorem prefix_cstr {s t : List Char} (h : s <+: t) : cstr s <+: cstr t := by
  obtain ⟨rest, rfl⟩ := h
  unfold cstr
  rw [List.takeWhile_append]
  split_ifs with hall
  · rw [(List.takeWhile_prefix _).eq_of_length hall]
    exact List.prefix_append _ _
  · exact List.prefix_refl _

/-! ## Fixed-size arrays -/

/-- `char a[n]`, whatever it holds. -/
structure CharArray (n : Nat) where
  chars : List Char
  length_eq : chars.length = n
  deriving DecidableEq, Repr

/-- The array read as a C string; a reader of an array without a NUL sees
all of it. -/
def CharArray.str {n : Nat} (a : CharArray n) : List Char := cstr a.chars

/-- An array of one character. -/
def CharArray.fill (n : Nat) (c : Char) : CharArray n :=
  ⟨List.replicate n c, List.length_replicate⟩

/-- `strcpy(a, s)`, and any other copy that writes `s` and its terminator
without asking for the room. -/
def CharArray.store {n : Nat} (a : CharArray n) (s : List Char) : Except Fault (CharArray n) :=
  if h : s.length < n then
    .ok ⟨s ++ nul :: a.chars.drop (s.length + 1), by
      rw [List.length_append, List.length_cons, List.length_drop, a.length_eq]
      omega⟩
  else .error (.outOfBounds n)

/-- `strncpy(a, s, n)` over the whole of a `char a[n]`: at most `n`
characters of the string, and NULs behind it if there is room. -/
def strncpy (n : Nat) (s : List Char) : CharArray n :=
  ⟨(cstr s).take n ++ List.replicate (n - (cstr s).length) nul, by
    rw [List.length_append, List.length_take, List.length_replicate]
    omega⟩

/-- `strncpy` sees no more than the string. -/
theorem strncpy_congr {n : Nat} {s t : List Char} (h : cstr s = cstr t) :
    strncpy n s = strncpy n t := by
  simp only [strncpy, h]

/-- A copy that succeeds had the room, and leaves the string. -/
theorem CharArray.of_store {n : Nat} {a b : CharArray n} {s : List Char} (h : a.store s = .ok b) :
    s.length < n ∧ (nul ∉ s → b.str = s) := by
  unfold store at h
  split_ifs at h with hlen
  obtain rfl := Except.ok.inj h
  refine ⟨hlen, fun hs => ?_⟩
  change cstr (s ++ nul :: a.chars.drop (s.length + 1)) = s
  rw [cstr_append_of_not_mem hs]
  simp [cstr]

theorem CharArray.faultsIn_store {P : Fault → Prop} (h : ∀ i, P (.outOfBounds i)) {n : Nat}
    (a : CharArray n) (s : List Char) : FaultsIn P (a.store s) := by
  unfold store
  split_ifs with hlen
  · exact faultsIn_ok _
  · exact faultsIn_error (h n)

theorem CharArray.store_ok_iff {n : Nat} {a : CharArray n} {s : List Char} :
    (∃ b, a.store s = .ok b) ↔ s.length < n := by
  refine ⟨fun ⟨_, hb⟩ => (of_store hb).1, fun h => ?_⟩
  rw [store, dif_pos h]
  exact ⟨_, rfl⟩

/-- The array `strncpy` fills is read back as the string, cut at `n`. -/
theorem strncpy_str (n : Nat) (s : List Char) : (strncpy n s).str = (cstr s).take n := by
  have htake : nul ∉ (cstr s).take n := fun h => nul_not_mem_cstr s (List.mem_of_mem_take h)
  change cstr ((cstr s).take n ++ List.replicate (n - (cstr s).length) nul) = _
  rw [cstr_append_of_not_mem htake, cstr_replicate_nul, List.append_nil]

/-- An array is terminated when its string is shorter than it. -/
theorem CharArray.nul_mem_iff {n : Nat} (a : CharArray n) :
    nul ∈ a.chars ↔ a.str.length < n := by
  have hfront : a.str <+: a.chars := List.takeWhile_prefix _
  have hlen := a.length_eq
  constructor
  · intro h
    by_contra hlong
    rw [← hfront.eq_of_length_le (by omega)] at h
    exact nul_not_mem_cstr a.chars h
  · intro h
    by_contra hmem
    have hall : a.str = a.chars := cstr_of_not_mem hmem
    rw [hall] at h
    omega

/-- `strncpy` terminates it only when the string leaves room for that. -/
theorem nul_mem_strncpy_iff {n : Nat} {s : List Char} :
    nul ∈ (strncpy n s).chars ↔ strlen s < n := by
  rw [CharArray.nul_mem_iff, strncpy_str, List.length_take, strlen]
  omega

end Libc
