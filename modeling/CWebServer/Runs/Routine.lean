/-
CWebServer.Runs.Routine — routines that keep their place in a register.

Nothing here names a program. A `Routine` works in calls: the first one
sets a register, each later one reads it and sets it again, and the last
one has a result. What it has between two calls besides the register is its
own. `Tasks` are several uses of one routine whose calls come in any order;
each uses one register, and two of them may use the same.

A register remembers who set it. When a task finds what another one left,
it goes on with that, or fails if that one is over (`stale`). A task that
has its register for itself from its first call to its last is where its
own calls alone lead (`Apart`), so what it ends with is what the routine
ends with alone.

No `sorry`, no `axiom`, no `native_decide`.
-/
import Mathlib.Logic.Function.Basic

namespace Runs

/-- A routine in calls. `stale` is the fault of a call whose register was
set by a task that is over. -/
structure Routine (Input Vars Register Result Fault : Type) where
  start : Input → Except Fault (Vars × Register)
  resume : Input → Vars → Register → Except Fault ((Vars × Register) ⊕ Result)
  stale : Fault

namespace Routine

variable {Input Vars Register Result Fault : Type}
  (R : Routine Input Vars Register Result Fault)

/-! ## A routine alone -/

/-- Where the calls of one task lead when no other comes between. -/
inductive Reached (input : Input) : Vars → Register → Prop where
  | start {vars : Vars} {saved : Register} :
      R.start input = .ok (vars, saved) → Reached input vars saved
  | resume {vars vars' : Vars} {saved saved' : Register} :
      Reached input vars saved → R.resume input vars saved = .ok (.inl (vars', saved')) →
        Reached input vars' saved'

/-- The last call has this result. -/
def Yields (input : Input) (result : Result) : Prop :=
  ∃ vars saved, R.Reached input vars saved ∧ R.resume input vars saved = .ok (.inr result)

/-- Some call has this fault. -/
def Fails (input : Input) (fault : Fault) : Prop :=
  R.start input = .error fault ∨
    ∃ vars saved, R.Reached input vars saved ∧ R.resume input vars saved = .error fault

variable {R}

/-- A routine whose calls use up the register ends. -/
theorem Reached.ends {size : Register → Nat}
    (hdown : ∀ input vars vars' saved saved',
      R.resume input vars saved = .ok (.inl (vars', saved')) → size saved' < size saved)
    {input : Input} {vars : Vars} {saved : Register} (h : R.Reached input vars saved) :
    (∃ result, R.Yields input result) ∨ ∃ fault, R.Fails input fault := by
  induction hn : size saved using Nat.strongRecOn generalizing vars saved with
  | _ n ih =>
    cases hresume : R.resume input vars saved with
    | error fault => exact .inr ⟨fault, .inr ⟨vars, saved, h, hresume⟩⟩
    | ok next =>
      cases next with
      | inr result => exact .inl ⟨result, vars, saved, h, hresume⟩
      | inl next => exact ih _ (hn ▸ hdown _ _ _ _ _ hresume) (h.resume hresume) rfl

end Routine

/-! ## Several tasks -/

/-- A use of the routine: what it was started on, its register, and its own
variables. -/
structure Task (Input Vars : Type) where
  input : Input
  register : Nat
  vars : Vars

/-- The tasks under way, and of each register who set it last, and to
what. -/
structure Tasks (Input Vars Register : Type) where
  running : Nat → Option (Task Input Vars)
  saved : Nat → Option (Nat × Register)

namespace Tasks

variable {Input Vars Register Result Fault : Type}

/-- Nothing under way. -/
def idle : Tasks Input Vars Register where
  running _ := none
  saved _ := none

section

variable (s : Tasks Input Vars Register)

/-- Task `i` begins, goes on or is over. -/
def setRunning (i : Nat) (task : Option (Task Input Vars)) : Tasks Input Vars Register :=
  { s with running := Function.update s.running i task }

def setSaved (register owner : Nat) (saved : Register) : Tasks Input Vars Register :=
  { s with saved := Function.update s.saved register (some (owner, saved)) }

variable {s}

@[simp]
theorem running_setRunning (i : Nat) (task : Option (Task Input Vars)) :
    (s.setRunning i task).running i = task :=
  Function.update_self ..

theorem running_setRunning_ne {i j : Nat} (h : j ≠ i) (task : Option (Task Input Vars)) :
    (s.setRunning i task).running j = s.running j :=
  Function.update_of_ne h ..

@[simp]
theorem saved_setRunning (i : Nat) (task : Option (Task Input Vars)) :
    (s.setRunning i task).saved = s.saved := rfl

@[simp]
theorem saved_setSaved (register owner : Nat) (saved : Register) :
    (s.setSaved register owner saved).saved register = some (owner, saved) :=
  Function.update_self ..

theorem saved_setSaved_ne {register register' : Nat} (h : register' ≠ register) (owner : Nat)
    (saved : Register) : (s.setSaved register owner saved).saved register' = s.saved register' :=
  Function.update_of_ne h ..

@[simp]
theorem running_setSaved (register owner : Nat) (saved : Register) :
    (s.setSaved register owner saved).running = s.running := rfl

end

variable (R : Routine Input Vars Register Result Fault) (s : Tasks Input Vars Register)

/-- The first call of task `i`. -/
def start (i register : Nat) (input : Input) : Except Fault (Tasks Input Vars Register) := do
  let (vars, saved) ← R.start input
  .ok ((s.setRunning i (some { input, register, vars })).setSaved register i saved)

/-- The next call of task `i`, with what its register holds. A call leaves
a register to the one who set it. -/
def resume (i : Nat) : Except Fault (Tasks Input Vars Register × Option Result) :=
  match s.running i with
  | none => .ok (s, none)
  | some task =>
    match s.saved task.register with
    | none => .error R.stale
    | some (owner, saved) =>
      if (s.running owner).isSome then do
        match ← R.resume task.input task.vars saved with
        | .inl (vars, saved) =>
          .ok ((s.setRunning i (some { task with vars })).setSaved task.register owner saved, none)
        | .inr result => .ok (s.setRunning i none, some result)
      else .error R.stale

/-- Each task has its register, and is where its own calls alone lead. -/
def Apart : Prop :=
  ∀ i task, s.running i = some task →
    ∃ saved, s.saved task.register = some (i, saved) ∧ R.Reached task.input task.vars saved

variable {R s}

theorem apart_idle : Apart R (idle : Tasks Input Vars Register) := by
  intro i task h
  cases h

theorem start_ok_iff {i register : Nat} {input : Input} {s' : Tasks Input Vars Register} :
    s.start R i register input = .ok s' ↔ ∃ vars saved, R.start input = .ok (vars, saved) ∧
      s' = (s.setRunning i (some { input, register, vars })).setSaved register i saved := by
  unfold start
  cases R.start input with
  | error fault => exact iff_of_false nofun (fun ⟨_, _, h, _⟩ => nomatch h)
  | ok next =>
    obtain ⟨vars, saved⟩ := next
    constructor
    · intro h
      exact ⟨vars, saved, rfl, (Except.ok.inj h).symm⟩
    · intro h
      obtain ⟨vars', saved', heq, rfl⟩ := h
      obtain ⟨rfl, rfl⟩ := Prod.mk.inj (Except.ok.inj heq)
      rfl

theorem start_error_iff {i register : Nat} {input : Input} {fault : Fault} :
    s.start R i register input = .error fault ↔ R.start input = .error fault := by
  unfold start
  cases R.start input with
  | error fault' =>
    constructor
    · intro h
      exact congrArg Except.error (Except.error.inj h)
    · intro h
      exact congrArg Except.error (Except.error.inj h)
  | ok next => exact iff_of_false nofun nofun

/-- What is under way after a first call. -/
theorem running_of_start {i register : Nat} {input : Input} {s' : Tasks Input Vars Register}
    (hstart : s.start R i register input = .ok s') {j : Nat} {task : Task Input Vars}
    (hj : s'.running j = some task) :
    (j = i ∧ task.register = register ∧ task.input = input) ∨ s.running j = some task := by
  obtain ⟨vars, saved, -, rfl⟩ := start_ok_iff.mp hstart
  rw [running_setSaved] at hj
  by_cases hji : j = i
  · subst hji
    rw [running_setRunning] at hj
    obtain rfl := Option.some.inj hj
    exact .inl ⟨rfl, rfl, rfl⟩
  · exact .inr ((running_setRunning_ne hji _).symm.trans hj)

/-- A task that starts on a register no other uses leaves all apart. -/
theorem Apart.start (h : s.Apart R) {i register : Nat} {input : Input}
    {s' : Tasks Input Vars Register}
    (hfree : ∀ j task, s.running j = some task → task.register ≠ register)
    (hstart : s.start R i register input = .ok s') : s'.Apart R := by
  obtain ⟨vars, saved, heq, rfl⟩ := start_ok_iff.mp hstart
  intro j task hj
  rw [running_setSaved] at hj
  by_cases hji : j = i
  · subst hji
    rw [running_setRunning] at hj
    obtain rfl := Option.some.inj hj
    exact ⟨saved, saved_setSaved .., .start heq⟩
  · rw [running_setRunning_ne hji] at hj
    rw [saved_setSaved_ne (hfree j task hj)]
    exact h j task hj

section

variable (h : s.Apart R) {i : Nat} {task : Task Input Vars} (hi : s.running i = some task)

include h hi

/-- The next call of a task finds what the task's last one left. -/
theorem Apart.resume_eq : ∃ saved, s.saved task.register = some (i, saved) ∧
    R.Reached task.input task.vars saved ∧
    s.resume R i = (R.resume task.input task.vars saved).map fun
      | .inl (vars, saved) =>
        ((s.setRunning i (some { task with vars })).setSaved task.register i saved, none)
      | .inr result => (s.setRunning i none, some result) := by
  obtain ⟨saved, hsaved, hreached⟩ := h i task hi
  refine ⟨saved, hsaved, hreached, ?_⟩
  unfold resume
  simp only [hi, hsaved, Option.isSome_some, if_true]
  cases R.resume task.input task.vars saved with
  | error fault => rfl
  | ok next =>
    cases next with
    | inl next => rfl
    | inr result => rfl

/-- A call that goes wrong does so for the task alone too. -/
theorem Apart.fails_of_resume {fault : Fault} (hresume : s.resume R i = .error fault) :
    R.Fails task.input fault := by
  obtain ⟨saved, -, hreached, heq⟩ := h.resume_eq hi
  rw [heq] at hresume
  cases hcall : R.resume task.input task.vars saved with
  | error fault' =>
    rw [hcall] at hresume
    obtain rfl := Except.error.inj hresume
    exact .inr ⟨_, saved, hreached, hcall⟩
  | ok next =>
    rw [hcall] at hresume
    cases hresume

variable {s' : Tasks Input Vars Register} {out : Option Result}
  (hresume : s.resume R i = .ok (s', out))

include hresume

/-- A call goes on, or ends the task with a result of the routine. -/
theorem Apart.resume_cases :
    (∃ vars saved saved', s.saved task.register = some (i, saved) ∧
      R.resume task.input task.vars saved = .ok (.inl (vars, saved')) ∧ out = none ∧
      s' = (s.setRunning i (some { task with vars })).setSaved task.register i saved') ∨
    ∃ result, R.Yields task.input result ∧ out = some result ∧ s' = s.setRunning i none := by
  obtain ⟨saved, hsaved, hreached, heq⟩ := h.resume_eq hi
  rw [heq] at hresume
  cases hcall : R.resume task.input task.vars saved with
  | error fault =>
    rw [hcall] at hresume
    cases hresume
  | ok next =>
    rw [hcall] at hresume
    cases next with
    | inl next =>
      obtain ⟨rfl, rfl⟩ := Prod.mk.inj (Except.ok.inj hresume)
      exact .inl ⟨next.1, saved, next.2, hsaved, hcall, rfl, rfl⟩
    | inr result =>
      obtain ⟨rfl, rfl⟩ := Prod.mk.inj (Except.ok.inj hresume)
      exact .inr ⟨result, ⟨_, saved, hreached, hcall⟩, rfl, rfl⟩

/-- What is under way after a call was so before, on the same input and the
same register; and the task is over if it has a result. -/
theorem Apart.running_of_resume {j : Nat} {task' : Task Input Vars}
    (hj : s'.running j = some task') :
    (j = i → out = none) ∧ ∃ old, s.running j = some old ∧ task'.register = old.register ∧
      task'.input = old.input := by
  rcases h.resume_cases hi hresume with ⟨vars, saved, saved', -, -, rfl, rfl⟩ |
    ⟨result, -, -, rfl⟩
  · refine ⟨fun _ => rfl, ?_⟩
    rw [running_setSaved] at hj
    by_cases hji : j = i
    · subst hji
      rw [running_setRunning] at hj
      obtain rfl := Option.some.inj hj
      exact ⟨task, hi, rfl, rfl⟩
    · exact ⟨task', (running_setRunning_ne hji _).symm.trans hj, rfl, rfl⟩
  · have hji : j ≠ i := by
      intro hji
      subst hji
      rw [running_setRunning] at hj
      cases hj
    exact ⟨fun heq => absurd heq hji, task', (running_setRunning_ne hji _).symm.trans hj, rfl, rfl⟩

theorem Apart.resume : s'.Apart R := by
  intro j task' hj
  rcases h.resume_cases hi hresume with ⟨vars, saved, saved', hsaved, hcall, -, rfl⟩ |
    ⟨result, -, -, rfl⟩
  · rw [running_setSaved] at hj
    obtain ⟨saved'', hsaved', hreached⟩ := h i task hi
    obtain ⟨-, rfl⟩ := Prod.mk.inj (Option.some.inj (hsaved.symm.trans hsaved'))
    by_cases hji : j = i
    · subst hji
      rw [running_setRunning] at hj
      obtain rfl := Option.some.inj hj
      exact ⟨saved', saved_setSaved .., hreached.resume hcall⟩
    · rw [running_setRunning_ne hji] at hj
      obtain ⟨saved'', hother, hreached'⟩ := h j task' hj
      have hne : task'.register ≠ task.register := by
        intro heq
        rw [heq, hsaved] at hother
        exact hji (Prod.mk.inj (Option.some.inj hother)).1.symm
      exact ⟨saved'', (saved_setSaved_ne hne ..).trans hother, hreached'⟩
  · by_cases hji : j = i
    · subst hji
      rw [running_setRunning] at hj
      cases hj
    · rw [running_setRunning_ne hji] at hj
      exact h j task' hj

end

/-! ## One task and no other -/

/-- Task `i` is under way, and nothing else is. -/
structure Only (s : Tasks Input Vars Register) (i : Nat) (task : Task Input Vars)
    (saved : Register) : Prop where
  running : s.running i = some task
  saved : s.saved task.register = some (i, saved)
  others : ∀ j, j ≠ i → s.running j = none

theorem exists_start_only (hquiet : ∀ j, s.running j = none) (i register : Nat) {input : Input}
    {vars : Vars} {saved : Register} (hstart : R.start input = .ok (vars, saved)) :
    ∃ s', s.start R i register input = .ok s' ∧ s'.Only i { input, register, vars } saved := by
  refine ⟨_, start_ok_iff.mpr ⟨vars, saved, hstart, rfl⟩, ?_, saved_setSaved .., fun j hji => ?_⟩
  · rw [running_setSaved, running_setRunning]
  · rw [running_setSaved, running_setRunning_ne hji]
    exact hquiet j

section

variable {i : Nat} {task : Task Input Vars} {saved : Register} (h : s.Only i task saved)

include h

theorem Only.apart (hreached : R.Reached task.input task.vars saved) : s.Apart R := by
  intro j task' hj
  by_cases hji : j = i
  · subst hji
    obtain rfl := Option.some.inj (h.running.symm.trans hj)
    exact ⟨saved, h.saved, hreached⟩
  · exact nomatch (h.others j hji).symm.trans hj

variable (hreached : R.Reached task.input task.vars saved)

include hreached

theorem Only.exists_resume {vars : Vars} {saved' : Register}
    (hcall : R.resume task.input task.vars saved = .ok (.inl (vars, saved'))) :
    ∃ s', s.resume R i = .ok (s', none) ∧ s'.Only i { task with vars } saved' := by
  obtain ⟨saved'', hsaved, -, heq⟩ := (h.apart hreached).resume_eq h.running
  obtain ⟨-, rfl⟩ := Prod.mk.inj (Option.some.inj (h.saved.symm.trans hsaved))
  rw [hcall] at heq
  refine ⟨_, heq, ?_, saved_setSaved .., fun j hji => ?_⟩
  · rw [running_setSaved, running_setRunning]
  · rw [running_setSaved, running_setRunning_ne hji]
    exact h.others j hji

theorem Only.exists_end {result : Result}
    (hcall : R.resume task.input task.vars saved = .ok (.inr result)) :
    ∃ s', s.resume R i = .ok (s', some result) ∧ ∀ j, s'.running j = none := by
  obtain ⟨saved'', hsaved, -, heq⟩ := (h.apart hreached).resume_eq h.running
  obtain ⟨-, rfl⟩ := Prod.mk.inj (Option.some.inj (h.saved.symm.trans hsaved))
  rw [hcall] at heq
  refine ⟨_, heq, fun j => ?_⟩
  by_cases hji : j = i
  · subst hji
    rw [running_setRunning]
  · rw [running_setRunning_ne hji]
    exact h.others j hji

end

end Tasks

end Runs
