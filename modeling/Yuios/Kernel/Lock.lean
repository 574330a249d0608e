/-
  File:      Yuios/Kernel/Lock.lean
  Subject:   A LOCK AMONG TASKS: `kernel/mutex.c` with `task_block`, `task_unblock` and `task_yield`.

  Any number of tasks take and give back one `lock_t`, as deep as they like. A call runs without
  interruption up to where it sleeps in `mutex_lock` or yields in `mutex_unlock`; where a task stands
  in between is its program point (`Pc`). Between its calls a task may sleep in any other list.

  * `nesting t` is the history: the `lock_acquire`s of task `t` that are not yet given back.
  * `Sound` -- the invariant. The mutex is taken exactly while the lock has a holder; a waiter is
    never the holder; while the mutex is free and tasks wait for it, one of them has been woken.
  * **`lock_safe`** -- in every state reached.
-/
import Mathlib.Algebra.Group.Nat.Defs
import Yuios.Kernel.Block

namespace Yuios.Lock

open Kernel

/-! ## 1. The state -/

/-- Where a task stands: outside, asleep (or woken and not yet run) in `mutex_lock`, or in the
    `task_yield` of `mutex_unlock`; `intr` is the interrupt flag it will restore. -/
inductive Pc where
  | out
  | locking (intr : Bool)
  | yielding (intr : Bool)
  deriving DecidableEq

/-- The `lock_t` (`repeats` is `repeat`), the tasks and the interrupt flag. `others` stands for all
    lists but `waiters`; a task's node is linked while it is in one of the two. `ready` is
    `TASK_READY` or `TASK_RUNNING`. -/
structure State where
  holder : Option Nat
  repeats : Nat
  value : Bool
  waiters : List Nat
  others : List Nat
  ready : Nat → Bool
  intr : Bool
  pc : Nat → Pc
  nesting : Nat → Nat

/-- `lock_init`, and no task sleeps. -/
def lockInit : State where
  holder := none
  repeats := 0
  value := false
  waiters := []
  others := []
  ready := fun _ => true
  intr := false
  pc := fun _ => .out
  nesting := fun _ => 0

namespace State

def setPc (s : State) (t : Nat) (p : Pc) : State := { s with pc := Function.update s.pc t p }

def setNesting (s : State) (t n : Nat) : State :=
  { s with nesting := Function.update s.nesting t n }

/-- `node.next` and `node.prev` are not NULL. -/
def linked (s : State) (t : Nat) : Bool := t ∈ s.waiters ∨ t ∈ s.others

end State

/-! ## 2. `kernel/task.c` -/

/-- `task_block(current, &mutex->waiters, TASK_BLOCKED)`. -/
def taskBlock (s : State) (t : Nat) : Except Stop State := do
  assert !s.intr
  assert !s.linked t
  assert (t ∉ s.waiters)
  return { s with waiters := t :: s.waiters, ready := Function.update s.ready t false }

/-- `task_unblock` of a task in `waiters`. -/
def taskUnblock (s : State) (t : Nat) : Except Stop State := do
  assert !s.intr
  assert (t ∈ s.waiters)
  let s := { s with waiters := s.waiters.erase t }
  assert !s.linked t
  return { s with ready := Function.update s.ready t true }

/-- `task_yield`, up to the switch. -/
def taskYield (s : State) : Except Stop State := do
  assert !s.intr
  return s

/-! ## 3. `kernel/mutex.c` -/

/-- The loop of `mutex_lock`, and behind it the rest of `mutex_lock` and of `lock_acquire`. -/
def mutexLock (t : Nat) (intr : Bool) (s : State) : Except Stop State :=
  if s.value = true then do
    let s ← taskBlock s t
    return s.setPc t (.locking intr)
  else do
    assert (s.value == false)
    let s := { s with value := true }
    assert (s.value == true)
    let s := { s with intr := intr, holder := some t }
    assert (s.repeats == 0)
    return ({ s with repeats := 1 }.setPc t .out).setNesting t 1

/-- `lock_acquire`; `interrupt_disable` answers the flag the caller runs with. -/
def lockAcquire (t : Nat) (s : State) : Except Stop State :=
  if s.holder ≠ some t then
    mutexLock t s.intr { s with intr := false }
  else
    .ok ({ s with repeats := (s.repeats + 1) % 2 ^ 32 }.setNesting t (s.nesting t + 1))

/-- `mutex_unlock`: the waiter that came first is the last of the list. -/
def mutexUnlock (t : Nat) (s : State) : Except Stop State := do
  let intr := s.intr
  let s := { s with intr := false }
  assert (s.value == true)
  let s := { s with value := false }
  assert (s.value == false)
  match s.waiters.getLast? with
  | none => return { s with intr := intr }
  | some w =>
    let s ← taskUnblock s w
    let s ← taskYield s
    return s.setPc t (.yielding intr)

/-- `lock_release`. -/
def lockRelease (t : Nat) (s : State) : Except Stop State := do
  assert (s.holder == some t)
  if s.repeats > 1 then
    return { s with repeats := s.repeats - 1 }.setNesting t (s.nesting t - 1)
  else
    assert (s.repeats == 1)
    mutexUnlock t ({ s with holder := none, repeats := 0 }.setNesting t (s.nesting t - 1))

/-! ## 4. The tasks -/

/-- What can happen: a task that runs with the interrupt flag `intr` makes a call, one that was
    switched away from runs on, one falls asleep elsewhere or is woken there. -/
inductive Action where
  | acquire (t : Nat) (intr : Bool)
  | release (t : Nat) (intr : Bool)
  | resume (t : Nat)
  | sleep (t : Nat)
  | wake (t : Nat)

/-- A task runs while it is ready. It gives back what it has taken; its stack, one page, bounds how
    deep it can nest its calls. -/
def Enabled (s : State) : Action → Prop
  | .acquire t _ => s.pc t = .out ∧ s.ready t = true ∧ s.nesting t + 1 < 2 ^ 32
  | .release t _ => s.pc t = .out ∧ s.ready t = true ∧ 0 < s.nesting t
  | .resume t => s.pc t ≠ .out ∧ s.ready t = true
  | .sleep t => s.pc t = .out ∧ s.ready t = true
  | .wake t => t ∈ s.others

/-- The action, up to the next switch. Every task is switched to with interrupts off. -/
def act (s : State) : Action → Except Stop State
  | .acquire t intr => lockAcquire t { s with intr := intr }
  | .release t intr => lockRelease t { s with intr := intr }
  | .resume t =>
    match s.pc t with
    | .out => .ok s
    | .locking intr => mutexLock t intr { s with intr := false }
    | .yielding intr => .ok ({ s with intr := intr }.setPc t .out)
  | .sleep t => .ok { s with others := t :: s.others, ready := Function.update s.ready t false }
  | .wake t => .ok { s with others := s.others.erase t, ready := Function.update s.ready t true }

/-- The states reached. -/
inductive Reached : State → Prop where
  | init : Reached lockInit
  | step {s s' : State} (h : Reached s) (a : Action) (ha : Enabled s a) (hs : act s a = .ok s') :
      Reached s'

/-! ## 5. The invariant -/

/-- **The invariant.** -/
structure Sound (s : State) : Prop where
  taken : s.value = true ↔ s.holder.isSome
  nesting : ∀ t, s.nesting t = if s.holder = some t then s.repeats else 0
  held : s.holder.isSome → 0 < s.repeats ∧ s.repeats < 2 ^ 32
  free : s.holder = none → s.repeats = 0
  inside : ∀ t, s.pc t ≠ .out → s.holder ≠ some t
  waiting : ∀ t ∈ s.waiters, ∃ intr, s.pc t = .locking intr
  asleep : ∀ t ∈ s.others, s.pc t = .out
  waitersNodup : s.waiters.Nodup
  othersNodup : s.others.Nodup
  ready : ∀ t, s.ready t = true ↔ t ∉ s.waiters ∧ t ∉ s.others
  woken : s.value = false → s.waiters ≠ [] → ∃ t intr, s.pc t = .locking intr ∧ t ∉ s.waiters

theorem sound_init : Sound lockInit where
  taken := by simp [lockInit]
  nesting := fun _ => rfl
  held := by simp [lockInit]
  free := fun _ => rfl
  inside := by simp [lockInit]
  waiting := by simp [lockInit]
  asleep := fun _ _ => rfl
  waitersNodup := List.nodup_nil
  othersNodup := List.nodup_nil
  ready := by simp [lockInit]
  woken := by simp [lockInit]

section Sound

variable {s s' : State} {t : Nat}

theorem Sound.setIntr (h : Sound s) (intr : Bool) : Sound { s with intr := intr } :=
  ⟨h.taken, h.nesting, h.held, h.free, h.inside, h.waiting, h.asleep, h.waitersNodup, h.othersNodup,
    h.ready, h.woken⟩

theorem Sound.unlinked (h : Sound s) (hr : s.ready t = true) : s.linked t = false := by
  obtain ⟨hw, ho⟩ := (h.ready t).mp hr
  simp [State.linked, hw, ho]

/-- A task that is ready and finds the mutex taken falls asleep. -/
theorem Sound.block (h : Sound s) (hr : s.ready t = true) (hout : s.holder ≠ some t)
    (hv : s.value = true) (intr : Bool) :
    Sound ({ s with
      waiters := t :: s.waiters, ready := Function.update s.ready t false }.setPc t (.locking intr)) := by
  obtain ⟨hw, ho⟩ := (h.ready t).mp hr
  have hpc : ∀ u, u ≠ t → Function.update s.pc t (.locking intr) u = s.pc u := fun u e =>
    Function.update_of_ne e ..
  refine ⟨h.taken, h.nesting, h.held, h.free, fun u hu => ?_, fun u hu => ?_, fun u hu => ?_,
    List.nodup_cons.mpr ⟨hw, h.waitersNodup⟩, h.othersNodup, fun u => ?_, fun hf => ?_⟩
  · by_cases e : u = t
    · exact e ▸ hout
    · exact h.inside u (hpc u e ▸ hu)
  · by_cases e : u = t
    · exact ⟨intr, e ▸ Function.update_self ..⟩
    · obtain ⟨i, hi⟩ := h.waiting u ((List.mem_cons.mp hu).resolve_left e)
      exact ⟨i, (hpc u e).trans hi⟩
  · have e : u ≠ t := fun e => ho (e ▸ hu)
    exact (hpc u e).trans (h.asleep u hu)
  · by_cases e : u = t
    · simp [State.setPc, e]
    · simp [State.setPc, e, h.ready u]
  · exact absurd (hv.symm.trans hf) (by decide)

/-- A task that is ready and finds the mutex free has the lock. -/
theorem Sound.take (h : Sound s) (hr : s.ready t = true) (hv : s.value = false) (intr : Bool) :
    Sound (({ s with value := true, intr := intr, holder := some t, repeats := 1 }.setPc t
      .out).setNesting t 1) := by
  obtain ⟨hw, ho⟩ := (h.ready t).mp hr
  have hnone : s.holder = none := by
    cases hh : s.holder with
    | none => rfl
    | some u =>
      have := h.taken.mpr (by rw [hh]; rfl)
      rw [hv] at this
      cases this
  have hpc : ∀ u, u ≠ t → Function.update s.pc t .out u = s.pc u := fun u e =>
    Function.update_of_ne e ..
  refine ⟨by simp [State.setPc, State.setNesting], fun u => ?_,
    fun _ => ⟨Nat.one_pos, show 1 < 2 ^ 32 by decide⟩, nofun, fun u hu => ?_, fun u hu => ?_,
    fun u hu => ?_, h.waitersNodup, h.othersNodup, h.ready, nofun⟩
  · by_cases e : u = t
    · simp [State.setPc, State.setNesting, e]
    · have hn := h.nesting u
      rw [hnone] at hn
      simpa [State.setPc, State.setNesting, e, Ne.symm e] using hn
  · by_cases e : u = t
    · exact absurd (show Function.update s.pc t .out u = .out from e ▸ Function.update_self ..) hu
    · exact fun he => e (Option.some.inj he).symm
  · have e : u ≠ t := fun e => hw (e ▸ hu)
    obtain ⟨i, hi⟩ := h.waiting u hu
    exact ⟨i, (hpc u e).trans hi⟩
  · have e : u ≠ t := fun e => ho (e ▸ hu)
    exact (hpc u e).trans (h.asleep u hu)

theorem taskBlock_eq (h : Sound s) (hr : s.ready t = true) (hi : s.intr = false) :
    taskBlock s t =
      .ok { s with waiters := t :: s.waiters, ready := Function.update s.ready t false } := by
  have hw := ((h.ready t).mp hr).1
  simp only [taskBlock, hi, h.unlinked hr, hw, not_false_eq_true, Bool.not_false, decide_true]
  rfl

/-- **`mutex_lock`** from its loop on. -/
theorem mutexLock_ok (h : Sound s) (hr : s.ready t = true) (hout : s.holder ≠ some t)
    (hi : s.intr = false) (intr : Bool) : ∃ s', mutexLock t intr s = .ok s' ∧ Sound s' := by
  unfold mutexLock
  by_cases hv : s.value = true
  · rw [if_pos hv, taskBlock_eq h hr hi]
    exact ⟨_, rfl, h.block hr hout hv intr⟩
  · rw [if_neg hv]
    have hv : s.value = false := by simpa using hv
    have hzero : s.repeats = 0 := by
      refine h.free ?_
      cases hh : s.holder with
      | none => rfl
      | some u => exact absurd (h.taken.mpr (by rw [hh]; rfl)) (by simp [hv])
    simp only [hv, hzero]
    exact ⟨_, rfl, h.take hr hv intr⟩

theorem Sound.nesting_one (h : Sound s) (hh : s.holder = some t) (hone : s.repeats = 1) (u : Nat) :
    Function.update s.nesting t (s.nesting t - 1) u = 0 := by
  by_cases e : u = t
  · rw [e, Function.update_self, h.nesting t, if_pos hh, hone]
  · have hne : s.holder ≠ some u := fun he => e (Option.some.inj (he.symm.trans hh))
    rw [Function.update_of_ne e, h.nesting u, if_neg hne]

/-- The lock is given back, and nobody waits for it. -/
theorem Sound.leave (h : Sound s) (hh : s.holder = some t) (hone : s.repeats = 1)
    (hnil : s.waiters = []) (intr : Bool) :
    Sound { s with
      value := false, intr := intr, holder := none, repeats := 0
      nesting := Function.update s.nesting t (s.nesting t - 1) } :=
  ⟨by simp, fun u => h.nesting_one hh hone u, nofun, fun _ => rfl, fun _ _ => nofun, h.waiting,
    h.asleep, h.waitersNodup, h.othersNodup, h.ready, fun _ hn => absurd hnil hn⟩

theorem Sound.elsewhere (h : Sound s) {w : Nat} (hw : w ∈ s.waiters) : w ∉ s.others := fun ho => by
  obtain ⟨i, hi⟩ := h.waiting w hw
  rw [h.asleep w ho] at hi
  cases hi

/-- The lock is given back, and the waiter `w` is woken: it has yet to look at the mutex again. -/
theorem Sound.hand (h : Sound s) (hh : s.holder = some t) (hone : s.repeats = 1)
    (hr : s.ready t = true) (ht : s.pc t = .out) {w : Nat} (hw : w ∈ s.waiters) (intr : Bool) :
    Sound ({ s with
      value := false, intr := false, holder := none, repeats := 0
      waiters := s.waiters.erase w, ready := Function.update s.ready w true
      nesting := Function.update s.nesting t (s.nesting t - 1) }.setPc t (.yielding intr)) := by
  have hne : ∀ u ∈ s.waiters, u ≠ t := fun u hu e => by
    obtain ⟨i, hi⟩ := h.waiting u hu
    rw [e, ht] at hi
    cases hi
  have hpc : ∀ u, u ≠ t → Function.update s.pc t (.yielding intr) u = s.pc u := fun u e =>
    Function.update_of_ne e ..
  refine ⟨by simp [State.setPc], fun u => h.nesting_one hh hone u, nofun, fun _ => rfl,
    fun _ _ => nofun, fun u hu => ?_, fun u hu => ?_, h.waitersNodup.erase w, h.othersNodup,
    fun u => ?_, fun _ _ => ?_⟩
  · have hu := List.mem_of_mem_erase hu
    obtain ⟨i, hi⟩ := h.waiting u hu
    exact ⟨i, (hpc u (hne u hu)).trans hi⟩
  · have e : u ≠ t := fun e => ((h.ready t).mp hr).2 (e ▸ hu)
    exact (hpc u e).trans (h.asleep u hu)
  · by_cases e : u = w
    · simp [State.setPc, e, h.elsewhere hw, h.waitersNodup.not_mem_erase]
    · simp [State.setPc, e, h.ready u, List.mem_erase_of_ne e]
  · obtain ⟨i, hi⟩ := h.waiting w hw
    exact ⟨w, i, (hpc w (hne w hw)).trans hi, h.waitersNodup.not_mem_erase⟩

/-- The holder goes deeper, or back. -/
theorem Sound.nest (h : Sound s) (hh : s.holder = some t) {n : Nat} (hpos : 0 < n)
    (hlt : n < 2 ^ 32) : Sound ({ s with repeats := n }.setNesting t n) := by
  have hsome : s.holder.isSome := by
    rw [hh]
    rfl
  refine ⟨h.taken, fun u => ?_, fun _ => ⟨hpos, hlt⟩, fun hn => ?_, h.inside, h.waiting, h.asleep,
    h.waitersNodup, h.othersNodup, h.ready, h.woken⟩
  · show Function.update s.nesting t n u = if s.holder = some u then n else 0
    by_cases e : u = t
    · rw [e, Function.update_self, if_pos hh]
    · have hne : s.holder ≠ some u := fun he => e (Option.some.inj (he.symm.trans hh))
      rw [Function.update_of_ne e, h.nesting u, if_neg hne, if_neg hne]
  · rw [show s.holder = none from hn] at hsome
    cases hsome

/-- **`lock_acquire`**, at any depth. -/
theorem lockAcquire_ok (h : Sound s) (hr : s.ready t = true) (hlt : s.nesting t + 1 < 2 ^ 32) :
    ∃ s', lockAcquire t s = .ok s' ∧ Sound s' := by
  unfold lockAcquire
  by_cases hh : s.holder = some t
  · have hn := h.nesting t
    rw [if_pos hh] at hn
    rw [if_neg (not_not.mpr hh), Nat.mod_eq_of_lt (hn ▸ hlt), hn]
    exact ⟨_, rfl, h.nest hh (Nat.succ_pos _) (hn ▸ hlt)⟩
  · rw [if_pos hh]
    exact mutexLock_ok (h.setIntr false) hr hh rfl s.intr

theorem taskUnblock_eq {w : Nat} (hi : s.intr = false) (hw : w ∈ s.waiters) (ho : w ∉ s.others)
    (hd : s.waiters.Nodup) : taskUnblock s w = .ok { s with
      waiters := s.waiters.erase w, ready := Function.update s.ready w true } := by
  have hl : State.linked { s with waiters := s.waiters.erase w } w = false := by
    simp [State.linked, ho, hd.not_mem_erase]
  simp only [taskUnblock, hi, hw, decide_true, Bool.not_false, assert_true]
  show (assert (!State.linked { s with waiters := s.waiters.erase w } w)).bind _ = _
  rw [hl]
  rfl

/-- **`lock_release`** by the holder. -/
theorem lockRelease_ok (h : Sound s) (hr : s.ready t = true) (ht : s.pc t = .out)
    (hpos : 0 < s.nesting t) : ∃ s', lockRelease t s = .ok s' ∧ Sound s' := by
  have hh : s.holder = some t := by
    by_contra hne
    rw [h.nesting t, if_neg hne] at hpos
    exact absurd hpos (Nat.lt_irrefl 0)
  have hn := h.nesting t
  rw [if_pos hh] at hn
  obtain ⟨-, hlt⟩ := h.held (by rw [hh]; rfl)
  have hv : s.value = true := h.taken.mpr (by rw [hh]; rfl)
  have hassert : assert (s.holder == some t) = .ok () := by simp [hh]
  unfold lockRelease
  rw [hassert]
  by_cases hmore : s.repeats > 1
  · rw [if_pos hmore, hn]
    exact ⟨_, rfl, h.nest hh (by omega) (by omega)⟩
  · have hone : s.repeats = 1 := by omega
    have hone' : assert (s.repeats == 1) = .ok () := by simp [hone]
    rw [if_neg hmore, hone']
    show ∃ s', mutexUnlock t _ = .ok s' ∧ Sound s'
    unfold mutexUnlock
    simp only [State.setNesting, hv, beq_self_eq_true, assert_true]
    cases hl : s.waiters.getLast? with
    | none => exact ⟨_, rfl, h.leave hh hone (List.getLast?_eq_none_iff.mp hl) s.intr⟩
    | some w =>
      have hw := List.mem_of_getLast? hl
      have hu := taskUnblock_eq (s := { s with
        value := false, intr := false, holder := none, repeats := 0
        nesting := Function.update s.nesting t (s.nesting t - 1) })
        rfl hw (h.elsewhere hw) h.waitersNodup
      refine ⟨_, ?_, h.hand hh hone hr ht hw s.intr⟩
      show (taskUnblock _ w).bind _ = _
      rw [hu]
      rfl

/-! ## 6. Every run -/

/-- The task that yielded in `mutex_unlock` goes on. -/
theorem Sound.goOn (h : Sound s) (hr : s.ready t = true) (hn : ∀ i, s.pc t ≠ .locking i)
    (intr : Bool) : Sound ({ s with intr := intr }.setPc t .out) := by
  obtain ⟨hw, ho⟩ := (h.ready t).mp hr
  have hpc : ∀ u, u ≠ t → Function.update s.pc t .out u = s.pc u := fun u e =>
    Function.update_of_ne e ..
  refine ⟨h.taken, h.nesting, h.held, h.free, fun u hu => ?_, fun u hu => ?_, fun u hu => ?_,
    h.waitersNodup, h.othersNodup, h.ready, fun hv hne => ?_⟩
  · by_cases e : u = t
    · exact absurd (show Function.update s.pc t .out u = .out from e ▸ Function.update_self ..) hu
    · exact h.inside u (hpc u e ▸ hu)
  · obtain ⟨i, hi⟩ := h.waiting u hu
    exact ⟨i, (hpc u fun e => hw (e ▸ hu)).trans hi⟩
  · exact (hpc u fun e => ho (e ▸ hu)).trans (h.asleep u hu)
  · obtain ⟨u, i, hi, hu⟩ := h.woken hv hne
    exact ⟨u, i, (hpc u fun e => hn i (e ▸ hi)).trans hi, hu⟩

/-- A task falls asleep in another list. -/
theorem Sound.sleep (h : Sound s) (hr : s.ready t = true) (ht : s.pc t = .out) :
    Sound { s with others := t :: s.others, ready := Function.update s.ready t false } := by
  obtain ⟨hw, ho⟩ := (h.ready t).mp hr
  refine ⟨h.taken, h.nesting, h.held, h.free, h.inside, h.waiting, fun u hu => ?_, h.waitersNodup,
    List.nodup_cons.mpr ⟨ho, h.othersNodup⟩, fun u => ?_, h.woken⟩
  · rcases List.mem_cons.mp hu with rfl | hu
    · exact ht
    · exact h.asleep u hu
  · by_cases e : u = t
    · simp [e]
    · simp [e, h.ready u]

/-- And is woken there. -/
theorem Sound.wake (h : Sound s) (ho : t ∈ s.others) :
    Sound { s with others := s.others.erase t, ready := Function.update s.ready t true } := by
  have hw : t ∉ s.waiters := fun hw => h.elsewhere hw ho
  refine ⟨h.taken, h.nesting, h.held, h.free, h.inside, h.waiting,
    fun u hu => h.asleep u (List.mem_of_mem_erase hu), h.waitersNodup, h.othersNodup.erase t,
    fun u => ?_, h.woken⟩
  by_cases e : u = t
  · simp [e, hw, h.othersNodup.not_mem_erase]
  · simp [e, h.ready u, List.mem_erase_of_ne e]

/-- **Every action** finds its assertions met, and keeps the invariant. -/
theorem act_sound (h : Sound s) (a : Action) (ha : Enabled s a) :
    ∃ s', act s a = .ok s' ∧ Sound s' := by
  cases a with
  | acquire t intr => exact lockAcquire_ok (h.setIntr intr) ha.2.1 ha.2.2
  | release t intr => exact lockRelease_ok (h.setIntr intr) ha.2.1 ha.1 ha.2.2
  | resume t =>
    obtain ⟨hpc, hr⟩ := ha
    cases he : s.pc t with
    | out => exact absurd he hpc
    | locking intr =>
      have hm := mutexLock_ok (h.setIntr false) hr (h.inside t hpc) rfl intr
      simpa only [act, he] using hm
    | yielding intr =>
      have hgo := h.goOn hr (fun i hi => by rw [he] at hi; cases hi) intr
      exact ⟨_, by simp only [act, he], hgo⟩
  | sleep t => exact ⟨_, rfl, h.sleep ha.2 ha.1⟩
  | wake t => exact ⟨_, rfl, h.wake ha⟩

theorem reached_sound (h : Reached s) : Sound s := by
  induction h with
  | init => exact sound_init
  | step _ a ha hs ih =>
    obtain ⟨s', hs', h'⟩ := act_sound ih a ha
    cases hs.symm.trans hs'
    exact h'

theorem Sound.holder_iff (h : Sound s) (t : Nat) : s.holder = some t ↔ 0 < s.nesting t := by
  rw [h.nesting t]
  by_cases hh : s.holder = some t
  · rw [if_pos hh]
    exact iff_of_true hh (h.held (by rw [hh]; rfl)).1
  · rw [if_neg hh]
    exact iff_of_false hh (Nat.lt_irrefl 0)

end Sound

/-- **A lock among tasks.** In every state reached at most one task holds the lock; `holder` and
    `repeat` are that task and how deep it is; whatever happens next, no assertion fails; and while
    the mutex is free and tasks wait for it, one that is no longer in `waiters` is ready and will
    look at the mutex again. -/
theorem lock_safe {s : State} (h : Reached s) :
    (∀ t u, 0 < s.nesting t → 0 < s.nesting u → t = u) ∧
    (∀ t, (s.holder = some t ↔ 0 < s.nesting t) ∧ (0 < s.nesting t → s.repeats = s.nesting t)) ∧
    (s.holder = none → s.repeats = 0) ∧
    (∀ a, Enabled s a → ∃ s', act s a = .ok s') ∧
    (s.value = false → s.waiters ≠ [] →
      ∃ t intr, t ∉ s.waiters ∧ s.ready t = true ∧ s.pc t = .locking intr) := by
  have hs := reached_sound h
  refine ⟨fun t u ht hu => ?_, fun t => ⟨hs.holder_iff t, fun ht => ?_⟩, hs.free, fun a ha => ?_,
    fun hv hn => ?_⟩
  · have ht := (hs.holder_iff t).mpr ht
    exact Option.some.inj (ht.symm.trans ((hs.holder_iff u).mpr hu))
  · rw [hs.nesting t, if_pos ((hs.holder_iff t).mpr ht)]
  · obtain ⟨s', hs', -⟩ := act_sound hs a ha
    exact ⟨s', hs'⟩
  · obtain ⟨t, intr, ht, hw⟩ := hs.woken hv hn
    have ho : t ∉ s.others := fun ho => by
      rw [hs.asleep t ho] at ht
      cases ht
    exact ⟨t, intr, hw, (hs.ready t).mpr ⟨hw, ho⟩, ht⟩

/-- Two tasks wait while task 0 holds the lock; it gives the lock back, and one of them is woken. -/
theorem lock_safe_three : ∃ s, Reached s ∧ s.value = false ∧ s.waiters = [2] ∧
    ∃ t intr, t ∉ s.waiters ∧ s.ready t = true ∧ s.pc t = .locking intr := by
  have h₁ := Reached.init.step (.acquire 0 true) ⟨rfl, rfl, by decide⟩ rfl
  have h₂ := h₁.step (.acquire 1 true) ⟨rfl, rfl, by decide⟩ rfl
  have h₃ := h₂.step (.acquire 2 true) ⟨rfl, rfl, by decide⟩ rfl
  have h₄ := h₃.step (.release 0 true) ⟨rfl, rfl, by decide⟩ rfl
  exact ⟨_, h₄, rfl, rfl, (lock_safe h₄).2.2.2.2 rfl (List.cons_ne_nil 2 [])⟩

end Yuios.Lock
