/-
  File:      Yuios/Kernel/Family.lean
  Subject:   PARENTS AND CHILDREN: `task_fork`, `task_waitpid` and `task_exit` of `kernel/task.c`.

  A call runs without interruption, `task_waitpid` from one block to the next. A task's pid is its
  slot of `task_table`, and slots are used again.

  * `serial` is the history: the tasks ever born are numbered. `exits` and `returned` are the tasks
    that have ended and those that a `task_waitpid` has answered, each with its pid and status.
  * `Sound` -- the invariant. A parent is older than its children (so no task comes after itself),
    and a task that waits has no dead child that it waits for.
  * **`family_kept`** -- in every state reached.
-/
import Yuios.Kernel.Block

namespace Yuios.Family

open Kernel

def NR_TASKS : Nat := 64

/-! ## 1. The state -/

/-- `task->state`; `ready` is everything but `TASK_WAITING` and `TASK_DIED`. -/
inductive TaskState where
  | ready
  | waiting
  | died
  deriving DecidableEq

/-- The fields of a `task_t`. `pc` is where the task stands: inside `task_waitpid` with that
    argument, or outside. -/
structure Task where
  ppid : Nat
  state : TaskState
  status : Int
  waitpid : Int
  pc : Option Int
  serial : Nat
  deriving DecidableEq

/-- The end of a task. -/
structure Exit where
  serial : Nat
  pid : Nat
  status : Int
  deriving DecidableEq

structure State where
  table : Nat → Option Task
  blockList : List Nat
  births : Nat
  exits : List Exit
  returned : List Exit

/-- After `task_init`: idle, init and test, with the `ppid` 0. -/
def taskInit : State where
  table := fun i => if i < 3 then some ⟨0, .ready, 0, 0, none, i⟩ else none
  blockList := []
  births := 3
  exits := []
  returned := []

namespace State

def setTask (s : State) (i : Nat) (t : Option Task) : State :=
  { s with table := Function.update s.table i t }

end State

/-- `pid` or -1, any child. -/
def Matches (pid : Int) (c : Nat) : Prop := pid = c ∨ pid = -1

instance (pid : Int) (c : Nat) : Decidable (Matches pid c) :=
  inferInstanceAs (Decidable (pid = c ∨ pid = -1))

/-- `u` in slot `c` is a child of task `p` that `task_waitpid(pid)` is about. -/
structure Child (s : State) (p : Nat) (pid : Int) (c : Nat) (u : Task) : Prop where
  slot : s.table c = some u
  ppid : u.ppid = p
  asked : Matches pid c

/-! ## 2. The calls -/

/-- `get_free_task`. -/
def getFreeTask (s : State) : Except Stop Nat :=
  match (List.range NR_TASKS).find? fun i => (s.table i).isNone with
  | none => .error .panic
  | some i => .ok i

/-- `task_fork` by task `p`: the child's page is a copy of the parent's. -/
def taskFork (p : Nat) (s : State) : Except Stop State :=
  match s.table p with
  | none => .error .fault
  | some task => do
    assert (p ∉ s.blockList)
    let pid ← getFreeTask s
    let child := { task with ppid := p, state := .ready, pc := none, serial := s.births }
    return { s.setTask pid (some child) with births := s.births + 1 }

/-- `task_block(task, NULL, TASK_WAITING)`. -/
def taskBlock (s : State) (p : Nat) (task : Task) : Except Stop State := do
  assert (p ∉ s.blockList)
  return { s.setTask p (some { task with state := .waiting }) with blockList := p :: s.blockList }

/-- `task_unblock`. -/
def taskUnblock (s : State) (p : Nat) (task : Task) : Except Stop State := do
  assert (p ∈ s.blockList)
  return { s.setTask p (some { task with state := .ready }) with blockList := s.blockList.erase p }

/-- The loop of `task_waitpid` over the slots: a child that has ended, and `has_child`. -/
def searchChild (s : State) (p : Nat) (pid : Int) : List Nat → Bool → Option (Nat × Task) × Bool
  | [], hasChild => (none, hasChild)
  | i :: l, hasChild =>
    match s.table i with
    | none => searchChild s p pid l hasChild
    | some ptr =>
      if ptr.ppid ≠ p then searchChild s p pid l hasChild
      else if pid ≠ i ∧ pid ≠ -1 then searchChild s p pid l hasChild
      else if ptr.state = .died then (some (i, ptr), hasChild)
      else searchChild s p pid l true

/-- `task_waitpid(pid)` by task `p`, up to where it blocks; the slots are searched from 2 on. -/
def taskWaitpid (p : Nat) (pid : Int) (s : State) : Except Stop State :=
  match s.table p with
  | none => .error .fault
  | some task =>
    match searchChild s p pid (List.range' 2 (NR_TASKS - 2)) false with
    | (some (i, child), _) =>
      let s := s.setTask i none
      let s := s.setTask p (some { task with pc := none })
      .ok { s with returned := s.returned ++ [⟨child.serial, i, child.status⟩] }
    | (none, true) => taskBlock s p { task with waitpid := pid, pc := some pid }
    | (none, false) => .error .fault

/-- The children of task `p` get the `ppid` `q`. -/
def giveChildren (s : State) (p q : Nat) : State :=
  { s with table := fun i => (s.table i).map fun c => if c.ppid = p then { c with ppid := q } else c }

/-- `task_exit(status)` by task `p`. -/
def taskExit (p : Nat) (status : Int) (s : State) : Except Stop State :=
  match s.table p with
  | none => .error .fault
  | some task => do
    assert (p ∉ s.blockList)
    let s := s.setTask p (some { task with state := .died, status := status })
    let s := { s with exits := s.exits ++ [⟨task.serial, p, status⟩] }
    let s := giveChildren s p task.ppid
    match s.table task.ppid with
    | none => .error .fault
    | some parent =>
      if parent.state = .waiting ∧ (parent.waitpid = -1 ∨ parent.waitpid = p) then
        taskUnblock s task.ppid parent
      else
        return s

/-! ## 3. Runs -/

/-- What can happen: a task makes a call, or runs on in `task_waitpid` after it was woken. -/
inductive Action where
  | fork (p : Nat)
  | exit (p : Nat) (status : Int)
  | waitpid (p : Nat) (pid : Int)
  | resume (p : Nat)

/-- Task `p` runs outside the calls. -/
def Runs (s : State) (p : Nat) : Prop := ∃ t, s.table p = some t ∧ t.state = .ready ∧ t.pc = none

/-- Idle, task 0, only halts and yields. `task_waitpid` is called while a matching child exists. -/
def Enabled (s : State) : Action → Prop
  | .fork p => Runs s p
  | .exit p _ => Runs s p ∧ p ≠ 0
  | .waitpid p pid => Runs s p ∧ p ≠ 0 ∧ ∃ c u, Child s p pid c u
  | .resume p => ∃ t pid, s.table p = some t ∧ t.state = .ready ∧ t.pc = some pid

/-- The action, up to the next block. -/
def act (s : State) : Action → Except Stop State
  | .fork p => taskFork p s
  | .exit p status => taskExit p status s
  | .waitpid p pid => taskWaitpid p pid s
  | .resume p =>
    match s.table p with
    | some ⟨_, _, _, _, some pid, _⟩ => taskWaitpid p pid s
    | _ => .ok s

/-- The states reached. -/
inductive Reached : State → Prop where
  | init : Reached taskInit
  | step {s s' : State} (h : Reached s) (a : Action) (ha : Enabled s a) (hs : act s a = .ok s') :
      Reached s'

/-! ## 4. The invariant -/

/-- Every task has a parent that is not dead and, but for idle, older. -/
structure Tree (s : State) : Prop where
  idle : ∃ t, s.table 0 = some t ∧ t.state = .ready ∧ t.pc = none ∧ t.ppid = 0
  first : ∃ t, s.table 1 = some t ∧ t.ppid = 0
  bound : ∀ i t, s.table i = some t → i < NR_TASKS
  parent : ∀ i t, s.table i = some t →
    ∃ u, s.table t.ppid = some u ∧ u.state ≠ .died ∧ (i ≠ 0 → u.serial < t.serial)
  born : ∀ i t, s.table i = some t → t.serial < s.births
  apart : ∀ i j t u, s.table i = some t → s.table j = some u → t.serial = u.serial → i = j

/-- A task in `task_waitpid` has a child that it asks for; while it waits, none of them is dead. -/
structure Sound (s : State) : Prop extends Tree s where
  inside : ∀ i t pid, s.table i = some t → t.pc = some pid →
    t.state ≠ .died ∧ ∃ c u, Child s i pid c u
  waits : ∀ i t, s.table i = some t → t.state = .waiting →
    t.pc = some t.waitpid ∧ ∀ c u, Child s i t.waitpid c u → u.state ≠ .died
  listed : ∀ i, i ∈ s.blockList ↔ ∃ t, s.table i = some t ∧ t.state = .waiting
  nodup : s.blockList.Nodup

/-- The history. -/
structure Told (s : State) : Prop where
  exits : (s.exits.map Exit.serial).Nodup
  returned : (s.returned.map Exit.serial).Nodup
  exited : ∀ e ∈ s.returned, e ∈ s.exits
  held : ∀ e ∈ s.exits, e ∉ s.returned →
    ∃ t, s.table e.pid = some t ∧ t.serial = e.serial ∧ t.state = .died ∧ t.status = e.status
  gone : ∀ e ∈ s.returned, e.serial < s.births ∧ ∀ i t, s.table i = some t → t.serial ≠ e.serial
  died : ∀ i t, s.table i = some t → t.state = .died → ⟨t.serial, i, t.status⟩ ∈ s.exits

theorem sound_init : Sound taskInit := by
  have hslot : ∀ i t, taskInit.table i = some t → i < 3 ∧ t = ⟨0, .ready, 0, 0, none, i⟩ := by
    intro i t h
    unfold taskInit at h
    dsimp only at h
    split at h
    · next hi => exact ⟨hi, (Option.some.inj h).symm⟩
    · cases h
  refine ⟨⟨⟨_, rfl, rfl, rfl, rfl⟩, ⟨_, rfl, rfl⟩, fun i t h => ?_, fun i t h => ?_, fun i t h => ?_,
    fun i j t u ht hu e => ?_⟩, fun i t pid h hp => ?_, fun i t h hw => ?_, fun i => ?_,
    List.nodup_nil⟩
  · exact Nat.lt_trans (hslot i t h).1 (by decide)
  · obtain ⟨-, rfl⟩ := hslot i t h
    exact ⟨_, rfl, nofun, Nat.pos_of_ne_zero⟩
  · obtain ⟨hi, rfl⟩ := hslot i t h
    exact hi
  · obtain ⟨-, rfl⟩ := hslot i t ht
    obtain ⟨-, rfl⟩ := hslot j u hu
    exact e
  · obtain ⟨-, rfl⟩ := hslot i t h
    cases hp
  · obtain ⟨-, rfl⟩ := hslot i t h
    cases hw
  · refine ⟨fun h => (nomatch h), fun ⟨t, h, hw⟩ => ?_⟩
    obtain ⟨-, rfl⟩ := hslot i t h
    cases hw

theorem told_init : Told taskInit where
  exits := List.nodup_nil
  returned := List.nodup_nil
  exited := nofun
  held := nofun
  gone := nofun
  died := by
    intro i t h hd
    unfold taskInit at h
    dsimp only at h
    split at h
    · cases h
      cases hd
    · cases h

section Tables

variable {s s' : State} {p i : Nat} {t : Task} {o : Option Task}

theorem table_setTask (s : State) (i j : Nat) (o : Option Task) :
    (s.setTask i o).table j = if j = i then o else s.table j := Function.update_apply ..

theorem Tree.congr (h : Tree s) (ht : s'.table = s.table) (hb : s'.births = s.births) : Tree s' := by
  obtain ⟨h1, h2, h3, h4, h5, h6⟩ := h
  rw [← ht] at h1 h2 h3 h4 h5 h6
  rw [← hb] at h5
  exact ⟨h1, h2, h3, h4, h5, h6⟩

/-- The record of a task other than idle is changed, but its parent and number. -/
theorem Tree.set (h : Tree s) {t' : Task} (hp : s.table p = some t) (h0 : p ≠ 0)
    (hpp : t'.ppid = t.ppid) (hser : t'.serial = t.serial)
    (hdead : t'.state = .died → ∀ j u, s.table j = some u → u.ppid ≠ p) :
    Tree (s.setTask p (some t')) := by
  -- who is in which slot now was there before, with that parent and number
  have hback : ∀ j u, (s.setTask p (some t')).table j = some u →
      ∃ v, s.table j = some v ∧ u.ppid = v.ppid ∧ u.serial = v.serial := fun j u hj => by
    rw [table_setTask] at hj
    split at hj
    · next e =>
        cases hj
        exact ⟨t, e ▸ hp, hpp, hser⟩
    · exact ⟨u, hj, rfl, rfl⟩
  obtain ⟨t₀, ht₀, hi⟩ := h.idle
  obtain ⟨t₁, ht₁, hf⟩ := h.first
  refine ⟨⟨t₀, ?_, hi⟩, ?_, fun j u hj => ?_, fun j u hj => ?_, fun j u hj => ?_,
    fun j k u v hj hk e => ?_⟩
  · rw [table_setTask, if_neg (Ne.symm h0), ht₀]
  · by_cases e : p = 1
    · rw [e, ht₁] at hp
      cases hp
      exact ⟨t', by rw [table_setTask, if_pos e.symm], hpp.trans hf⟩
    · exact ⟨t₁, by rw [table_setTask, if_neg (Ne.symm e), ht₁], hf⟩
  · obtain ⟨v, hv, -⟩ := hback j u hj
    exact h.bound j v hv
  · obtain ⟨v, hv, hup, hus⟩ := hback j u hj
    obtain ⟨w, hw, hlive, hlt⟩ := h.parent j v hv
    rw [hup, hus, table_setTask]
    by_cases e : v.ppid = p
    · rw [if_pos e]
      rw [e, hp] at hw
      cases hw
      exact ⟨t', rfl, fun hd => hdead hd j v hv e, fun hj => hser.symm ▸ hlt hj⟩
    · rw [if_neg e]
      exact ⟨w, hw, hlive, hlt⟩
  · obtain ⟨v, hv, -, hus⟩ := hback j u hj
    exact hus ▸ h.born j v hv
  · obtain ⟨u', hu, -, hus⟩ := hback j u hj
    obtain ⟨v', hv, -, hvs⟩ := hback k v hk
    exact h.apart j k u' v' hu hv (hus.symm.trans (e.trans hvs))

/-- The children of a task other than idle lie where `task_waitpid` looks. -/
theorem Tree.child_slot (h : Tree s) {c : Nat} {u : Task} (hc : s.table c = some u)
    (hp : u.ppid ≠ 0) : c ∈ List.range' 2 (NR_TASKS - 2) := by
  have h0 : c ≠ 0 := by
    rintro rfl
    obtain ⟨t, ht, -, -, h0⟩ := h.idle
    rw [hc] at ht
    cases ht
    exact hp h0
  have h1 : c ≠ 1 := by
    rintro rfl
    obtain ⟨t, ht, h0⟩ := h.first
    rw [hc] at ht
    cases ht
    exact hp h0
  have := h.bound c u hc
  rw [List.mem_range'_1]
  unfold NR_TASKS at *
  omega

end Tables

/-! ## 5. `task_fork` -/

section Fork

variable {s s' : State} {p i : Nat} {t : Task}

theorem getFreeTask_ok {n : Nat} (h : getFreeTask s = .ok n) : n < NR_TASKS ∧ s.table n = none := by
  unfold getFreeTask at h
  split at h
  · cases h
  · next hf =>
      cases h
      exact ⟨List.mem_range.mp (List.mem_of_find?_eq_some hf), by simpa using List.find?_some hf⟩

theorem getFreeTask_error {e : Stop} (h : getFreeTask s = .error e) :
    e = .panic ∧ ∀ i < NR_TASKS, s.table i ≠ none := by
  unfold getFreeTask at h
  split at h
  · next hf =>
      cases h
      refine ⟨rfl, fun i hi hn => ?_⟩
      have := List.find?_eq_none.mp hf i (List.mem_range.mpr hi)
      rw [hn] at this
      exact this rfl
  · cases h

/-- A child is born in a free slot. -/
structure Forked (s s' : State) (p n : Nat) (t : Task) : Prop where
  parent : s.table p = some t
  free : s.table n = none
  bound : n < NR_TASKS
  eq : s' = { s.setTask n (some { t with
    ppid := p, state := .ready, pc := none, serial := s.births }) with births := s.births + 1 }

theorem taskFork_forked (h : taskFork p s = .ok s') : ∃ n t, Forked s s' p n t := by
  unfold taskFork at h
  split at h
  · cases h
  · next t ht =>
      obtain ⟨_, -, h⟩ := ok_of_bind h
      obtain ⟨n, hn, h⟩ := ok_of_bind h
      obtain ⟨hlt, hfree⟩ := getFreeTask_ok hn
      exact ⟨n, t, ht, hfree, hlt, (Except.ok.inj h).symm⟩

/-- The slots after the birth. -/
theorem Forked.table (h : Forked s s' p i t) (j : Nat) : s'.table j =
    if j = i then some { t with ppid := p, state := .ready, pc := none, serial := s.births }
    else s.table j := by
  rw [h.eq]
  exact table_setTask s i j _

theorem Forked.old (h : Forked s s' p i t) {j : Nat} {u : Task} (hj : s.table j = some u) :
    s'.table j = some u := by
  rw [h.table, if_neg fun e => ?_, hj]
  rw [e, h.free] at hj
  cases hj

/-- A slot holds the child, or what it held. -/
theorem Forked.cases (h : Forked s s' p i t) {j : Nat} {u : Task} (hj : s'.table j = some u) :
    (j = i ∧ u = { t with ppid := p, state := .ready, pc := none, serial := s.births }) ∨
      s.table j = some u := by
  rw [h.table] at hj
  split at hj
  · next e => exact .inl ⟨e, (Option.some.inj hj).symm⟩
  · exact .inr hj

theorem Forked.sound (h : Forked s s' p i t) (hs : Sound s) (hp : Runs s p) : Sound s' := by
  obtain ⟨t', ht', hr, -⟩ := hp
  obtain rfl : t = t' := Option.some.inj (h.parent.symm.trans ht')
  have hbirths : s'.births = s.births + 1 := by rw [h.eq]
  have hblock : s'.blockList = s.blockList := by rw [h.eq]; rfl
  have hborn := hs.born p t h.parent
  obtain ⟨t₀, ht₀, hi⟩ := hs.idle
  obtain ⟨t₁, ht₁, hf⟩ := hs.first
  refine ⟨⟨⟨t₀, h.old ht₀, hi⟩, ⟨t₁, h.old ht₁, hf⟩, fun j u hj => ?_, fun j u hj => ?_,
    fun j u hj => ?_, fun j k u v hj hk e => ?_⟩, fun j u pid hj hpc => ?_, fun j u hj hw => ?_,
    fun j => ?_, hblock ▸ hs.nodup⟩
  · obtain ⟨rfl, -⟩ | hj := h.cases hj
    · exact h.bound
    · exact hs.bound j u hj
  · obtain ⟨rfl, rfl⟩ | hj := h.cases hj
    · refine ⟨t, h.old h.parent, ?_, fun _ => hborn⟩
      rw [hr]
      nofun
    · obtain ⟨v, hv, hlive, hlt⟩ := hs.parent j u hj
      exact ⟨v, h.old hv, hlive, hlt⟩
  · rw [hbirths]
    obtain ⟨rfl, rfl⟩ | hj := h.cases hj
    · exact Nat.lt_succ_self _
    · exact Nat.lt_succ_of_lt (hs.born j u hj)
  · obtain ⟨rfl, rfl⟩ | hj := h.cases hj
    · obtain ⟨rfl, -⟩ | hk := h.cases hk
      · rfl
      · exact absurd e (Nat.ne_of_gt (hs.born k v hk))
    · obtain ⟨rfl, rfl⟩ | hk := h.cases hk
      · exact absurd e (Nat.ne_of_lt (hs.born j u hj))
      · exact hs.apart j k u v hj hk e
  · obtain ⟨rfl, rfl⟩ | hj := h.cases hj
    · cases hpc
    · obtain ⟨hlive, c, v, hc⟩ := hs.inside j u pid hj hpc
      exact ⟨hlive, c, v, h.old hc.slot, hc.ppid, hc.asked⟩
  · obtain ⟨rfl, rfl⟩ | hj := h.cases hj
    · cases hw
    · obtain ⟨hpc, hc⟩ := hs.waits j u hj hw
      refine ⟨hpc, fun c v hv => ?_⟩
      obtain ⟨rfl, rfl⟩ | hv' := h.cases hv.slot
      · nofun
      · exact hc c v ⟨hv', hv.ppid, hv.asked⟩
  · rw [hblock, hs.listed j]
    constructor
    · exact fun ⟨u, hu, hw⟩ => ⟨u, h.old hu, hw⟩
    · rintro ⟨u, hu, hw⟩
      obtain ⟨rfl, rfl⟩ | hu := h.cases hu
      · cases hw
      · exact ⟨u, hu, hw⟩

theorem Forked.told (h : Forked s s' p i t) (ht : Told s) : Told s' := by
  have hbirths : s'.births = s.births + 1 := by rw [h.eq]
  have hexits : s'.exits = s.exits := by rw [h.eq]; rfl
  have hret : s'.returned = s.returned := by rw [h.eq]; rfl
  refine ⟨hexits ▸ ht.exits, hret ▸ ht.returned, fun e he => ?_, fun e he hn => ?_, fun e he => ?_,
    fun j u hj hd => ?_⟩
  · rw [hret] at he
    exact hexits ▸ ht.exited e he
  · rw [hexits] at he
    rw [hret] at hn
    obtain ⟨u, hu, hrest⟩ := ht.held e he hn
    exact ⟨u, h.old hu, hrest⟩
  · rw [hret] at he
    obtain ⟨hlt, hno⟩ := ht.gone e he
    refine ⟨hbirths ▸ Nat.lt_succ_of_lt hlt, fun j u hj => ?_⟩
    obtain ⟨rfl, rfl⟩ | hj := h.cases hj
    · exact Nat.ne_of_gt hlt
    · exact hno j u hj
  · rw [hexits]
    obtain ⟨rfl, rfl⟩ | hj := h.cases hj
    · cases hd
    · exact ht.died j u hj hd

/-- `task_fork` panics where no slot is free. -/
theorem taskFork_ok (hs : Sound s) (ht : Told s) (hp : Runs s p) :
    (∃ s', taskFork p s = .ok s' ∧ Sound s' ∧ Told s') ∨
      (taskFork p s = .error .panic ∧ ∀ i < NR_TASKS, s.table i ≠ none) := by
  obtain ⟨t, htp, hr, -⟩ := id hp
  have hlist : p ∉ s.blockList := fun hm => by
    obtain ⟨u, hu, hw⟩ := (hs.listed p).mp hm
    rw [htp] at hu
    cases hu
    rw [hr] at hw
    cases hw
  cases hfree : getFreeTask s with
  | error e =>
    right
    obtain ⟨rfl, hfull⟩ := getFreeTask_error hfree
    refine ⟨?_, hfull⟩
    unfold taskFork
    rw [htp]
    simp only [hlist, not_false_eq_true, decide_true, hfree]
    rfl
  | ok n =>
    left
    have hrun : ∃ s', taskFork p s = .ok s' := by
      unfold taskFork
      rw [htp]
      simp only [hlist, not_false_eq_true, decide_true, hfree]
      exact ⟨_, rfl⟩
    obtain ⟨s', hrun⟩ := hrun
    obtain ⟨m, u, hf⟩ := taskFork_forked hrun
    exact ⟨s', hrun, hf.sound hs hp, hf.told ht⟩

end Fork

/-! ## 6. `task_waitpid` -/

section Wait

variable {s s' : State} {p i : Nat} {pid : Int} {t : Task}

/-- What the loop over the slots `l` finds: a dead child that is asked for, or that there is none,
    and whether there are others. -/
inductive Searched (s : State) (p : Nat) (pid : Int) (l : List Nat) (b : Bool) :
    Option (Nat × Task) × Bool → Prop where
  | dead (i : Nat) (u : Task) (b' : Bool) (hi : i ∈ l) (hc : Child s p pid i u)
      (hd : u.state = .died) : Searched s p pid l b (some (i, u), b')
  | none (b' : Bool) (halive : ∀ c ∈ l, ∀ u, Child s p pid c u → u.state ≠ .died)
      (hb : b' = true ↔ b = true ∨ ∃ c ∈ l, ∃ u, Child s p pid c u) : Searched s p pid l b (none, b')

/-- A slot that holds no child asked for is passed over. -/
theorem Searched.skip {l : List Nat} {b : Bool} {r : Option (Nat × Task) × Bool}
    (h : Searched s p pid l b r) (hno : ∀ u, ¬ Child s p pid i u) :
    Searched s p pid (i :: l) b r := by
  cases h with
  | dead j u b' hj hc hd => exact .dead j u b' (List.mem_cons_of_mem i hj) hc hd
  | none b' halive hb =>
    refine .none b' (fun c hc u hu => ?_) (hb.trans ?_)
    · rcases List.mem_cons.mp hc with rfl | hc
      · exact absurd hu (hno u)
      · exact halive c hc u hu
    · simp [hno]

/-- A child that lives counts. -/
theorem Searched.alive {l : List Nat} {b : Bool} {r : Option (Nat × Task) × Bool}
    (h : Searched s p pid l true r) (hc : Child s p pid i t) (hlive : t.state ≠ .died) :
    Searched s p pid (i :: l) b r := by
  cases h with
  | dead j u b' hj hu hd => exact .dead j u b' (List.mem_cons_of_mem i hj) hu hd
  | none b' halive hb =>
    refine .none b' (fun c hm u hu => ?_) (hb.trans ?_)
    · rcases List.mem_cons.mp hm with rfl | hm
      · cases hc.slot.symm.trans hu.slot
        exact hlive
      · exact halive c hm u hu
    · exact iff_of_true (.inl rfl) (.inr ⟨i, List.mem_cons_self .., t, hc⟩)

theorem searchChild_spec (s : State) (p : Nat) (pid : Int) (l : List Nat) (b : Bool) :
    Searched s p pid l b (searchChild s p pid l b) := by
  induction l generalizing b with
  | nil => exact .none b nofun (by simp)
  | cons i l ih =>
    unfold searchChild
    split
    · next hn => exact (ih b).skip fun u hu => nomatch hn.symm.trans hu.slot
    · next ptr hp =>
        have heq : ∀ u, Child s p pid i u → u = ptr := fun u hu =>
          Option.some.inj (hu.slot.symm.trans hp)
        split
        · next hne => exact (ih b).skip fun u hu => hne (heq u hu ▸ hu.ppid)
        · next hpp =>
            split
            · next hne =>
                refine (ih b).skip fun u hu => ?_
                rcases hu.asked with h | h
                · exact hne.1 h
                · exact hne.2 h
            · next hask =>
                have hc : Child s p pid i ptr := by
                  refine ⟨hp, not_not.mp hpp, ?_⟩
                  unfold Matches
                  by_contra hn
                  exact hask (not_or.mp hn)
                split
                · next hd => exact .dead i ptr b (List.mem_cons_self ..) hc hd
                · next hlive => exact (ih true).alive hc hlive

theorem Sound.unlisted (h : Sound s) (hp : s.table p = some t) (hr : t.state = .ready) :
    p ∉ s.blockList := fun hm => by
  obtain ⟨u, hu, hw⟩ := (h.listed p).mp hm
  rw [hp] at hu
  cases hu
  rw [hr] at hw
  cases hw

theorem Told.congr {s' : State} (h : Told s) (hb : s'.births = s.births) (he : s'.exits = s.exits)
    (hr : s'.returned = s.returned)
    (hkeep : ∀ j u, s.table j = some u → u.state = .died → s'.table j = some u)
    (hback : ∀ j u, s'.table j = some u → ∃ v, s.table j = some v ∧ u.serial = v.serial ∧
      u.status = v.status ∧ (u.state = .died → v.state = .died)) : Told s' := by
  refine ⟨he ▸ h.exits, hr ▸ h.returned, fun e hm => ?_, fun e hm hn => ?_, fun e hm => ?_,
    fun j u hj hd => ?_⟩
  · exact he ▸ h.exited e (hr ▸ hm)
  · obtain ⟨u, hu, hser, hd, hst⟩ := h.held e (he ▸ hm) (hr ▸ hn)
    exact ⟨u, hkeep _ u hu hd, hser, hd, hst⟩
  · obtain ⟨hlt, hno⟩ := h.gone e (hr ▸ hm)
    refine ⟨hb ▸ hlt, fun j u hj => ?_⟩
    obtain ⟨v, hv, hser, -⟩ := hback j u hj
    exact hser ▸ hno j v hv
  · obtain ⟨v, hv, hser, hst, hdv⟩ := hback j u hj
    rw [he, hser, hst]
    exact h.died j v hv (hdv hd)

/-- The record of a task is another one, with the same parent, number and status; both are alive. -/
structure Changed (s s' : State) (p : Nat) (t t' : Task) : Prop where
  was : s.table p = some t
  table : ∀ j, s'.table j = if j = p then some t' else s.table j
  births : s'.births = s.births
  ppid : t'.ppid = t.ppid
  serial : t'.serial = t.serial
  status : t'.status = t.status
  lived : t.state ≠ .died
  lives : t'.state ≠ .died

section Changed

variable {t' : Task}

theorem Changed.told (h : Changed s s' p t t') (ht : Told s) (he : s'.exits = s.exits)
    (hr : s'.returned = s.returned) : Told s' := by
  refine ht.congr h.births he hr (fun j u hj hd => ?_) fun j u hj => ?_
  · have e : j ≠ p := fun e => by
      rw [e, h.was] at hj
      cases hj
      exact h.lived hd
    rw [h.table, if_neg e, hj]
  · rw [h.table] at hj
    split at hj
    · next e =>
        cases hj
        exact ⟨t, e ▸ h.was, h.serial, h.status, fun hd => absurd hd h.lives⟩
    · exact ⟨u, hj, rfl, rfl, id⟩

/-- The same children, and the same of them dead. -/
theorem Changed.child (h : Changed s s' p t t') {c : Nat} {u : Task} (hu : Child s i pid c u) :
    ∃ v, Child s' i pid c v := by
  by_cases e : c = p
  · have hslot := hu.slot
    rw [e, h.was] at hslot
    cases hslot
    exact ⟨t', by rw [h.table, if_pos e], h.ppid.trans hu.ppid, hu.asked⟩
  · exact ⟨u, by rw [h.table, if_neg e]; exact hu.slot, hu.ppid, hu.asked⟩

theorem Changed.child_back (h : Changed s s' p t t') {c : Nat} {u : Task}
    (hu : Child s' i pid c u) : u.state ≠ .died ∨ Child s i pid c u := by
  have hslot := hu.slot
  rw [h.table] at hslot
  split at hslot
  · cases hslot
    exact .inl h.lives
  · exact .inr ⟨hslot, hu.ppid, hu.asked⟩

theorem Changed.sound (h : Changed s s' p t t') (hs : Sound s) (h0 : p ≠ 0)
    (hin : ∀ q, t'.pc = some q → ∃ c u, Child s p q c u)
    (hw : t'.state = .waiting →
      t'.pc = some t'.waitpid ∧ ∀ c u, Child s p t'.waitpid c u → u.state ≠ .died)
    (hlist : ∀ i, i ∈ s'.blockList ↔ if i = p then t'.state = .waiting else i ∈ s.blockList)
    (hnodup : s'.blockList.Nodup) : Sound s' := by
  have htree : Tree (s.setTask p (some t')) :=
    hs.toTree.set h.was h0 h.ppid h.serial fun hd => absurd hd h.lives
  have htable : s'.table = (s.setTask p (some t')).table := funext fun j => by
    rw [h.table, table_setTask]
  refine ⟨htree.congr htable h.births, fun i u q hi hpc => ?_, fun i u hi hw' => ?_, fun i => ?_,
    hnodup⟩
  · rw [h.table] at hi
    split at hi
    · next e =>
        cases hi
        obtain ⟨c, v, hc⟩ := hin q hpc
        obtain ⟨v', hc'⟩ := h.child hc
        exact ⟨h.lives, c, v', e ▸ hc'⟩
    · obtain ⟨hlive, c, v, hc⟩ := hs.inside i u q hi hpc
      obtain ⟨v', hc'⟩ := h.child hc
      exact ⟨hlive, c, v', hc'⟩
  · have hno : u.pc = some u.waitpid ∧ ∀ c v, Child s i u.waitpid c v → v.state ≠ .died := by
      rw [h.table] at hi
      split at hi
      · next e =>
          cases hi
          exact e ▸ hw hw'
      · exact hs.waits i u hi hw'
    refine ⟨hno.1, fun c v hv => ?_⟩
    rcases h.child_back hv with hlive | hv
    · exact hlive
    · exact hno.2 c v hv
  · rw [hlist i, h.table]
    by_cases e : i = p
    · rw [if_pos e, if_pos e]
      exact ⟨fun hw => ⟨t', rfl, hw⟩, fun ⟨u, hu, hw⟩ => Option.some.inj hu ▸ hw⟩
    · rw [if_neg e, if_neg e]
      exact hs.listed i

end Changed

/-- A task falls asleep: it has a child that it asks for, and none of them is dead. -/
theorem taskBlock_ok (hs : Sound s) (ht : Told s) (hp : s.table p = some t) (hr : t.state = .ready)
    (h0 : p ≠ 0) (hc : ∃ c u, Child s p pid c u)
    (halive : ∀ c u, Child s p pid c u → u.state ≠ .died) :
    ∃ s', taskBlock s p { t with waitpid := pid, pc := some pid } = .ok s' ∧ Sound s' ∧ Told s' := by
  have hlist := hs.unlisted hp hr
  have hch : Changed s { s.setTask p (some { t with
      waitpid := pid, pc := some pid, state := .waiting }) with blockList := p :: s.blockList } p t
      { t with waitpid := pid, pc := some pid, state := .waiting } :=
    ⟨hp, fun j => table_setTask s p j _, rfl, rfl, rfl, rfl, by rw [hr]; nofun, nofun⟩
  refine ⟨_, ?_, hch.sound hs h0 (fun q hq => ?_) (fun _ => ⟨rfl, halive⟩) (fun i => ?_)
    (List.nodup_cons.mpr ⟨hlist, hs.nodup⟩), hch.told ht rfl rfl⟩
  · unfold taskBlock
    simp only [hlist, not_false_eq_true, decide_true]
    rfl
  · cases hq
    exact hc
  · by_cases e : i = p
    · simp [e]
    · simp [e]

/-- A dead task leaves its slot, and its end is answered. -/
structure Reaped (s s' : State) (i : Nat) (u : Task) : Prop where
  was : s.table i = some u
  dead : u.state = .died
  table : ∀ j, s'.table j = if j = i then none else s.table j
  births : s'.births = s.births
  blockList : s'.blockList = s.blockList
  exits : s'.exits = s.exits
  returned : s'.returned = s.returned ++ [⟨u.serial, i, u.status⟩]

theorem Reaped.old (h : Reaped s s' i t) {j : Nat} {u : Task} (hj : s'.table j = some u) :
    j ≠ i ∧ s.table j = some u := by
  rw [h.table] at hj
  split at hj
  · cases hj
  · next e => exact ⟨e, hj⟩

theorem Reaped.stays (h : Reaped s s' i t) {j : Nat} {u : Task} (hj : s.table j = some u)
    (hlive : u.state ≠ .died) : s'.table j = some u := by
  have e : j ≠ i := fun e => by
    rw [e, h.was] at hj
    cases hj
    exact hlive h.dead
  rw [h.table, if_neg e, hj]

theorem Reaped.sound (h : Reaped s s' i t) (hs : Sound s) (h0 : i ≠ 0) (h1 : i ≠ 1)
    (hout : ∀ u, s.table t.ppid = some u → u.pc = none) : Sound s' := by
  obtain ⟨t₀, ht₀, hi⟩ := hs.idle
  obtain ⟨t₁, ht₁, hf⟩ := hs.first
  refine ⟨⟨⟨t₀, ?_, hi⟩, ⟨t₁, ?_, hf⟩, fun j u hj => ?_, fun j u hj => ?_, fun j u hj => ?_,
    fun j k u v hj hk => ?_⟩, fun j u q hj hpc => ?_, fun j u hj hw => ?_, fun j => ?_, ?_⟩
  · rw [h.table, if_neg (Ne.symm h0), ht₀]
  · rw [h.table, if_neg (Ne.symm h1), ht₁]
  · exact hs.bound j u (h.old hj).2
  · obtain ⟨v, hv, hlive, hlt⟩ := hs.parent j u (h.old hj).2
    exact ⟨v, h.stays hv hlive, hlive, hlt⟩
  · rw [h.births]
    exact hs.born j u (h.old hj).2
  · exact hs.apart j k u v (h.old hj).2 (h.old hk).2
  · have hj := (h.old hj).2
    obtain ⟨hlive, c, v, hc⟩ := hs.inside j u q hj hpc
    refine ⟨hlive, c, v, ?_, hc.ppid, hc.asked⟩
    have e : c ≠ i := by
      rintro rfl
      have hv : t = v := Option.some.inj (h.was.symm.trans hc.slot)
      have hnone := hout u (by rw [hv, hc.ppid, hj])
      rw [hpc] at hnone
      cases hnone
    rw [h.table, if_neg e, hc.slot]
  · obtain ⟨hpc, hc⟩ := hs.waits j u (h.old hj).2 hw
    exact ⟨hpc, fun c v hv => hc c v ⟨(h.old hv.slot).2, hv.ppid, hv.asked⟩⟩
  · rw [h.blockList, hs.listed j]
    constructor
    · rintro ⟨u, hu, hw⟩
      refine ⟨u, h.stays hu ?_, hw⟩
      rw [hw]
      nofun
    · exact fun ⟨u, hu, hw⟩ => ⟨u, (h.old hu).2, hw⟩
  · rw [h.blockList]
    exact hs.nodup

theorem Reaped.told (h : Reaped s s' i t) (hs : Sound s) (ht : Told s) : Told s' := by
  have hmem : ∀ e, e ∈ s'.returned ↔ e ∈ s.returned ∨ e = ⟨t.serial, i, t.status⟩ := fun e => by
    rw [h.returned, List.mem_append, List.mem_singleton]
  refine ⟨h.exits ▸ ht.exits, ?_, fun e he => ?_, fun e he hn => ?_, fun e he => ?_,
    fun j u hj hd => ?_⟩
  · rw [h.returned, List.map_append, List.map_singleton, List.nodup_append]
    refine ⟨ht.returned, List.nodup_singleton _, fun a ha b hb => ?_⟩
    obtain ⟨e, he, rfl⟩ := List.mem_map.mp ha
    rw [List.mem_singleton.mp hb]
    exact fun heq => (ht.gone e he).2 i t h.was heq.symm
  · rw [h.exits]
    rcases (hmem e).mp he with he | rfl
    · exact ht.exited e he
    · exact ht.died i t h.was h.dead
  · rw [h.exits] at he
    obtain ⟨hn, hne⟩ := not_or.mp fun h' => hn ((hmem e).mpr h')
    obtain ⟨u, hu, hser, hd, hst⟩ := ht.held e he hn
    have e' : e.pid ≠ i := fun e' => by
      rw [e', h.was] at hu
      cases hu
      exact hne (by rw [hser, hst, ← e'])
    exact ⟨u, by rw [h.table, if_neg e', hu], hser, hd, hst⟩
  · rw [h.births]
    rcases (hmem e).mp he with he | rfl
    · obtain ⟨hlt, hno⟩ := ht.gone e he
      exact ⟨hlt, fun j u hj => hno j u (h.old hj).2⟩
    · refine ⟨hs.born i t h.was, fun j u hj heq => ?_⟩
      obtain ⟨hne, hj⟩ := h.old hj
      exact hne (hs.apart j i u t hj h.was heq)
  · rw [h.exits]
    exact ht.died j u (h.old hj).2 hd

/-- **`task_waitpid`** of a task that has a child it asks for. -/
theorem taskWaitpid_ok (hs : Sound s) (ht : Told s) (hp : s.table p = some t)
    (hr : t.state = .ready) (h0 : p ≠ 0) (hc : ∃ c u, Child s p pid c u) :
    ∃ s', taskWaitpid p pid s = .ok s' ∧ Sound s' ∧ Told s' := by
  have hslot : ∀ c u, Child s p pid c u → c ∈ List.range' 2 (NR_TASKS - 2) := fun c u hu =>
    hs.child_slot hu.slot fun e => h0 (hu.ppid.symm.trans e)
  have hspec := searchChild_spec s p pid (List.range' 2 (NR_TASKS - 2)) false
  unfold taskWaitpid
  rw [hp]
  dsimp only
  generalize searchChild s p pid (List.range' 2 (NR_TASKS - 2)) false = r at hspec ⊢
  cases hspec with
  | dead i u b hi hu hd =>
    have hne : i ≠ p := by
      rintro rfl
      cases hp.symm.trans hu.slot
      rw [hr] at hd
      cases hd
    have hi := List.mem_range'_1.mp hi
    have hch : Changed s (s.setTask p (some { t with pc := none })) p t { t with pc := none } :=
      ⟨hp, fun j => table_setTask s p j _, rfl, rfl, rfl, rfl, by rw [hr]; nofun, by rw [hr]; nofun⟩
    have hs₁ : Sound (s.setTask p (some { t with pc := none })) := by
      refine hch.sound hs h0 nofun (fun hw => ?_) (fun j => ?_) hs.nodup
      · rw [hr] at hw
        cases hw
      · by_cases e : j = p
        · rw [if_pos e, e, hr]
          exact iff_of_false (hs.unlisted hp hr) nofun
        · rw [if_neg e]
          rfl
    have hreap : Reaped (s.setTask p (some { t with pc := none }))
        { (s.setTask i none).setTask p (some { t with pc := none }) with
          returned := s.returned ++ [⟨u.serial, i, u.status⟩] } i u := by
      refine ⟨?_, hd, fun j => ?_, rfl, rfl, rfl, rfl⟩
      · rw [table_setTask, if_neg hne, hu.slot]
      · show ((s.setTask i none).setTask p _).table j = _
        simp only [table_setTask]
        by_cases e : j = p
        · rw [if_pos e, if_pos e, if_neg fun e' => hne (e'.symm.trans e)]
        · rw [if_neg e, if_neg e]
    refine ⟨_, rfl, hreap.sound hs₁ (by omega) (by omega) fun v hv => ?_,
      hreap.told hs₁ (hch.told ht rfl rfl)⟩
    rw [hu.ppid, table_setTask, if_pos rfl] at hv
    cases hv
    rfl
  | none b halive hb =>
    obtain ⟨c, u, hu⟩ := hc
    obtain rfl : b = true := hb.mpr (.inr ⟨c, hslot c u hu, u, hu⟩)
    exact taskBlock_ok hs ht hp hr h0 ⟨c, u, hu⟩ fun c u hu => halive c (hslot c u hu) u hu

end Wait

/-! ## 7. `task_exit` -/

section Exit

variable {s s' : State} {p i : Nat} {pid status : Int} {t : Task}

/-- A task dies, and its children get its own parent. -/
structure Left (s s' : State) (p : Nat) (t : Task) (status : Int) : Prop where
  was : s.table p = some t
  table : ∀ j, s'.table j = if j = p then some { t with state := .died, status := status }
    else (s.table j).map fun c => if c.ppid = p then { c with ppid := t.ppid } else c
  births : s'.births = s.births
  blockList : s'.blockList = s.blockList
  exits : s'.exits = s.exits ++ [⟨t.serial, p, status⟩]
  returned : s'.returned = s.returned

/-- A slot but `p` holds what it held, perhaps with another parent. -/
theorem Left.old (h : Left s s' p t status) {j : Nat} {u : Task} (hj : s'.table j = some u)
    (e : j ≠ p) : ∃ v, s.table j = some v ∧
      ((v.ppid = p ∧ u = { v with ppid := t.ppid }) ∨ (v.ppid ≠ p ∧ u = v)) := by
  rw [h.table, if_neg e] at hj
  obtain ⟨v, hv, rfl⟩ := Option.map_eq_some_iff.mp hj
  refine ⟨v, hv, ?_⟩
  by_cases hp : v.ppid = p
  · exact .inl ⟨hp, if_pos hp⟩
  · exact .inr ⟨hp, if_neg hp⟩

theorem Left.keeps (h : Left s s' p t status) {j : Nat} {u : Task} (hj : s.table j = some u)
    (e : j ≠ p) : ∃ v, s'.table j = some v ∧ v.state = u.state ∧ v.serial = u.serial ∧
      v.status = u.status ∧ v.pc = u.pc ∧ v.waitpid = u.waitpid ∧ (u.ppid ≠ p → v = u) := by
  refine ⟨if u.ppid = p then { u with ppid := t.ppid } else u, ?_, ?_⟩
  · rw [h.table, if_neg e, hj]
    rfl
  · split <;> simp_all

/-- The parent of a task is another task. -/
theorem Tree.parent_ne (hs : Tree s) (hp : s.table p = some t) (h0 : p ≠ 0) : t.ppid ≠ p := fun e => by
  obtain ⟨u, hu, -, hlt⟩ := hs.parent p t hp
  rw [e, hp] at hu
  cases hu
  exact Nat.lt_irrefl _ (hlt h0)

theorem Left.tree (h : Left s s' p t status) (hs : Tree s) (h0 : p ≠ 0) : Tree s' := by
  have hpp := hs.parent_ne h.was h0
  obtain ⟨w, hw, hwlive, hwlt⟩ := hs.parent p t h.was
  have hself : s'.table p = some { t with state := .died, status := status } := by
    rw [h.table, if_pos rfl]
  -- the new parent of a child of `p`
  have hnew : ∃ w', s'.table t.ppid = some w' ∧ w'.state ≠ .died ∧ w'.serial < t.serial := by
    obtain ⟨w', hw', hst, hser, -⟩ := h.keeps hw hpp
    exact ⟨w', hw', hst ▸ hwlive, hser ▸ hwlt h0⟩
  have hser : ∀ j u, s'.table j = some u → ∃ v, s.table j = some v ∧ u.serial = v.serial := by
    intro j u hj
    by_cases e : j = p
    · rw [e, hself] at hj
      cases hj
      exact ⟨t, e ▸ h.was, rfl⟩
    · obtain ⟨v, hv, ⟨-, rfl⟩ | ⟨-, rfl⟩⟩ := h.old hj e
      · exact ⟨v, hv, rfl⟩
      · exact ⟨u, hv, rfl⟩
  obtain ⟨t₀, ht₀, hr₀, hpc₀, hi⟩ := hs.idle
  obtain ⟨t₁, ht₁, hf⟩ := hs.first
  refine ⟨?_, ?_, fun j u hj => ?_, fun j u hj => ?_, fun j u hj => ?_, fun j k u v hj hk e => ?_⟩
  · obtain ⟨v, hv, -, -, -, -, -, heq⟩ := h.keeps ht₀ (Ne.symm h0)
    rw [heq fun e => h0 (e.symm.trans hi)] at hv
    exact ⟨t₀, hv, hr₀, hpc₀, hi⟩
  · by_cases e : p = 1
    · rw [e] at hself h
      cases ht₁.symm.trans h.was
      exact ⟨_, hself, hf⟩
    · obtain ⟨v, hv, -, -, -, -, -, heq⟩ := h.keeps ht₁ (Ne.symm e)
      rw [heq fun e' => h0 (e'.symm.trans hf)] at hv
      exact ⟨t₁, hv, hf⟩
  · obtain ⟨v, hv, -⟩ := hser j u hj
    exact hs.bound j v hv
  · by_cases e : j = p
    · rw [e, hself] at hj
      cases hj
      obtain ⟨w', hw', hlive, hlt⟩ := hnew
      exact ⟨w', hw', hlive, fun _ => hlt⟩
    · obtain ⟨v, hv, ⟨hvp, rfl⟩ | ⟨hvp, rfl⟩⟩ := h.old hj e
      · obtain ⟨w', hw', hlive, hlt⟩ := hnew
        obtain ⟨x, hx, -, hxlt⟩ := hs.parent j v hv
        rw [hvp, h.was] at hx
        cases hx
        exact ⟨w', hw', hlive, fun hj0 => Nat.lt_trans hlt (hxlt hj0)⟩
      · obtain ⟨x, hx, hlive, hxlt⟩ := hs.parent j u hv
        obtain ⟨x', hx', hst, hserx, -⟩ := h.keeps hx hvp
        exact ⟨x', hx', hst ▸ hlive, fun hj0 => hserx ▸ hxlt hj0⟩
  · obtain ⟨v, hv, hus⟩ := hser j u hj
    rw [h.births, hus]
    exact hs.born j v hv
  · obtain ⟨u', hu, hus⟩ := hser j u hj
    obtain ⟨v', hv, hvs⟩ := hser k v hk
    exact hs.apart j k u' v' hu hv (hus.symm.trans (e.trans hvs))

/-- **A task dies** whose parent does not wait for it: nobody waits with a dead child that it asks
    for. A parent that waits for one certain child has that child already. -/
theorem Left.sound (h : Left s s' p t status) (hs : Sound s) (h0 : p ≠ 0) (hr : t.state = .ready)
    (hpc : t.pc = none) (hno : ∀ u, s.table t.ppid = some u → u.state = .waiting →
      ¬ (u.waitpid = -1 ∨ u.waitpid = p)) : Sound s' := by
  have hself : s'.table p = some { t with state := .died, status := status } := by
    rw [h.table, if_pos rfl]
  have hsame : ∀ j u, j ≠ p → s'.table j = some u →
      ∃ v, s.table j = some v ∧ u.state = v.state ∧ u.pc = v.pc ∧ u.waitpid = v.waitpid := by
    intro j u e hj
    obtain ⟨v, hv, ⟨-, rfl⟩ | ⟨-, rfl⟩⟩ := h.old hj e
    · exact ⟨v, hv, rfl, rfl, rfl⟩
    · exact ⟨u, hv, rfl, rfl, rfl⟩
  refine ⟨h.tree hs.toTree h0, fun i u q hi hq => ?_, fun i u hi hw => ?_, fun i => ?_, ?_⟩
  · by_cases e : i = p
    · rw [e, hself] at hi
      cases hi
      cases hpc.symm.trans hq
    · obtain ⟨v, hv, hst, hpc', -⟩ := hsame i u e hi
      obtain ⟨hlive, c, x, hc⟩ := hs.inside i v q hv (hpc' ▸ hq)
      refine ⟨hst ▸ hlive, ?_⟩
      by_cases ec : c = p
      · have hslot := hc.slot
        rw [ec, h.was] at hslot
        cases hslot
        exact ⟨p, _, hself, hc.ppid, ec ▸ hc.asked⟩
      · obtain ⟨x', hx', -, -, -, -, -, heq⟩ := h.keeps hc.slot ec
        rw [heq fun e' => e (hc.ppid.symm.trans e')] at hx'
        exact ⟨c, x, hx', hc.ppid, hc.asked⟩
  · have e : i ≠ p := by
      rintro rfl
      rw [hself] at hi
      cases hi
      cases hw
    obtain ⟨v, hv, hst, hpc', hwp⟩ := hsame i u e hi
    obtain ⟨hvpc, hvc⟩ := hs.waits i v hv (hst ▸ hw)
    refine ⟨by rw [hpc', hwp, hvpc], fun c x hx => ?_⟩
    have hno' : i = t.ppid → ¬ (u.waitpid = -1 ∨ u.waitpid = p) := fun e' => by
      rw [hwp]
      exact hno v (e' ▸ hv) (hst ▸ hw)
    by_cases ec : c = p
    · have hslot := hx.slot
      rw [ec, hself] at hslot
      cases hslot
      refine absurd ?_ (hno' hx.ppid.symm)
      exact (ec ▸ hx.asked).symm
    · obtain ⟨y, hy, ⟨hyp, rfl⟩ | ⟨-, rfl⟩⟩ := h.old hx.slot ec
      · -- a child handed on: it is not the one certain child
        exfalso
        have hasked : u.waitpid = c := hx.asked.resolve_right fun hm => hno' hx.ppid.symm (.inl hm)
        obtain ⟨-, c', z, hz⟩ := hs.inside i v v.waitpid hv hvpc
        have hc' : v.waitpid = c' := hz.asked.resolve_right fun hm =>
          hno' hx.ppid.symm (.inl (hwp.trans hm))
        have hcc : c = c' := Int.ofNat.inj (hasked.symm.trans (hwp.trans hc'))
        cases (hcc ▸ hy).symm.trans hz.slot
        exact e (hz.ppid.symm.trans hyp)
      · exact hvc c x ⟨hy, hx.ppid, hwp ▸ hx.asked⟩
  · rw [h.blockList, hs.listed i]
    constructor
    · rintro ⟨u, hu, hw⟩
      have e : i ≠ p := by
        rintro rfl
        cases h.was.symm.trans hu
        rw [hr] at hw
        cases hw
      obtain ⟨v, hv, hst, -⟩ := h.keeps hu e
      exact ⟨v, hv, hst.trans hw⟩
    · rintro ⟨u, hu, hw⟩
      have e : i ≠ p := by
        rintro rfl
        rw [hself] at hu
        cases hu
        cases hw
      obtain ⟨v, hv, hst, -⟩ := hsame i u e hu
      exact ⟨v, hv, hst ▸ hw⟩
  · rw [h.blockList]
    exact hs.nodup

/-- The end of a task that lives is told for the first time. -/
theorem Told.fresh (ht : Told s) (hs : Sound s) (hp : s.table p = some t) (hlive : t.state ≠ .died) :
    ∀ e ∈ s.exits, e.serial ≠ t.serial := by
  intro e he heq
  by_cases hret : e ∈ s.returned
  · exact (ht.gone e hret).2 p t hp heq.symm
  · obtain ⟨u, hu, hser, hd, -⟩ := ht.held e he hret
    obtain rfl : e.pid = p := hs.apart e.pid p u t hu hp (hser.trans heq)
    rw [hp] at hu
    cases hu
    exact hlive hd

theorem Left.told (h : Left s s' p t status) (hs : Sound s) (ht : Told s) (hr : t.state = .ready) :
    Told s' := by
  have hlive : t.state ≠ .died := by
    rw [hr]
    nofun
  have hself : s'.table p = some { t with state := .died, status := status } := by
    rw [h.table, if_pos rfl]
  have hfresh := ht.fresh hs h.was hlive
  have hmem : ∀ e, e ∈ s'.exits ↔ e ∈ s.exits ∨ e = ⟨t.serial, p, status⟩ := fun e => by
    rw [h.exits, List.mem_append, List.mem_singleton]
  have hsame : ∀ j u, j ≠ p → s'.table j = some u →
      ∃ v, s.table j = some v ∧ u.serial = v.serial ∧ u.state = v.state ∧ u.status = v.status := by
    intro j u e hj
    obtain ⟨v, hv, ⟨-, rfl⟩ | ⟨-, rfl⟩⟩ := h.old hj e
    · exact ⟨v, hv, rfl, rfl, rfl⟩
    · exact ⟨u, hv, rfl, rfl, rfl⟩
  refine ⟨?_, h.returned ▸ ht.returned, fun e he => ?_, fun e he hn => ?_, fun e he => ?_,
    fun j u hj hd => ?_⟩
  · rw [h.exits, List.map_append, List.map_singleton, List.nodup_append]
    refine ⟨ht.exits, List.nodup_singleton _, fun a ha b hb => ?_⟩
    obtain ⟨e, he, rfl⟩ := List.mem_map.mp ha
    rw [List.mem_singleton.mp hb]
    exact hfresh e he
  · exact (hmem e).mpr (.inl (ht.exited e (h.returned ▸ he)))
  · rcases (hmem e).mp he with he | rfl
    · obtain ⟨u, hu, hser, hd, hst⟩ := ht.held e he (h.returned ▸ hn)
      have e' : e.pid ≠ p := fun e' => by
        rw [e', h.was] at hu
        cases hu
        exact hlive hd
      obtain ⟨v, hv, hstate, hserial, hstatus, -⟩ := h.keeps hu e'
      exact ⟨v, hv, hserial.trans hser, hstate.trans hd, hstatus.trans hst⟩
    · exact ⟨_, hself, rfl, rfl, rfl⟩
  · obtain ⟨hlt, hno⟩ := ht.gone e (h.returned ▸ he)
    refine ⟨h.births ▸ hlt, fun j u hj => ?_⟩
    by_cases e' : j = p
    · rw [e', hself] at hj
      cases hj
      exact hno p t h.was
    · obtain ⟨v, hv, hser, -⟩ := hsame j u e' hj
      exact hser ▸ hno j v hv
  · rw [hmem]
    by_cases e' : j = p
    · rw [e', hself] at hj
      cases hj
      exact .inr (by rw [e'])
    · obtain ⟨v, hv, hser, hst, hstatus⟩ := hsame j u e' hj
      rw [hser, hstatus]
      exact .inl (ht.died j v hv (hst ▸ hd))

/-- The state before `task_exit` looks at the parent. -/
theorem exit_left (hs : Tree s) (hp : s.table p = some t) (h0 : p ≠ 0) :
    Left s (giveChildren { s.setTask p (some { t with state := .died, status := status }) with
      exits := s.exits ++ [⟨t.serial, p, status⟩] } p t.ppid) p t status := by
  refine ⟨hp, fun j => ?_, rfl, rfl, rfl, rfl⟩
  show ((s.setTask p _).table j).map _ = _
  rw [table_setTask]
  by_cases e : j = p
  · rw [if_pos e, if_pos e]
    exact congrArg some (if_neg (hs.parent_ne hp h0))
  · rw [if_neg e, if_neg e]

/-- The parent `q` is woken: the same as if it had been woken before the task died. -/
theorem Left.woken (h : Left s s' p t status) (hs : Sound s) (ht : Told s) (h0 : p ≠ 0)
    (hr : t.state = .ready) (hpc : t.pc = none) {w : Task} (hw : s'.table t.ppid = some w)
    (hwait : w.state = .waiting) :
    ∃ s₂, taskUnblock s' t.ppid w = .ok s₂ ∧ Sound s₂ ∧ Told s₂ := by
  have hne := hs.parent_ne h.was h0
  obtain ⟨v, hv, hcase⟩ := h.old hw hne
  have hvst : v.state = .waiting := by
    rcases hcase with ⟨-, rfl⟩ | ⟨-, rfl⟩ <;> exact hwait
  have hq0 : t.ppid ≠ 0 := fun e => by
    obtain ⟨u, hu, hur, -⟩ := hs.idle
    rw [e, hu] at hv
    cases hv
    rw [hur] at hvst
    cases hvst
  have hlist : t.ppid ∈ s.blockList := (hs.listed _).mpr ⟨v, hv, hvst⟩
  have hch : Changed s { s.setTask t.ppid (some { v with state := .ready }) with
      blockList := s.blockList.erase t.ppid } t.ppid v { v with state := .ready } :=
    ⟨hv, fun j => table_setTask s _ j _, rfl, rfl, rfl, rfl, by rw [hvst]; nofun, nofun⟩
  have hs₀ := hch.sound hs hq0 (fun q hq => (hs.inside _ v q hv hq).2) nofun (fun i => by
    by_cases e : i = t.ppid <;> simp [e, hs.nodup.mem_erase_iff]) (hs.nodup.erase _)
  have hleft : Left { s.setTask t.ppid (some { v with state := .ready }) with
      blockList := s.blockList.erase t.ppid }
      { s'.setTask t.ppid (some { w with state := .ready }) with
        blockList := s'.blockList.erase t.ppid } p t status := by
    refine ⟨?_, fun j => ?_, h.births, by rw [h.blockList], h.exits, h.returned⟩
    · rw [hch.table, if_neg (Ne.symm hne), h.was]
    · show (s'.setTask _ _).table j = _
      rw [table_setTask, hch.table]
      by_cases e : j = t.ppid
      · rw [if_pos e, if_pos e, if_neg fun e' => hne (e.symm.trans e')]
        obtain ⟨hvp, rfl⟩ | ⟨hvp, rfl⟩ := hcase
        · exact congrArg some (if_pos hvp).symm
        · exact congrArg some (if_neg hvp).symm
      · rw [if_neg e, if_neg e, h.table]
  refine ⟨_, ?_, hleft.sound hs₀ h0 hr hpc fun u hu hw' => ?_, hleft.told hs₀ (hch.told ht rfl rfl) hr⟩
  · unfold taskUnblock
    rw [h.blockList]
    simp only [hlist, decide_true]
    rfl
  · rw [hch.table, if_pos rfl] at hu
    cases hu
    cases hw'

/-- **`task_exit`.** -/
theorem taskExit_ok (hs : Sound s) (ht : Told s) (hp : s.table p = some t) (hr : t.state = .ready)
    (hpc : t.pc = none) (h0 : p ≠ 0) :
    ∃ s', taskExit p status s = .ok s' ∧ Sound s' ∧ Told s' := by
  have hlist := hs.unlisted hp hr
  have hleft : Left s _ p t status := exit_left hs.toTree hp h0
  obtain ⟨s₁, hs₁⟩ : ∃ s₁, s₁ = giveChildren { s.setTask p (some { t with
    state := .died, status := status }) with
      exits := s.exits ++ [⟨t.serial, p, status⟩] } p t.ppid := ⟨_, rfl⟩
  rw [← hs₁] at hleft
  obtain ⟨u, hu, -⟩ := hs.parent p t hp
  obtain ⟨w, hw, -⟩ := hleft.keeps hu (hs.parent_ne hp h0)
  have hrun : taskExit p status s = match s₁.table t.ppid with
      | none => .error .fault
      | some parent =>
        if parent.state = .waiting ∧ (parent.waitpid = -1 ∨ parent.waitpid = p) then
          taskUnblock s₁ t.ppid parent
        else .ok s₁ := by
    unfold taskExit
    rw [hp, hs₁]
    simp only [hlist, not_false_eq_true, decide_true]
    rfl
  rw [hrun, hw]
  dsimp only
  split
  · next hwake => exact hleft.woken hs ht h0 hr hpc hw hwake.1
  · next hno =>
      refine ⟨_, rfl, hleft.sound hs h0 hr hpc fun v hv hwait hasked => hno ?_, hleft.told hs ht hr⟩
      obtain ⟨w', hw', hst, -, -, -, hwp, -⟩ := hleft.keeps hv (hs.parent_ne hp h0)
      rw [hw] at hw'
      cases hw'
      exact ⟨hst.trans hwait, hwp ▸ hasked⟩

end Exit

/-! ## 8. Runs -/

section Run

variable {s s' : State}

/-- One action: it ends, or `task_fork` finds no slot. -/
theorem act_ok (hs : Sound s) (ht : Told s) (a : Action) (ha : Enabled s a) :
    (∃ s', act s a = .ok s' ∧ Sound s' ∧ Told s') ∨
      (act s a = .error .panic ∧ (∃ p, a = .fork p) ∧ ∀ i < NR_TASKS, s.table i ≠ none) := by
  cases a with
  | fork p =>
    obtain hok | ⟨hpanic, hfull⟩ := taskFork_ok hs ht ha
    · exact .inl hok
    · exact .inr ⟨hpanic, ⟨p, rfl⟩, hfull⟩
  | exit p status =>
    obtain ⟨⟨t, hp, hr, hpc⟩, h0⟩ := ha
    exact .inl (taskExit_ok hs ht hp hr hpc h0)
  | waitpid p pid =>
    obtain ⟨⟨t, hp, hr, -⟩, h0, hc⟩ := ha
    exact .inl (taskWaitpid_ok hs ht hp hr h0 hc)
  | resume p =>
    obtain ⟨t, pid, hp, hr, hpc⟩ := ha
    have h0 : p ≠ 0 := by
      rintro rfl
      obtain ⟨u, hu, -, hnone, -⟩ := hs.idle
      rw [hp] at hu
      cases hu
      rw [hpc] at hnone
      cases hnone
    have hact : act s (.resume p) = taskWaitpid p pid s := by
      obtain ⟨ppid, state, status, waitpid, pc, serial⟩ := t
      cases hpc
      simp only [act, hp]
    rw [hact]
    exact .inl (taskWaitpid_ok hs ht hp hr h0 (hs.inside p t pid hp hpc).2)

theorem reached_sound (h : Reached s) : Sound s ∧ Told s := by
  induction h with
  | init => exact ⟨sound_init, told_init⟩
  | step _ a ha hrun ih =>
    obtain ⟨s', hs', hsound⟩ | ⟨hpanic, -⟩ := act_ok ih.1 ih.2 a ha
    · rw [hs'] at hrun
      cases hrun
      exact hsound
    · rw [hpanic] at hrun
      cases hrun

/-- **In every state reached**, the parent of every task is there and alive; nobody waits while a
    child waited for is dead; an end is answered at most once, and before that the dead task keeps
    its slot, with its pid and status. The calls end, but for a `task_fork` without a free slot. -/
theorem family_kept (h : Reached s) :
    (∀ i t, s.table i = some t → ∃ u, s.table t.ppid = some u ∧ u.state ≠ .died) ∧
      (∀ i t, s.table i = some t → t.state = .waiting →
        ∀ c u, Child s i t.waitpid c u → u.state ≠ .died) ∧
      (s.returned.map Exit.serial).Nodup ∧
      (∀ e ∈ s.returned, e ∈ s.exits ∧ ∀ i t, s.table i = some t → t.serial ≠ e.serial) ∧
      (∀ e ∈ s.exits, e ∉ s.returned →
        ∃ t, s.table e.pid = some t ∧ t.serial = e.serial ∧ t.state = .died ∧ t.status = e.status) ∧
      ∀ a, Enabled s a → (∃ s', act s a = .ok s') ∨
        (act s a = .error .panic ∧ (∃ p, a = .fork p) ∧ ∀ i < NR_TASKS, s.table i ≠ none) := by
  obtain ⟨hs, ht⟩ := reached_sound h
  refine ⟨fun i t hi => ?_, fun i t hi hw => (hs.waits i t hi hw).2, ht.returned,
    fun e he => ⟨ht.exited e he, (ht.gone e he).2⟩, ht.held, fun a ha => ?_⟩
  · obtain ⟨u, hu, hlive, -⟩ := hs.parent i t hi
    exact ⟨u, hu, hlive⟩
  · obtain ⟨s', hs', -⟩ | hpanic := act_ok hs ht a ha
    · exact .inl ⟨s', hs'⟩
    · exact .inr hpanic

/-- Init forks and waits for any child; the child ends and init gets its status. -/
theorem family_kept_wait : ∃ s : State, s.returned = [⟨3, 3, 5⟩] ∧
    ∀ i t, s.table i = some t → ∃ u, s.table t.ppid = some u ∧ u.state ≠ .died := by
  have h₁ := Reached.init.step (.fork 1) ⟨_, rfl, rfl, rfl⟩ rfl
  have h₂ := h₁.step (.waitpid 1 (-1)) ⟨⟨_, rfl, rfl, rfl⟩, nofun, 3, _, rfl, rfl, .inr rfl⟩ rfl
  have h₃ := h₂.step (.exit 3 5) ⟨⟨_, rfl, rfl, rfl⟩, nofun⟩ rfl
  have h₄ := h₃.step (.resume 1) ⟨_, -1, rfl, rfl, rfl⟩ rfl
  exact ⟨_, rfl, (family_kept h₄).1⟩

end Run

end Yuios.Family
