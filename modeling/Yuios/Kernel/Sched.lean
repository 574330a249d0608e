/-
  File:      Yuios/Kernel/Sched.lean
  Subject:   THE SCHEDULER: `schedule`, `task_block`, `task_unblock`, `task_sleep`, `task_wakeup` and
             `task_fork` of `kernel/task.c`, `clock_handler`, and `list_insert_sort`.

  * A list is the sequence of its tasks, head first. The node of a task is linked into the list
    `node`; both of its pointers are NULL exactly when there is none.
  * Interrupts are off in every function here, and each runs up to the switch in `schedule`.
  * `Linked` -- the invariant: a task is in a list, in one, once, exactly while its state says so.
-/
import Yuios.Kernel.Block

namespace Yuios.Sched

open Kernel

abbrev U32 := BitVec 32

def NR_TASKS : Nat := 64

/-! ## 1. The state -/

/-- `task_state_t`, without `TASK_INIT`: no task keeps that past its creation. -/
inductive TaskState where
  | running
  | ready
  | blocked
  | sleeping
  | waiting
  | died
  deriving DecidableEq

/-- `block_list`, `sleep_list` and the others: the `waiters` of a mutex, the `wait_list` of the
    buffers. -/
inductive ListId where
  | block
  | sleep
  | waiters (m : Nat)
  deriving DecidableEq

/-- The fields of a `task_t` that the scheduler reads; `ticks` is an `int`. -/
structure Task where
  state : TaskState
  priority : U32
  ticks : U32
  jiffies : U32
  node : Option ListId
  deriving DecidableEq

/-- `task_table`, the lists, `running_task()` and `jiffies`. -/
structure State where
  table : Nat → Option Task
  lists : ListId → List Nat
  current : Nat
  jiffies : U32

namespace State

def setTask (s : State) (i : Nat) (t : Task) : State :=
  { s with table := Function.update s.table i (some t) }

def setList (s : State) (l : ListId) (ps : List Nat) : State :=
  { s with lists := Function.update s.lists l ps }

variable (s : State) (i j : Nat) (t : Task) (l k : ListId) (ps : List Nat)

theorem table_setTask : (s.setTask i t).table j = if j = i then some t else s.table j :=
  Function.update_apply ..

theorem lists_setList : (s.setList l ps).lists k = if k = l then ps else s.lists k :=
  Function.update_apply ..

@[simp] theorem lists_setTask : (s.setTask i t).lists = s.lists := rfl
@[simp] theorem current_setTask : (s.setTask i t).current = s.current := rfl
@[simp] theorem jiffies_setTask : (s.setTask i t).jiffies = s.jiffies := rfl
@[simp] theorem table_setList : (s.setList l ps).table = s.table := rfl
@[simp] theorem current_setList : (s.setList l ps).current = s.current := rfl
@[simp] theorem jiffies_setList : (s.setList l ps).jiffies = s.jiffies := rfl

end State

/-! ## 2. `schedule` -/

/-- `task_search` takes `ptr` where it has `task`. -/
def better (task ptr : Task) : Bool := task.ticks.slt ptr.ticks || ptr.jiffies.ult task.jiffies

/-- The loop of `task_search(TASK_READY)` over the slots; the running task is passed over. -/
def searchReady (s : State) : List Nat → Option (Nat × Task) → Option (Nat × Task)
  | [], r => r
  | i :: l, r =>
    match s.table i with
    | none => searchReady s l r
    | some ptr =>
      if ptr.state ≠ .ready then searchReady s l r
      else if s.current = i then searchReady s l r
      else match r with
        | none => searchReady s l (some (i, ptr))
        | some (n, task) => searchReady s l (if better task ptr then some (i, ptr) else some (n, task))

/-- `task_search(TASK_READY)`: idle, task 0, if no other task is ready. -/
def taskSearch (s : State) : Nat :=
  match searchReady s (List.range NR_TASKS) none with
  | none => 0
  | some (i, _) => i

/-- The outgoing task in `schedule`. -/
def Task.leave (t : Task) : Task :=
  { t with
    state := if t.state = .running then .ready else t.state
    ticks := if t.ticks = 0 then t.priority else t.ticks }

/-- `schedule`. -/
def schedule (s : State) : Except Stop State :=
  match s.table s.current with
  | none => .error .fault
  | some current =>
    let n := taskSearch s
    let s := s.setTask s.current current.leave
    match s.table n with
    | none => .error .fault
    | some next => .ok { s.setTask n { next with state := .running } with current := n }

/-! ## 3. Blocking and sleeping -/

/-- `task_block`. -/
def taskBlock (s : State) (p : Nat) (blist : ListId) (state : TaskState) : Except Stop State :=
  match s.table p with
  | none => .error .fault
  | some task => do
    assert (task.node = none)
    assert (p ∉ s.lists blist)
    let s := s.setList blist (p :: s.lists blist)
    assert (state ≠ .ready ∧ state ≠ .running)
    let s := s.setTask p { task with state := state, node := some blist }
    if s.current = p then schedule s else return s

/-- `task_unblock`: `list_remove` asserts that the node is linked. -/
def taskUnblock (s : State) (p : Nat) : Except Stop State :=
  match s.table p with
  | none => .error .fault
  | some task =>
    match task.node with
    | none => .error .assertion
    | some l =>
      let s := s.setList l ((s.lists l).erase p)
      .ok (s.setTask p { task with state := .ready, node := none })

/-- `task_yield`. -/
def taskYield (s : State) : Except Stop State := schedule s

/-- The key of a task in the `sleep_list`, an `int`. -/
def key (s : State) (p : Nat) : Int :=
  match s.table p with
  | none => 0
  | some task => task.ticks.toInt

/-- `list_insert_sort`: in front of the first node with a greater key. -/
def listInsertSort (key : Nat → Int) (p : Nat) : List Nat → List Nat
  | [] => [p]
  | ptr :: l => if key ptr > key p then p :: ptr :: l else ptr :: listInsertSort key p l

/-- What `task_sleep` adds to `jiffies`; `jiffy` is 10. -/
def sleepTicks (ms : U32) : U32 := if 0 < ms / 10 then ms / 10 else 1

/-- `task_sleep`. -/
def taskSleep (s : State) (ms : U32) : Except Stop State :=
  match s.table s.current with
  | none => .error .fault
  | some current => do
    let p := s.current
    let current := { current with ticks := s.jiffies + sleepTicks ms }
    let s := s.setTask p current
    let sorted := listInsertSort (key s) p (s.lists .sleep)
    assert (current.node = none)
    let s := s.setList .sleep sorted
    let s := s.setTask p { current with state := .sleeping, node := some .sleep }
    schedule s

/-- The loop of `task_wakeup`: it stops at the first task whose time has not come, by the unsigned
    comparison. -/
def wakeupLoop : List Nat → State → Except Stop State
  | [], s => .ok s
  | p :: l, s =>
    match s.table p with
    | none => .error .fault
    | some task =>
      if s.jiffies < task.ticks then .ok s
      else do
        let s ← taskUnblock (s.setTask p { task with ticks := 0 }) p
        wakeupLoop l s

/-- `task_wakeup`. -/
def taskWakeup (s : State) : Except Stop State := wakeupLoop (s.lists .sleep) s

/-- `clock_handler`. -/
def clockHandler (s : State) : Except Stop State := do
  let s ← taskWakeup s
  let s := { s with jiffies := s.jiffies + 1 }
  match s.table s.current with
  | none => .error .fault
  | some task =>
    let task := { task with jiffies := s.jiffies, ticks := task.ticks - 1 }
    let s := s.setTask s.current task
    if task.ticks = 0 then schedule s else return s

/-! ## 4. `task_fork` -/

/-- `get_free_task`. -/
def getFreeTask (s : State) : Except Stop Nat :=
  match (List.range NR_TASKS).find? fun i => (s.table i).isNone with
  | none => .error .panic
  | some i => .ok i

/-- `task_fork`: the child's page is a copy of the parent's. -/
def taskFork (s : State) : Except Stop State :=
  match s.table s.current with
  | none => .error .fault
  | some task => do
    assert (task.node = none ∧ task.state = .running)
    let pid ← getFreeTask s
    return s.setTask pid { task with ticks := task.priority, state := .ready }

/-- After `task_init` and the first clock interrupt, whose `schedule` leaves the boot stack for
    init: idle, init and test. -/
def taskInit : State where
  table := fun i =>
    if i = 0 then some ⟨.ready, 1, 1, 0, none⟩
    else if i = 1 then some ⟨.running, 5, 5, 0, none⟩
    else if i = 2 then some ⟨.ready, 5, 5, 0, none⟩
    else none
  lists := fun _ => []
  current := 1
  jiffies := 1

/-! ## 5. The invariant -/

/-- The states of a task that is in a list. -/
def TaskState.queued : TaskState → Bool
  | .blocked | .sleeping | .waiting => true
  | .running | .ready | .died => false

structure Linked (s : State) : Prop where
  bound : ∀ i t, s.table i = some t → i < NR_TASKS
  linked : ∀ l i, i ∈ s.lists l ↔ ∃ t, s.table i = some t ∧ t.node = some l
  nodup : ∀ l, (s.lists l).Nodup
  queued : ∀ i t, s.table i = some t → t.node.isSome = t.state.queued
  sleeping : ∀ i t, s.table i = some t → (t.node = some .sleep ↔ t.state = .sleeping)
  idle : ∃ t, s.table 0 = some t ∧ (t.state = .ready ∨ t.state = .running)
  running : ∀ i t, s.table i = some t → t.state = .running → i = s.current
  current : ∃ t, s.table s.current = some t

theorem linked_init : Linked taskInit := by
  have hslot : ∀ i t, taskInit.table i = some t →
      i < 3 ∧ t.node = none ∧ (t.state = .ready ∨ t.state = .running ∧ i = 1) := by
    intro i t h
    unfold taskInit at h
    dsimp only at h
    split at h
    · cases h
      exact ⟨by omega, rfl, .inl rfl⟩
    · split at h
      · next e =>
          cases h
          exact ⟨by omega, rfl, .inr ⟨rfl, e⟩⟩
      · split at h
        · cases h
          exact ⟨by omega, rfl, .inl rfl⟩
        · cases h
  refine ⟨fun i t h => ?_, fun l i => ⟨nofun, ?_⟩, fun l => List.nodup_nil, fun i t h => ?_,
    fun i t h => ?_, ⟨_, rfl, .inl rfl⟩, fun i t h hr => ?_, ⟨_, rfl⟩⟩
  · exact Nat.lt_trans (hslot i t h).1 (by decide)
  · rintro ⟨t, h, hn⟩
    rw [(hslot i t h).2.1] at hn
    cases hn
  · obtain ⟨-, hn, hst | ⟨hst, -⟩⟩ := hslot i t h <;> rw [hn, hst] <;> rfl
  · obtain ⟨-, hn, hst | ⟨hst, -⟩⟩ := hslot i t h <;> rw [hn, hst] <;> exact ⟨nofun, nofun⟩
  · obtain ⟨-, -, hst | ⟨-, e⟩⟩ := hslot i t h
    · rw [hst] at hr
      cases hr
    · exact e

section Change

variable {s s' : State} {p : Nat} {t t' : Task}

/-- The record of task `p` is another one; nothing else happens outside of the lists. -/
structure Changed (s s' : State) (p : Nat) (t t' : Task) : Prop where
  was : s.table p = some t
  table : ∀ j, s'.table j = if j = p then some t' else s.table j
  current : s'.current = s.current

/-- A task not in a list is in none. -/
theorem Linked.unlisted (h : Linked s) (hp : s.table p = some t) (hn : t.node = none) (l : ListId) :
    p ∉ s.lists l := by
  rw [h.linked l p]
  rintro ⟨u, hu, hnode⟩
  cases hp.symm.trans hu
  rw [hn] at hnode
  cases hnode

theorem Linked.listed (h : Linked s) (hp : s.table p = some t) {l : ListId} (hn : t.node = some l) :
    p ∈ s.lists l := (h.linked l p).mpr ⟨t, hp, hn⟩

theorem Linked.change (h : Linked s) (hch : Changed s s' p t t')
    (hlists : ∀ l i, i ∈ s'.lists l ↔ if i = p then t'.node = some l else i ∈ s.lists l)
    (hnodup : ∀ l, (s'.lists l).Nodup) (hqueued : t'.node.isSome = t'.state.queued)
    (hsleeping : t'.node = some .sleep ↔ t'.state = .sleeping)
    (hidle : p = 0 → t'.state = .ready ∨ t'.state = .running)
    (hrunning : t'.state = .running → p = s.current) : Linked s' := by
  have hslot : ∀ i u, s'.table i = some u → (i = p ∧ u = t') ∨ (i ≠ p ∧ s.table i = some u) := by
    intro i u hi
    rw [hch.table] at hi
    split at hi
    · next e => exact .inl ⟨e, (Option.some.inj hi).symm⟩
    · next e => exact .inr ⟨e, hi⟩
  refine ⟨fun i u hi => ?_, fun l i => ?_, hnodup, fun i u hi => ?_, fun i u hi => ?_, ?_,
    fun i u hi hr => ?_, ?_⟩
  · obtain ⟨rfl, -⟩ | ⟨-, hi⟩ := hslot i u hi
    · exact h.bound i t hch.was
    · exact h.bound i u hi
  · rw [hlists l i, hch.table]
    by_cases e : i = p
    · rw [if_pos e, if_pos e]
      exact ⟨fun hn => ⟨t', rfl, hn⟩, fun ⟨u, hu, hn⟩ => Option.some.inj hu ▸ hn⟩
    · rw [if_neg e, if_neg e]
      exact h.linked l i
  · obtain ⟨-, rfl⟩ | ⟨-, hi⟩ := hslot i u hi
    · exact hqueued
    · exact h.queued i u hi
  · obtain ⟨-, rfl⟩ | ⟨-, hi⟩ := hslot i u hi
    · exact hsleeping
    · exact h.sleeping i u hi
  · rw [hch.table]
    by_cases e : 0 = p
    · rw [if_pos e]
      exact ⟨t', rfl, hidle e.symm⟩
    · rw [if_neg e]
      exact h.idle
  · rw [hch.current]
    obtain ⟨rfl, rfl⟩ | ⟨-, hi⟩ := hslot i u hi
    · exact hrunning hr
    · exact h.running i u hi hr
  · rw [hch.current, hch.table]
    split
    · exact ⟨t', rfl⟩
    · exact h.current

/-- A change that leaves the lists, the node and the state. -/
theorem Linked.same (h : Linked s) (hch : Changed s s' p t t') (hlists : s'.lists = s.lists)
    (hnode : t'.node = t.node) (hstate : t'.state = t.state) : Linked s' := by
  refine h.change hch (fun l i => ?_) (fun l => hlists ▸ h.nodup l) ?_ ?_ (fun e => ?_) fun hr => ?_
  · rw [hlists]
    by_cases e : i = p
    · rw [if_pos e, e, hnode, h.linked l p]
      exact ⟨fun ⟨u, hu, hn⟩ => Option.some.inj (hch.was.symm.trans hu) ▸ hn, fun hn => ⟨t, hch.was, hn⟩⟩
    · rw [if_neg e]
  · rw [hnode, hstate]
    exact h.queued p t hch.was
  · rw [hnode, hstate]
    exact h.sleeping p t hch.was
  · obtain ⟨u, hu, hst⟩ := h.idle
    rw [← e, hch.was] at hu
    cases hu
    rw [hstate]
    exact hst
  · exact h.running p t hch.was (hstate ▸ hr)

end Change

/-! ## 6. `schedule` -/

section Schedule

variable {s s' : State} {n : Nat} {t : Task}

theorem searchReady_step {i : Nat} {l : List Nat} {r : Option (Nat × Task)} :
    searchReady s (i :: l) r =
      match s.table i with
      | none => searchReady s l r
      | some ptr =>
        if ptr.state ≠ .ready then searchReady s l r
        else if s.current = i then searchReady s l r
        else match r with
          | none => searchReady s l (some (i, ptr))
          | some (n, task) => searchReady s l (if better task ptr then some (i, ptr) else some (n, task)) := rfl

theorem searchReady_some {l : List Nat} {r : Option (Nat × Task)}
    (h : searchReady s l r = some (n, t)) :
    r = some (n, t) ∨ (s.table n = some t ∧ t.state = .ready ∧ s.current ≠ n) := by
  induction l generalizing r with
  | nil => exact .inl h
  | cons i l ih =>
    rw [searchReady_step] at h
    split at h
    · exact ih h
    · next ptr hp =>
        split at h
        · exact ih h
        · next hready =>
            split at h
            · exact ih h
            · next hcur =>
                split at h
                · rcases ih h with h | h
                  · cases h
                    exact .inr ⟨hp, not_not.mp hready, hcur⟩
                  · exact .inr h
                · next m task =>
                    rcases ih h with h | h
                    · split at h
                      · cases h
                        exact .inr ⟨hp, not_not.mp hready, hcur⟩
                      · exact .inl h
                    · exact .inr h

theorem searchReady_none {l : List Nat} {r : Option (Nat × Task)} (h : searchReady s l r = none) :
    r = none ∧ ∀ i ∈ l, ∀ t, s.table i = some t → t.state = .ready → s.current = i := by
  induction l generalizing r with
  | nil => exact ⟨h, nofun⟩
  | cons i l ih =>
    rw [searchReady_step] at h
    split at h
    · next hn =>
        refine ⟨(ih h).1, fun j hj t ht hr => ?_⟩
        rcases List.mem_cons.mp hj with rfl | hj
        · cases hn.symm.trans ht
        · exact (ih h).2 j hj t ht hr
    · next ptr hp =>
        split at h
        · next hready =>
            refine ⟨(ih h).1, fun j hj t ht hr => ?_⟩
            rcases List.mem_cons.mp hj with rfl | hj
            · cases hp.symm.trans ht
              exact absurd hr hready
            · exact (ih h).2 j hj t ht hr
        · split at h
          · next hcur =>
              refine ⟨(ih h).1, fun j hj t ht hr => ?_⟩
              rcases List.mem_cons.mp hj with rfl | hj
              · exact hcur
              · exact (ih h).2 j hj t ht hr
          · split at h
            · cases (ih h).1
            · split at h <;> cases (ih h).1

/-- **`task_search(TASK_READY)`** answers a ready task but the running one, or idle. -/
theorem taskSearch_cases (s : State) :
    (∃ t, s.table (taskSearch s) = some t ∧ t.state = .ready ∧ s.current ≠ taskSearch s) ∨
      (taskSearch s = 0 ∧
        ∀ i < NR_TASKS, ∀ t, s.table i = some t → t.state = .ready → s.current = i) := by
  unfold taskSearch
  split
  · next h => exact .inr ⟨rfl, fun i hi => (searchReady_none h).2 i (List.mem_range.mpr hi)⟩
  · next i t h =>
      rcases searchReady_some h with h | h
      · cases h
      · exact .inl ⟨t, h⟩

/-- The record of the running task plays no part in the search. -/
theorem searchReady_congr (hc : s'.current = s.current)
    (ht : ∀ i, i ≠ s.current → s'.table i = s.table i) (l : List Nat) (r : Option (Nat × Task)) :
    searchReady s' l r = searchReady s l r := by
  have hskip : ∀ (s : State) i l r, s.current = i → searchReady s (i :: l) r = searchReady s l r := by
    intro s i l r e
    rw [searchReady_step]
    split
    · rfl
    · split <;> rfl
  induction l generalizing r with
  | nil => rfl
  | cons i l ih =>
    by_cases e : i = s.current
    · rw [hskip s' i l r (hc.trans e.symm), hskip s i l r e.symm, ih]
    · rw [searchReady_step, searchReady_step]
      simp only [ht i e, hc, ih]

theorem taskSearch_congr (hc : s'.current = s.current)
    (ht : ∀ i, i ≠ s.current → s'.table i = s.table i) : taskSearch s' = taskSearch s := by
  unfold taskSearch
  rw [searchReady_congr hc ht]

/-- What `schedule` does to the task in slot `j`. -/
def switched (s : State) (j : Nat) (t : Task) : Task :=
  let t := if j = s.current then t.leave else t
  if j = taskSearch s then { t with state := .running } else t

/-- The switch. -/
structure Switched (s s' : State) : Prop where
  table : ∀ j, s'.table j = (s.table j).map (switched s j)
  current : s'.current = taskSearch s
  lists : s'.lists = s.lists
  jiffies : s'.jiffies = s.jiffies

theorem Linked.search (h : Linked s) : ∃ t, s.table (taskSearch s) = some t ∧
    (t.state = .ready ∨ t.state = .running) := by
  obtain ⟨t, ht, hr, -⟩ | ⟨h0, -⟩ := taskSearch_cases s
  · exact ⟨t, ht, .inl hr⟩
  · rw [h0]
    exact h.idle

/-- **Only a ready task is switched to**, or idle to itself. -/
theorem Linked.target (h : Linked s) : ∃ t, s.table (taskSearch s) = some t ∧
    (t.state = .ready ∨ (taskSearch s = 0 ∧ s.current = 0)) := by
  obtain ⟨t, ht, hr, -⟩ | ⟨h0, hnone⟩ := taskSearch_cases s
  · exact ⟨t, ht, .inl hr⟩
  · obtain ⟨t, ht, hst⟩ := h.idle
    refine ⟨t, h0 ▸ ht, .inr ⟨h0, ?_⟩⟩
    rcases hst with hr | hr
    · exact hnone 0 (by decide) t ht hr
    · exact (h.running 0 t ht hr).symm

theorem schedule_switched (h : Linked s) : ∃ s', schedule s = .ok s' ∧ Switched s s' := by
  obtain ⟨c, hc⟩ := h.current
  obtain ⟨t, ht, -⟩ := h.search
  obtain ⟨next, hn⟩ : ∃ next, next = if taskSearch s = s.current then c.leave else t := ⟨_, rfl⟩
  have hnext : (s.setTask s.current c.leave).table (taskSearch s) = some next := by
    rw [State.table_setTask, hn]
    split
    · rfl
    · exact ht
  refine ⟨{ (s.setTask s.current c.leave).setTask (taskSearch s) { next with state := .running } with
    current := taskSearch s }, ?_, fun j => ?_, rfl, rfl, rfl⟩
  · unfold schedule
    rw [hc]
    dsimp only
    rw [hnext]
  · show ((s.setTask s.current c.leave).setTask (taskSearch s) _).table j = _
    rw [State.table_setTask, State.table_setTask]
    unfold switched
    by_cases hj : j = taskSearch s
    · rw [if_pos hj, hj, ht, hn]
      by_cases e : taskSearch s = s.current
      · cases hc.symm.trans (e ▸ ht)
        simp [e]
      · simp [e]
    · rw [if_neg hj]
      by_cases e : j = s.current
      · rw [if_pos e, e, hc]
        rw [e] at hj
        simp [hj]
      · rw [if_neg e]
        simp [hj, e]

@[simp] theorem leave_node : t.leave.node = t.node := rfl

theorem leave_queued : t.leave.state.queued = t.state.queued := by
  unfold Task.leave
  dsimp only
  split
  · next e => rw [e]; rfl
  · rfl

theorem leave_state (h : t.state ≠ .running) : t.leave.state = t.state := if_neg h

theorem leave_stops : t.leave.state ≠ .running := by
  unfold Task.leave
  dsimp only
  split
  · nofun
  · assumption

theorem switched_node (s : State) (j : Nat) (t : Task) : (switched s j t).node = t.node := by
  unfold switched
  dsimp only
  split <;> split <;> rfl

theorem switched_priority (s : State) (j : Nat) (t : Task) : (switched s j t).priority = t.priority := by
  unfold switched
  dsimp only
  split <;> split <;> rfl

theorem Switched.slot (h : Switched s s') {j : Nat} {u : Task} (hj : s'.table j = some u) :
    ∃ v, s.table j = some v ∧ u = switched s j v := by
  rw [h.table] at hj
  obtain ⟨v, hv, rfl⟩ := Option.map_eq_some_iff.mp hj
  exact ⟨v, hv, rfl⟩

/-- The task switched to runs, the task switched from does not. -/
theorem Switched.state (h : Switched s s') (hs : Linked s) {j : Nat} {u : Task}
    (hj : s'.table j = some u) : ∃ v, s.table j = some v ∧ u.node = v.node ∧
      u.state.queued = v.state.queued ∧ (u.state = .sleeping ↔ v.state = .sleeping) ∧
      (u.state = .running ↔ j = taskSearch s) ∧ (u.state = .died ↔ v.state = .died) := by
  obtain ⟨v, hv, rfl⟩ := h.slot hj
  refine ⟨v, hv, switched_node s j v, ?_⟩
  unfold switched
  dsimp only
  by_cases e : j = taskSearch s
  · obtain ⟨w, hw, hst⟩ := hs.search
    rw [← e, hv] at hw
    cases hw
    rw [if_pos e]
    rcases hst with hst | hst <;> simp [hst, e, TaskState.queued]
  · rw [if_neg e]
    split
    · next ec =>
        refine ⟨leave_queued, ?_, iff_of_false leave_stops e, ?_⟩
        all_goals
          by_cases hr : v.state = .running
          · simp [Task.leave, hr]
          · rw [leave_state hr]
    · next ec => exact ⟨rfl, Iff.rfl, iff_of_false (fun hr => ec (hs.running j v hv hr)) e, Iff.rfl⟩

theorem Switched.linked (h : Switched s s') (hs : Linked s) : Linked s' := by
  have hkeep : ∀ j, (∃ v, s.table j = some v) → ∃ u, s'.table j = some u := fun j ⟨v, hv⟩ =>
    ⟨switched s j v, by rw [h.table, hv]; rfl⟩
  obtain ⟨n, hn, -⟩ := hs.search
  refine ⟨fun i u hi => ?_, fun l i => ?_, fun l => h.lists ▸ hs.nodup l, fun i u hi => ?_,
    fun i u hi => ?_, ?_, fun i u hi hr => ?_, ?_⟩
  · obtain ⟨v, hv, -⟩ := h.slot hi
    exact hs.bound i v hv
  · rw [h.lists, hs.linked l i, h.table]
    constructor
    · rintro ⟨v, hv, hnode⟩
      exact ⟨switched s i v, by rw [hv]; rfl, (switched_node s i v).trans hnode⟩
    · rintro ⟨u, hu, hnode⟩
      obtain ⟨v, hv, rfl⟩ := Option.map_eq_some_iff.mp hu
      exact ⟨v, hv, (switched_node s i v).symm.trans hnode⟩
  · obtain ⟨v, hv, hnode, hq, -⟩ := h.state hs hi
    rw [hnode, hq]
    exact hs.queued i v hv
  · obtain ⟨v, hv, hnode, -, hsl, -⟩ := h.state hs hi
    rw [hnode, hsl]
    exact hs.sleeping i v hv
  · obtain ⟨v, hv, hst⟩ := hs.idle
    refine ⟨switched s 0 v, by rw [h.table, hv]; rfl, ?_⟩
    unfold switched Task.leave
    rcases hst with hst | hst <;> simp only [hst] <;> split <;> split <;> simp_all
  · rw [h.current]
    obtain ⟨v, -, -, -, -, hr', -⟩ := h.state hs hi
    exact hr'.mp hr
  · rw [h.current]
    exact hkeep _ ⟨n, hn⟩

/-- Who runs after the switch. -/
theorem Switched.runs (h : Switched s s') (hs : Linked s) :
    ∃ t, s'.table s'.current = some t ∧ t.state = .running ∧ t.node = none := by
  obtain ⟨v, hv, hst⟩ := hs.search
  have hu : s'.table (taskSearch s) = some (switched s (taskSearch s) v) := by
    rw [h.table, hv]
    rfl
  refine ⟨_, h.current ▸ hu, ?_, ?_⟩
  · rw [h.current]
    unfold switched
    simp
  · rw [switched_node]
    have hq := hs.queued _ v hv
    rcases hst with hst | hst <;> rw [hst] at hq <;>
      exact Option.isNone_iff_eq_none.mp (Option.isSome_eq_false_iff.mp hq)

end Schedule

/-! ## 7. The calls -/

section Calls

variable {s s' : State} {p : Nat} {t : Task} {l : ListId}

/-- **`task_block`** of the running task, up to the switch. -/
theorem taskBlock_spec (h : Linked s) (hp : s.table s.current = some t) (hn : t.node = none)
    (h0 : s.current ≠ 0) (hl : l ≠ .sleep) {st : TaskState} (hst : st = .blocked ∨ st = .waiting) :
    ∃ s₁, taskBlock s s.current l st = schedule s₁ ∧
      Changed s s₁ s.current t { t with state := st, node := some l } ∧
      (∀ k, s₁.lists k = if k = l then s.current :: s.lists l else s.lists k) ∧
      s₁.jiffies = s.jiffies ∧ Linked s₁ := by
  have hfree := h.unlisted hp hn
  have hch : Changed s ((s.setList l (s.current :: s.lists l)).setTask s.current
      { t with state := st, node := some l }) s.current t { t with state := st, node := some l } :=
    ⟨hp, fun j => State.table_setTask _ _ j _, rfl⟩
  have hlists : ∀ k, ((s.setList l (s.current :: s.lists l)).setTask s.current
      { t with state := st, node := some l }).lists k =
        if k = l then s.current :: s.lists l else s.lists k := fun k => State.lists_setList ..
  refine ⟨_, ?_, hch, hlists, rfl, h.change hch (fun k i => ?_) (fun k => ?_) ?_ ?_
    (fun e => absurd e h0) fun _ => rfl⟩
  · unfold taskBlock
    rw [hp]
    have hstate : st ≠ .ready ∧ st ≠ .running := by
      rcases hst with rfl | rfl <;> exact ⟨nofun, nofun⟩
    simp only [hn, hfree l, not_false_eq_true, hstate, ne_eq, and_self, decide_true]
    exact if_pos rfl
  · rw [hlists]
    by_cases e : k = l
    · rw [if_pos e, e, List.mem_cons]
      by_cases ei : i = s.current
      · simp [ei]
      · simp [ei]
    · rw [if_neg e]
      by_cases ei : i = s.current
      · simp [ei, hfree k, Ne.symm e]
      · simp [ei]
  · rw [hlists]
    split
    · exact List.nodup_cons.mpr ⟨hfree l, h.nodup l⟩
    · exact h.nodup k
  · rcases hst with rfl | rfl <;> rfl
  · rcases hst with rfl | rfl <;> simp [hl]

/-- **`task_unblock`** of a task in a list. -/
theorem taskUnblock_spec (h : Linked s) (hp : s.table p = some t) (hn : t.node = some l) :
    ∃ s', taskUnblock s p = .ok s' ∧ Changed s s' p t { t with state := .ready, node := none } ∧
      (∀ k, s'.lists k = if k = l then (s.lists l).erase p else s.lists k) ∧
      s'.jiffies = s.jiffies ∧ Linked s' := by
  have hch : Changed s ((s.setList l ((s.lists l).erase p)).setTask p
      { t with state := .ready, node := none }) p t { t with state := .ready, node := none } :=
    ⟨hp, fun j => State.table_setTask _ _ j _, rfl⟩
  have hlists : ∀ k, ((s.setList l ((s.lists l).erase p)).setTask p
      { t with state := .ready, node := none }).lists k =
        if k = l then (s.lists l).erase p else s.lists k := fun k => State.lists_setList ..
  refine ⟨_, ?_, hch, hlists, rfl, h.change hch (fun k i => ?_) (fun k => ?_) rfl ?_
    (fun _ => .inl rfl) nofun⟩
  · unfold taskUnblock
    rw [hp]
    simp only [hn]
  · rw [hlists]
    by_cases e : k = l
    · rw [if_pos e, e, (h.nodup l).mem_erase_iff]
      by_cases ei : i = p
      · simp [ei]
      · simp [ei]
    · rw [if_neg e]
      by_cases ei : i = p
      · rw [if_pos ei, ei, h.linked k p]
        refine iff_of_false (fun ⟨u, hu, hk⟩ => ?_) nofun
        cases hp.symm.trans hu
        exact e (Option.some.inj (hk.symm.trans hn))
      · rw [if_neg ei]
  · rw [hlists]
    split
    · exact (h.nodup l).erase p
    · exact h.nodup k
  · exact ⟨nofun, nofun⟩

/-- It asserts that the task is in a list. -/
theorem taskUnblock_linked (h : Linked s) (hs : taskUnblock s p = .ok s') :
    ∃ t l, s.table p = some t ∧ t.node = some l ∧
      Changed s s' p t { t with state := .ready, node := none } ∧ Linked s' := by
  obtain ⟨t, l, hp, hn⟩ : ∃ t l, s.table p = some t ∧ t.node = some l := by
    unfold taskUnblock at hs
    split at hs
    · cases hs
    · next t hp =>
        split at hs
        · cases hs
        · next l hn => exact ⟨t, l, hp, hn⟩
  obtain ⟨s₁, hrun, hch, -, -, hl⟩ := taskUnblock_spec h hp hn
  cases hrun.symm.trans hs
  exact ⟨t, l, hp, hn, hch, hl⟩

theorem mem_listInsertSort {key : Nat → Int} {i : Nat} (ps : List Nat) :
    i ∈ listInsertSort key p ps ↔ i = p ∨ i ∈ ps := by
  induction ps with
  | nil => simp [listInsertSort]
  | cons q ps ih =>
    unfold listInsertSort
    split
    · exact List.mem_cons
    · rw [List.mem_cons, ih, List.mem_cons]
      exact or_left_comm

theorem nodup_listInsertSort {key : Nat → Int} {ps : List Nat} (h : ps.Nodup) (hp : p ∉ ps) :
    (listInsertSort key p ps).Nodup := by
  induction ps with
  | nil => exact List.nodup_singleton p
  | cons q ps ih =>
    obtain ⟨hne, hps⟩ := not_or.mp fun h' => hp (List.mem_cons.mpr h')
    obtain ⟨hq, hn⟩ := List.nodup_cons.mp h
    unfold listInsertSort
    split
    · exact List.nodup_cons.mpr ⟨hp, h⟩
    · refine List.nodup_cons.mpr ⟨?_, ih hn hps⟩
      rw [mem_listInsertSort]
      exact not_or.mpr ⟨Ne.symm hne, hq⟩

/-- The state in which `task_sleep` looks for the place in the list. -/
def asleep (s : State) (t : Task) (ms : U32) : State :=
  s.setTask s.current { t with ticks := s.jiffies + sleepTicks ms }

/-- **`task_sleep`**, up to the switch. -/
theorem taskSleep_spec (h : Linked s) (hp : s.table s.current = some t) (hn : t.node = none)
    (h0 : s.current ≠ 0) (ms : U32) :
    ∃ s₁, taskSleep s ms = schedule s₁ ∧
      Changed s s₁ s.current t { t with
        ticks := s.jiffies + sleepTicks ms, state := .sleeping, node := some .sleep } ∧
      (∀ k, s₁.lists k = if k = .sleep then
        listInsertSort (key (asleep s t ms)) s.current (s.lists .sleep) else s.lists k) ∧
      s₁.jiffies = s.jiffies ∧ Linked s₁ := by
  have hfree := h.unlisted hp hn
  obtain ⟨sorted, hsorted⟩ : ∃ sorted, sorted =
      listInsertSort (key (asleep s t ms)) s.current (s.lists .sleep) := ⟨_, rfl⟩
  obtain ⟨t', ht'⟩ : ∃ t', t' = { t with
    ticks := s.jiffies + sleepTicks ms, state := .sleeping, node := some .sleep } := ⟨_, rfl⟩
  have hch : Changed s (((asleep s t ms).setList .sleep sorted).setTask s.current t') s.current t t' := by
    refine ⟨hp, fun j => ?_, rfl⟩
    rw [State.table_setTask]
    split
    · rfl
    · next e => exact (State.table_setTask ..).trans (if_neg e)
  have hlists : ∀ k, (((asleep s t ms).setList .sleep sorted).setTask s.current t').lists k =
      if k = .sleep then sorted else s.lists k := fun k => State.lists_setList ..
  rw [← ht', ← hsorted]
  refine ⟨_, ?_, hch, hlists, rfl, h.change hch (fun k i => ?_) (fun k => ?_) (by rw [ht']; rfl)
    (by rw [ht']; exact iff_of_true rfl rfl) (fun e => absurd e h0) fun _ => rfl⟩
  · unfold taskSleep
    rw [hp, hsorted, ht']
    have hassert : assert (t.node = none) = .ok () := by
      rw [hn]
      rfl
    show (assert (t.node = none)).bind _ = _
    rw [hassert]
    rfl
  · rw [hlists, ht']
    by_cases e : k = .sleep
    · rw [if_pos e, e, hsorted, mem_listInsertSort]
      by_cases ei : i = s.current
      · simp [ei]
      · simp [ei]
    · rw [if_neg e]
      by_cases ei : i = s.current
      · simp [ei, hfree k, Ne.symm e]
      · simp [ei]
  · rw [hlists]
    split
    · exact hsorted ▸ nodup_listInsertSort (h.nodup .sleep) (hfree .sleep)
    · exact h.nodup k

end Calls

/-! ## 8. The clock -/

section Clock

variable {s s' : State} {p : Nat} {t : Task} {w rest : List Nat}

/-- A sleeper is woken. -/
def Task.wake (t : Task) : Task := { t with ticks := 0, state := .ready, node := none }

/-- What `task_wakeup` does: the first tasks of the `sleep_list`, `w`, are woken. -/
structure Woken (s s' : State) (w rest : List Nat) : Prop where
  split : s.lists .sleep = w ++ rest
  expired : ∀ p ∈ w, ∃ t, s.table p = some t ∧ ¬ s.jiffies < t.ticks
  next : ∀ p, rest.head? = some p → ∃ t, s.table p = some t ∧ s.jiffies < t.ticks
  table : ∀ j, s'.table j = if j ∈ w then (s.table j).map Task.wake else s.table j
  sleep : s'.lists .sleep = rest
  lists : ∀ k, k ≠ .sleep → s'.lists k = s.lists k
  current : s'.current = s.current
  jiffies : s'.jiffies = s.jiffies

/-- One more in front. -/
theorem Woken.cons {s₁ : State} (h : Woken s₁ s' w rest) (hp : s.table p = some t)
    (hover : ¬ s.jiffies < t.ticks) (hsleep : s.lists .sleep = p :: s₁.lists .sleep)
    (htable : ∀ j, s₁.table j = if j = p then some t.wake else s.table j)
    (hlists : ∀ k, k ≠ .sleep → s₁.lists k = s.lists k) (hcur : s₁.current = s.current)
    (hj : s₁.jiffies = s.jiffies) (hnodup : (s.lists .sleep).Nodup) : Woken s s' (p :: w) rest := by
  have hpw : p ∉ w ++ rest := by
    rw [hsleep, h.split] at hnodup
    exact (List.nodup_cons.mp hnodup).1
  have hold : ∀ q u, q ∈ w ++ rest → s₁.table q = some u → s.table q = some u := by
    intro q u hq hu
    have e : q ≠ p := by
      rintro rfl
      exact hpw hq
    rw [htable, if_neg e] at hu
    exact hu
  refine ⟨by rw [hsleep, h.split]; rfl, fun q hq => ?_, fun q hq => ?_, fun j => ?_, h.sleep,
    fun k hk => (h.lists k hk).trans (hlists k hk), h.current.trans hcur, h.jiffies.trans hj⟩
  · rcases List.mem_cons.mp hq with rfl | hq
    · exact ⟨t, hp, hover⟩
    · obtain ⟨u, hu, hle⟩ := h.expired q hq
      exact ⟨u, hold q u (List.mem_append_left _ hq) hu, hj ▸ hle⟩
  · obtain ⟨u, hu, hlt⟩ := h.next q hq
    exact ⟨u, hold q u (List.mem_append_right _ (List.mem_of_head? hq)) hu, hj ▸ hlt⟩
  · rw [h.table, htable]
    by_cases e : j = p
    · rw [if_pos e, if_pos (List.mem_cons.mpr (.inl e)), e, hp,
        if_neg fun hm => hpw (List.mem_append_left _ hm)]
      rfl
    · rw [if_neg e]
      exact if_congr (by simp [e]) rfl rfl

theorem wakeupLoop_spec (ps : List Nat) (s : State) (h : Linked s) (hps : s.lists .sleep = ps) :
    ∃ s' w rest, wakeupLoop ps s = .ok s' ∧ Woken s s' w rest ∧ Linked s' := by
  induction ps generalizing s with
  | nil =>
    exact ⟨s, [], [], rfl, ⟨hps, nofun, nofun, fun j => rfl, hps, fun k _ => rfl, rfl, rfl⟩, h⟩
  | cons p ps ih =>
    obtain ⟨t, hp, hn⟩ := (h.linked .sleep p).mp (hps ▸ List.mem_cons_self)
    unfold wakeupLoop
    rw [hp]
    dsimp only
    split
    · next hlt =>
        exact ⟨s, [], p :: ps, rfl, ⟨hps, nofun, fun q hq => ⟨t, Option.some.inj hq ▸ hp, hlt⟩,
          fun j => rfl, hps, fun k _ => rfl, rfl, rfl⟩, h⟩
    · next hover =>
        have hch : Changed s (s.setTask p { t with ticks := 0 }) p t { t with ticks := 0 } :=
          ⟨hp, fun j => State.table_setTask _ _ j _, rfl⟩
        have h₀ := h.same hch rfl rfl rfl
        obtain ⟨s₁, hun, hch₁, hlists, hj, h₁⟩ := taskUnblock_spec h₀ ((hch.table p).trans (if_pos rfl)) hn
        have hps₁ : s₁.lists .sleep = ps := by
          rw [hlists, if_pos rfl]
          show (s.lists .sleep).erase p = ps
          rw [hps, List.erase_cons_head]
        obtain ⟨s', w, rest, hrun, hw, h'⟩ := ih s₁ h₁ hps₁
        refine ⟨s', p :: w, rest, ?_, hw.cons hp hover (by rw [hps, hps₁]) (fun j => ?_)
          (fun k hk => (hlists k).trans (if_neg hk)) hch₁.current hj (h.nodup .sleep), h'⟩
        · rw [hun]
          exact hrun
        · rw [hch₁.table, hch.table]
          split <;> rfl

/-- **`task_wakeup`.** -/
theorem taskWakeup_spec (h : Linked s) :
    ∃ s' w rest, taskWakeup s = .ok s' ∧ Woken s s' w rest ∧ Linked s' :=
  wakeupLoop_spec (s.lists .sleep) s h rfl

/-- The tick of the running task. -/
def Task.tick (t : Task) (jiffies : U32) : Task := { t with jiffies := jiffies, ticks := t.ticks - 1 }

/-- **`clock_handler`**: the sleepers, the running task, the switch. -/
theorem clockHandler_spec (h : Linked s) (hp : s.table s.current = some t) (hn : t.node = none) :
    ∃ s₁ s₂ w rest, taskWakeup s = .ok s₁ ∧ Woken s s₁ w rest ∧ Linked s₁ ∧
      Changed s₁ s₂ s.current t (t.tick (s.jiffies + 1)) ∧ s₂.lists = s₁.lists ∧
      s₂.jiffies = s.jiffies + 1 ∧ Linked s₂ ∧
      clockHandler s = if t.ticks - 1 = 0 then schedule s₂ else .ok s₂ := by
  obtain ⟨s₁, w, rest, hrun, hw, h₁⟩ := taskWakeup_spec h
  have hp₁ : s₁.table s.current = some t := by
    rw [hw.table, if_neg, hp]
    intro hm
    refine h.unlisted hp hn .sleep ?_
    rw [hw.split]
    exact List.mem_append_left _ hm
  have hch : Changed s₁ ({ s₁ with jiffies := s₁.jiffies + 1 }.setTask s.current
      (t.tick (s.jiffies + 1))) s.current t (t.tick (s.jiffies + 1)) :=
    ⟨hp₁, fun j => State.table_setTask _ _ j _, rfl⟩
  refine ⟨s₁, _, w, rest, hrun, hw, h₁, hch, rfl, ?_, h₁.same hch rfl rfl rfl, ?_⟩
  · show s₁.jiffies + 1 = _
    rw [hw.jiffies]
  · unfold clockHandler
    rw [hrun]
    show (match s₁.table s₁.current with | none => _ | some task => _) = _
    rw [hw.current, hp₁, hw.jiffies]
    rfl

end Clock

/-! ## 9. `task_fork` -/

section Fork

variable {s : State} {n : Nat} {t : Task}

theorem getFreeTask_ok (h : getFreeTask s = .ok n) : n < NR_TASKS ∧ s.table n = none := by
  unfold getFreeTask at h
  split at h
  · cases h
  · next hf =>
      cases h
      exact ⟨List.mem_range.mp (List.mem_of_find?_eq_some hf), by simpa using List.find?_some hf⟩

theorem getFreeTask_error {e : Stop} (h : getFreeTask s = .error e) :
    e = .panic ∧ ∀ i < NR_TASKS, s.table i ≠ none := by
  unfold getFreeTask at h
  split at h
  · next hf =>
      cases h
      refine ⟨rfl, fun i hi hn => ?_⟩
      have := List.find?_eq_none.mp hf i (List.mem_range.mpr hi)
      rw [hn] at this
      exact this rfl
  · cases h

/-- A dead task leaves its slot. -/
theorem Linked.reap (h : Linked s) (hp : s.table n = some t) (hd : t.state = .died)
    (hne : s.current ≠ n) (h0 : n ≠ 0) :
    Linked { s with table := Function.update s.table n none } := by
  have hslot : ∀ i u, Function.update s.table n none i = some u → i ≠ n ∧ s.table i = some u := by
    intro i u hi
    rw [Function.update_apply] at hi
    split at hi
    · cases hi
    · next e => exact ⟨e, hi⟩
  have hkeep : ∀ i u, i ≠ n → s.table i = some u → Function.update s.table n none i = some u :=
    fun i u e hi => (Function.update_of_ne e _ _).trans hi
  have hnode : t.node = none := by
    have hq := h.queued n t hp
    rw [hd] at hq
    exact Option.isNone_iff_eq_none.mp (Option.isSome_eq_false_iff.mp hq)
  obtain ⟨u₀, hu₀, hst₀⟩ := h.idle
  obtain ⟨c, hc⟩ := h.current
  refine ⟨fun i u hi => h.bound i u (hslot i u hi).2, fun l i => ?_, h.nodup,
    fun i u hi => h.queued i u (hslot i u hi).2, fun i u hi => h.sleeping i u (hslot i u hi).2,
    ⟨u₀, hkeep 0 u₀ (Ne.symm h0) hu₀, hst₀⟩, fun i u hi => h.running i u (hslot i u hi).2,
    ⟨c, hkeep _ c hne hc⟩⟩
  refine (h.linked l i).trans ⟨fun ⟨u, hu, hl⟩ => ⟨u, hkeep i u ?_ hu, hl⟩, fun ⟨u, hu, hl⟩ =>
    ⟨u, (hslot i u hu).2, hl⟩⟩
  rintro rfl
  cases hp.symm.trans hu
  cases hnode.symm.trans hl

/-- A ready task in no list is born. -/
theorem Linked.birth (h : Linked s) (hn : s.table n = none) (hlt : n < NR_TASKS)
    (hnode : t.node = none) (hready : t.state = .ready) : Linked (s.setTask n t) := by
  have hslot : ∀ i u, (s.setTask n t).table i = some u → (i = n ∧ u = t) ∨ s.table i = some u := by
    intro i u hi
    rw [State.table_setTask] at hi
    split at hi
    · next e => exact .inl ⟨e, (Option.some.inj hi).symm⟩
    · exact .inr hi
  have hkeep : ∀ i u, s.table i = some u → (s.setTask n t).table i = some u := by
    intro i u hi
    rw [State.table_setTask, if_neg, hi]
    rintro rfl
    cases hn.symm.trans hi
  obtain ⟨u₀, hu₀, hst₀⟩ := h.idle
  obtain ⟨c, hc⟩ := h.current
  refine ⟨fun i u hi => ?_, fun l i => ?_, h.nodup, fun i u hi => ?_, fun i u hi => ?_,
    ⟨u₀, hkeep 0 u₀ hu₀, hst₀⟩, fun i u hi hr => ?_, ⟨c, hkeep _ c hc⟩⟩
  · obtain ⟨rfl, -⟩ | hi := hslot i u hi
    · exact hlt
    · exact h.bound i u hi
  · rw [State.lists_setTask, h.linked l i]
    constructor
    · exact fun ⟨u, hu, hl⟩ => ⟨u, hkeep i u hu, hl⟩
    · rintro ⟨u, hu, hl⟩
      obtain ⟨-, rfl⟩ | hi := hslot i u hu
      · rw [hnode] at hl
        cases hl
      · exact ⟨u, hi, hl⟩
  · obtain ⟨-, rfl⟩ | hi := hslot i u hi
    · rw [hnode, hready]
      rfl
    · exact h.queued i u hi
  · obtain ⟨-, rfl⟩ | hi := hslot i u hi
    · rw [hnode, hready]
      exact ⟨nofun, nofun⟩
    · exact h.sleeping i u hi
  · obtain ⟨-, rfl⟩ | hi := hslot i u hi
    · rw [hready] at hr
      cases hr
    · exact h.running i u hi hr

/-- **`task_fork`**: a child in a free slot, or a panic where there is none. -/
theorem taskFork_spec (h : Linked s) (hp : s.table s.current = some t) (hn : t.node = none)
    (hr : t.state = .running) :
    (∃ n, getFreeTask s = .ok n ∧ s.table n = none ∧
      taskFork s = .ok (s.setTask n { t with ticks := t.priority, state := .ready }) ∧
      Linked (s.setTask n { t with ticks := t.priority, state := .ready })) ∨
    (taskFork s = .error .panic ∧ ∀ i < NR_TASKS, s.table i ≠ none) := by
  have hrun : taskFork s = (getFreeTask s).bind fun n =>
      .ok (s.setTask n { t with ticks := t.priority, state := .ready }) := by
    have hassert : assert (t.node = none ∧ t.state = .running) = .ok () := by
      rw [hn, hr]
      rfl
    unfold taskFork
    rw [hp]
    show (assert (t.node = none ∧ t.state = .running)).bind _ = _
    rw [hassert]
    rfl
  rw [hrun]
  cases hfree : getFreeTask s with
  | error e =>
    obtain ⟨rfl, hfull⟩ := getFreeTask_error hfree
    exact .inr ⟨rfl, hfull⟩
  | ok n =>
    obtain ⟨hlt, hnone⟩ := getFreeTask_ok hfree
    exact .inl ⟨n, rfl, hnone, rfl, h.birth hnone hlt hn rfl⟩

end Fork

/-! ## 10. Steps -/

/-- What can happen: a clock interrupt, or a call of the running task or an interrupt handler. -/
inductive Action where
  | tick
  | yield
  | sleep (ms : U32)
  | block (blist : ListId) (state : TaskState)
  | unblock (p : Nat)
  | fork
  deriving DecidableEq

/-- Idle, task 0, only halts and yields. Only `task_wakeup` takes a task out of the `sleep_list`. -/
def Enabled (s : State) : Action → Prop
  | .tick | .yield | .fork => True
  | .sleep _ => s.current ≠ 0
  | .block blist state => s.current ≠ 0 ∧ blist ≠ .sleep ∧ (state = .blocked ∨ state = .waiting)
  | .unblock p => ∃ t l, s.table p = some t ∧ t.node = some l ∧ l ≠ .sleep

/-- The action, up to where a task runs outside of these functions. -/
def act (s : State) : Action → Except Stop State
  | .tick => clockHandler s
  | .yield => taskYield s
  | .sleep ms => taskSleep s ms
  | .block blist state => taskBlock s s.current blist state
  | .unblock p => taskUnblock s p
  | .fork => taskFork s

end Yuios.Sched
