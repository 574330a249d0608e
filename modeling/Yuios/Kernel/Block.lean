/-
  File:      Yuios/Kernel/Block.lean
  Subject:   PUTTING TASKS TO SLEEP: `task_block` and `task_unblock` of `kernel/task.c` with the
             default list, which pipes and disk requests use.

  * The node of a task is linked into `block_list` or into no list: both of its pointers are NULL
    exactly when it is not in the list.
  * `Scheduler.Fair` -- the invariant: the tasks in the list, each once, are those that may not run.
-/
import Mathlib.Logic.Function.Basic
import Mathlib.Data.List.Nodup
import Yuios.Base

namespace Yuios.Kernel

/-- `assert(c)`. -/
def assert (c : Bool) : Except Stop Unit := if c then .ok () else .error .assertion

@[simp] theorem assert_true : assert true = .ok () := rfl

@[simp] theorem assert_false : assert false = .error .assertion := rfl

/-- What ran past an assertion. -/
theorem of_assert {c : Bool} {α : Type} {x : Except Stop α} {r : α}
    (h : (assert c >>= fun _ => x) = .ok r) : c = true ∧ x = .ok r := by
  cases c with
  | true => exact ⟨rfl, h⟩
  | false => cases h

/-- `block_list`, head first, and the tasks in state `TASK_READY` or `TASK_RUNNING`. -/
structure Scheduler where
  blockList : List Nat
  ready : Nat → Bool

namespace Scheduler

/-- No task sleeps. -/
def init : Scheduler := ⟨[], fun _ => true⟩

/-- `task_block(task, NULL, TASK_BLOCKED)` by the running task. -/
def taskBlock (S : Scheduler) (t : Nat) : Except Stop Scheduler := do
  assert (t ∉ S.blockList)
  return { blockList := t :: S.blockList, ready := Function.update S.ready t false }

/-- `task_unblock`: `list_remove` asserts that the node is linked. -/
def taskUnblock (S : Scheduler) (t : Nat) : Except Stop Scheduler := do
  assert (t ∈ S.blockList)
  return { blockList := S.blockList.erase t, ready := Function.update S.ready t true }

/-- **The tasks in the list, each once, are those that may not run.** -/
structure Fair (S : Scheduler) : Prop where
  nodup : S.blockList.Nodup
  ready : ∀ t, S.ready t = true ↔ t ∉ S.blockList

theorem fair_init : init.Fair := ⟨List.nodup_nil, fun _ => by simp [init]⟩

/-- A task that runs falls asleep. -/
theorem taskBlock_ok {S : Scheduler} (h : S.Fair) {t : Nat} (ht : t ∉ S.blockList) :
    ∃ S', S.taskBlock t = .ok S' ∧ S'.Fair ∧ S'.blockList = t :: S.blockList := by
  refine ⟨⟨t :: S.blockList, Function.update S.ready t false⟩, ?_, ?_, rfl⟩
  · simp only [taskBlock, ht, not_false_eq_true, decide_true]
    rfl
  · refine ⟨List.nodup_cons.mpr ⟨ht, h.nodup⟩, fun u => ?_⟩
    by_cases e : u = t
    · simp [e]
    · simp [e, h.ready u]

/-- A task that sleeps is woken. -/
theorem taskUnblock_ok {S : Scheduler} (h : S.Fair) {t : Nat} (ht : t ∈ S.blockList) :
    ∃ S', S.taskUnblock t = .ok S' ∧ S'.Fair ∧ S'.blockList = S.blockList.erase t := by
  refine ⟨⟨S.blockList.erase t, Function.update S.ready t true⟩, ?_, ?_, rfl⟩
  · simp only [taskUnblock, ht, decide_true]
    rfl
  · refine ⟨h.nodup.erase t, fun u => ?_⟩
    by_cases e : u = t
    · simp [e, h.nodup.mem_erase_iff]
    · simp [e, h.ready u, h.nodup.mem_erase_iff]

end Scheduler

end Yuios.Kernel
