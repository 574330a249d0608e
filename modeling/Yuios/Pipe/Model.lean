/-
  File:      Yuios/Pipe/Model.lean
  Subject:   A PIPE AMONG TASKS: `pipe_read` and `pipe_write` of `fs/pipe.c` on one pipe inode.

  Any number of tasks call them. A call runs with interrupts off from one `task_block` to the next;
  where a task stands in between is its program point (`Pc`). One action (`Action`) starts a call
  or lets a task that has been woken run on.

  * `bufs t` is the memory task `t` reads into: every `pipe_read` of `t` goes on where the one
    before has stopped.
  * `taken` and `put` are the history: the bytes in the order they were taken out of the ring and
    put into it, each with the task that did it.
-/
import Yuios.Pipe.Fifo

namespace Yuios.Pipe

open Kernel

def PAGE_SIZE : Nat := 4096

/-- Where a task stands: asleep (or woken and not yet run) before the byte that is next, with what
    comes after it. -/
inductive Pc where
  | out
  | reading (left : Nat)
  | writing (byte : UInt8) (left : List UInt8)
  deriving DecidableEq

/-- The pipe inode and the tasks. -/
structure State where
  fifo : Fifo
  rxwaiter : Option Nat
  txwaiter : Option Nat
  sched : Scheduler
  pc : Nat → Pc
  bufs : Nat → List UInt8
  taken : List (Nat × UInt8)
  put : List (Nat × UInt8)

/-- After `get_pipe_inode`. -/
def init (page : Nat → UInt8) : State where
  fifo := fifoInit page PAGE_SIZE
  rxwaiter := none
  txwaiter := none
  sched := .init
  pc := fun _ => .out
  bufs := fun _ => []
  taken := []
  put := []

def State.setPc (s : State) (t : Nat) (p : Pc) : State :=
  { s with pc := Function.update s.pc t p }

@[simp] theorem State.setPc_self (s : State) (t : Nat) (p : Pc) : (s.setPc t p).pc t = p :=
  Function.update_self ..

theorem State.setPc_of_ne {s : State} {t u : Nat} (p : Pc) (h : u ≠ t) :
    (s.setPc t p).pc u = s.pc u := Function.update_of_ne h ..

/-! ## 1. Reading -/

/-- `buf[nr++] = fifo_get(fifo)`. -/
def takeByte (s : State) (t : Nat) : Except Stop State := do
  let (byte, fifo) ← fifoGet s.fifo
  return { s with
    fifo := fifo
    bufs := Function.update s.bufs t (s.bufs t ++ [byte])
    taken := s.taken ++ [(t, byte)] }

/-- `if (inode->txwaiter)`: wake the writer. -/
def wakeWriter (s : State) : Except Stop State :=
  match s.txwaiter with
  | none => .ok s
  | some w => do
    let sched ← s.sched.taskUnblock w
    return { s with sched := sched, txwaiter := none }

/-- The loop of `pipe_read` with `left` bytes to go. -/
def pipeRead (t : Nat) : Nat → State → Except Stop State
  | 0, s => .ok (s.setPc t .out)
  | left + 1, s =>
    if fifoEmpty s.fifo then do
      assert s.rxwaiter.isNone
      let sched ← s.sched.taskBlock t
      return { s with sched := sched, rxwaiter := some t }.setPc t (.reading left)
    else do
      let s ← takeByte s t
      let s ← wakeWriter s
      pipeRead t left s

/-! ## 2. Writing -/

/-- `fifo_put(fifo, buf[nr++])`. -/
def putByte (s : State) (t : Nat) (byte : UInt8) : Except Stop State := do
  let fifo ← fifoPut s.fifo byte
  return { s with fifo := fifo, put := s.put ++ [(t, byte)] }

/-- `if (inode->rxwaiter)`: wake the reader. -/
def wakeReader (s : State) : Except Stop State :=
  match s.rxwaiter with
  | none => .ok s
  | some w => do
    let sched ← s.sched.taskUnblock w
    return { s with sched := sched, rxwaiter := none }

/-- The loop of `pipe_write` with the bytes `left` to go. -/
def pipeWrite (t : Nat) : List UInt8 → State → Except Stop State
  | [], s => .ok (s.setPc t .out)
  | byte :: left, s =>
    if fifoFull s.fifo then do
      assert s.txwaiter.isNone
      let sched ← s.sched.taskBlock t
      return { s with sched := sched, txwaiter := some t }.setPc t (.writing byte left)
    else do
      let s ← putByte s t byte
      let s ← wakeReader s
      pipeWrite t left s

/-! ## 3. The tasks -/

/-- What a task can do: call `pipe_read` for `count` bytes or `pipe_write` with the bytes `buf`, or
    run on where it was put to sleep, without looking at the ring again. -/
inductive Action where
  | read (t count : Nat)
  | write (t : Nat) (buf : List UInt8)
  | resume (t : Nat)

/-- A task outside the two calls makes one; a task inside runs on once it is ready. -/
def Enabled (s : State) : Action → Prop
  | .read t _ => s.pc t = .out
  | .write t _ => s.pc t = .out
  | .resume t => s.pc t ≠ .out ∧ s.sched.ready t = true

/-- The task goes on from where it was put to sleep. -/
def runOn (s : State) (t : Nat) : Pc → Except Stop State
  | .out => .ok s
  | .reading left => do
    let s ← takeByte s t
    let s ← wakeWriter s
    pipeRead t left s
  | .writing byte left => do
    let s ← putByte s t byte
    let s ← wakeReader s
    pipeWrite t left s

/-- The action, up to the next blocking point. -/
def act (s : State) : Action → Except Stop State
  | .read t count => pipeRead t count s
  | .write t buf => pipeWrite t buf s
  | .resume t => runOn s t (s.pc t)

/-- The states of the runs whose actions all meet `P` in the state they start from. -/
inductive Reached (P : State → Action → Prop) : State → Prop where
  | init (page : Nat → UInt8) : Reached P (init page)
  | step {s s' : State} (h : Reached P s) (a : Action) (ha : Enabled s a) (hP : P s a)
      (hs : act s a = .ok s') : Reached P s'

end Yuios.Pipe
