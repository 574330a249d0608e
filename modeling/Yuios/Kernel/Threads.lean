/-
  File:      Yuios/Kernel/Threads.lean
  Subject:   EVERY TASK GOES ON WITH ITS OWN REGISTERS, in every run: interrupts, system calls, `fork`, `execve`
             and `task_switch`, over one processor and one memory.

  C code of the kernel runs in between. It may do what it likes to the registers and to the memory, but for
  the stacks of the other tasks and the part of its own stack that lies above the frame it works on; and it
  returns to the text that called it with the stack pointer it was called with. `syscall_check` has to leave the
  registers alone as well, which `syscall_handler` relies on.

  * `Thread`, `Threads.step` -- what a task should be: a sequence of its own, which is interrupted and goes on.
  * `Cpu`, `Step` -- what the texts of `handler.asm` and `schedule.asm` do, one after the other.
  * `Inv` -- the frames and the parked registers lie on the stacks.
  * **`threads_refined`** -- every run of the processor is one of the tasks: nothing that is seen of it tells
    them from tasks with registers of their own.
-/
import Yuios.Kernel.Entry

namespace Yuios.Entry

open Lib.Cpu

/-! ## 1. Tasks with registers of their own -/

/-- What a task has been interrupted in: by a system call, or otherwise. -/
structure Saved where
  call : Bool
  context : Context
  deriving DecidableEq

/-- **A task**: what it has been interrupted in, the last one first; and unless it runs, the registers it goes
    on with. -/
structure Thread where
  saved : List Saved
  parked : Option Parked
  deriving DecidableEq

/-- What is seen of a run. -/
inductive Event where
  /-- The task is interrupted, or calls the kernel, with these registers. -/
  | trap (t : Nat) (call : Bool) (c : Context)
  /-- It goes on with these registers. -/
  | resume (t : Nat) (c : Context)
  /-- It goes on after a call that has answered `n`. -/
  | answer (t n : Nat) (c : Context)
  /-- It begins a program. -/
  | enter (t : Nat) (c : Context)
  /-- Task `t` is left with the registers `p`, and `u` goes on with `q`. -/
  | switch (t : Nat) (p : Parked) (u : Nat) (q : Parked)
  | create (u : Nat) (p : Parked)
  | fork (t u : Nat) (p : Parked)
  | free (u : Nat)

abbrev Threads := Nat → Option Thread

/-- **What the tasks do**; a task that goes on with other registers than its own does not. -/
def Threads.step (a : Threads) : Event → Option Threads
  | .trap t call c =>
    match a t with
    | some ⟨saved, none⟩ => some (Function.update a t (some ⟨⟨call, c⟩ :: saved, none⟩))
    | _ => none
  | .resume t c =>
    match a t with
    | some ⟨d :: saved, none⟩ =>
      if d = ⟨false, c⟩ then some (Function.update a t (some ⟨saved, none⟩)) else none
    | _ => none
  | .answer t n c =>
    match a t with
    | some ⟨⟨true, d⟩ :: saved, none⟩ =>
      if { d with eax := n } = c then some (Function.update a t (some ⟨saved, none⟩)) else none
    | _ => none
  | .enter t _ =>
    match a t with
    | some ⟨[], none⟩ => some (Function.update a t (some ⟨[], none⟩))
    | some ⟨[_], none⟩ => some (Function.update a t (some ⟨[], none⟩))
    | _ => none
  | .switch t p u q =>
    match a t, a u with
    | some ⟨saved, none⟩, some ⟨saved', some q'⟩ =>
      if q = q' then
        some (Function.update (Function.update a t (some ⟨saved, some p⟩)) u (some ⟨saved', none⟩))
      else none
    | _, _ => none
  | .create u p =>
    match a u with
    | none => some (Function.update a u (some ⟨[], some p⟩))
    | some _ => none
  | .fork t u p =>
    match a t, a u with
    | some ⟨[⟨true, c⟩], none⟩, none =>
      some (Function.update a u (some ⟨[⟨false, { c with eax := 0 }⟩], some p⟩))
    | _, _ => none
  | .free u =>
    match a u with
    | some ⟨_, some _⟩ => some (Function.update a u none)
    | _ => none

def Threads.run (a : Threads) : List Event → Option Threads
  | [] => some a
  | e :: es => (a.step e).bind fun a => run a es

/-! ## 2. The processor -/

def PAGE_SIZE : Nat := 4096

/-- `sizeof(intr_frame_t)` and `sizeof(task_frame_t)`. -/
def INTR_FRAME : Nat := 80
def TASK_FRAME : Nat := 20

/-- The processor, `tss.esp0`, and the tasks, each the address of its page; `frames` says where the frames of a
    task lie, and which are those of calls. -/
structure Cpu where
  machine : Machine
  esp0 : Nat
  current : Nat
  tasks : Nat → Bool
  /-- `task->uid != KERNEL_USER` -/
  user : Nat → Bool
  frames : Nat → List (Bool × Nat)

/-- Where the frames of a task begin, or its stack ends. -/
def lowest (limit : Nat) : List (Bool × Nat) → Nat
  | [] => limit
  | (_, f) :: _ => f

def Cpu.mem (s : Cpu) : Nat → Nat := s.machine.mem

/-- Where the frames of a task begin. -/
def Cpu.floor (s : Cpu) (u : Nat) : Nat := lowest (u + PAGE_SIZE) (s.frames u)

/-- The stacks of the other tasks are left alone. -/
def Cpu.Others (s : Cpu) (mem : Nat → Nat) : Prop :=
  ∀ u, s.tasks u = true → u ≠ s.current → mem u = s.mem u ∧ ∀ a, s.mem u ≤ a → a < u + PAGE_SIZE → mem a = s.mem a

/-- **What C code leaves alone**: the stacks of the other tasks, and what lies above its own frame. -/
def Cpu.Leaves (s : Cpu) (mem : Nat → Nat) : Prop :=
  s.Others mem ∧ ∀ a, s.floor s.current ≤ a → a < s.current + PAGE_SIZE → mem a = s.mem a

/-- `sizeof(task_t)`: the stack does not run into the `task_t` at the beginning of the page. -/
def ROOM : Nat := 180

/-- `memcpy(child, task, PAGE_SIZE)`. -/
def copyPage (mem : Nat → Nat) (child task : Nat) (a : Nat) : Nat :=
  if child ≤ a ∧ a < child + PAGE_SIZE then mem (task + (a - child)) else mem a

/-- `task_build_stack`. -/
def taskBuildStack (exit task : Nat) (mem : Nat → Nat) : Nat → Nat :=
  let iframe := task + PAGE_SIZE - INTR_FRAME
  let mem := Function.update mem (iframe + 32) 0
  let frame := iframe - TASK_FRAME
  let mem := Function.update mem (frame + 12) 0xaa55aa55
  let mem := Function.update mem (frame + 8) 0xaa55aa55
  let mem := Function.update mem frame 0xaa55aa55
  let mem := Function.update mem (frame + 4) 0xaa55aa55
  let mem := Function.update mem (frame + 16) exit
  Function.update mem task frame

/-- The frame that `task_create` builds. -/
def taskCreate (target task : Nat) (mem : Nat → Nat) : Nat → Nat :=
  let stack := task + PAGE_SIZE - TASK_FRAME
  let mem := Function.update mem (stack + 8) 0x11111111
  let mem := Function.update mem (stack + 4) 0x22222222
  let mem := Function.update mem stack 0x33333333
  let mem := Function.update mem (stack + 12) 0x44444444
  let mem := Function.update mem (stack + 16) target
  Function.update mem task stack

/-- The page of a new task, where there is none yet. -/
structure Cpu.Fresh (s : Cpu) (u : Nat) : Prop where
  unknown : s.tasks u = false
  page : PAGE_SIZE ∣ u
  lt : u + PAGE_SIZE < 2 ^ 32

/-- **One step**, and what is seen of it. -/
inductive Step (exit : Nat) : Cpu → List Event → Cpu → Prop where
  /-- C code of the kernel. -/
  | code (s : Cpu) (m : Machine) (hk : fromUser (s.machine.seg .cs) = false) (hm : s.Leaves m.mem)
      (hcs : m.seg .cs = s.machine.seg .cs) (hss : m.seg .ss = s.machine.seg .ss)
      (hlow : s.current + ROOM ≤ m.reg .esp) (hhigh : m.reg .esp ≤ s.floor s.current) :
      Step exit s [] { s with machine := m }
  /-- Code of the user. -/
  | user (s : Cpu) (m : Machine) (hu : fromUser (s.machine.seg .cs) = true) (hu' : fromUser (m.seg .cs) = true)
      (hm : ∀ u, s.tasks u = true → ∀ a, u ≤ a → a < u + PAGE_SIZE → m.mem a = s.mem a) :
      Step exit s [] { s with machine := m }
  /-- An interrupt or an exception. -/
  | trap (s : Cpu) (vector entry : Nat) (code : Option Nat) (m : Machine)
      (hroom : s.current + ROOM + 80 ≤ (stacked s.esp0 s.machine).reg .esp)
      (hm : m = (interrupt s.esp0 entry code s.machine).execs (trapText vector code)) :
      Step exit s [.trap s.current false (context s.machine)]
        { s with
          machine := m
          frames := Function.update s.frames s.current ((false, m.reg .esp) :: s.frames s.current) }
  /-- `int 0x80`, up to the call of the function. -/
  | call (s : Cpu) (entry : Nat) (m₁ m₂ m : Machine)
      (hroom : s.current + ROOM + 104 ≤ (stacked s.esp0 s.machine).reg .esp)
      (hm₁ : m₁ = (interrupt s.esp0 entry none s.machine).execs syscallCheck) (hreg : m₂.reg = m₁.reg)
      (hseg : m₂.seg = m₁.seg)
      (hmem : ∀ a, a < s.current + ROOM ∨ m₁.reg .esp ≤ a → m₂.mem a = m₁.mem a) (hm : m = m₂.execs syscallEntry) :
      Step exit s [.trap s.current true (context s.machine)]
        { s with
          machine := m
          frames := Function.update s.frames s.current ((true, m.reg .esp + 24) :: s.frames s.current) }
  /-- The handler has returned. -/
  | resume (s : Cpu) (rest : List (Bool × Nat)) (m : Machine) (hk : fromUser (s.machine.seg .cs) = false)
      (hf : s.frames s.current = (false, s.machine.reg .esp) :: rest) (hm : m = iret (s.machine.execs interruptExit)) :
      Step exit s [.resume s.current (context m)]
        { s with machine := m, frames := Function.update s.frames s.current rest }
  /-- The function has returned. -/
  | answer (s : Cpu) (rest : List (Bool × Nat)) (m : Machine) (hk : fromUser (s.machine.seg .cs) = false)
      (hf : s.frames s.current = (true, s.machine.reg .esp + 24) :: rest)
      (hm : m = iret ((s.machine.execs syscallExit).execs interruptExit)) :
      Step exit s [.answer s.current (s.machine.reg .eax) (context m)]
        { s with machine := m, frames := Function.update s.frames s.current rest }
  /-- `task_to_user_mode` and `sys_execve`: a frame for user code is built, and left through `interrupt_exit`. -/
  | enter (s : Cpu) (mem : Nat → Nat) (c : Context) (vector dummy vector0 error : Nat) (m : Machine)
      (hk : fromUser (s.machine.seg .cs) = false) (hu : s.user s.current = true)
      (hf : (s.frames s.current).length ≤ 1) (hmem : s.Others mem) (hc : fromUser c.cs = true)
      (hframe : Holds mem (s.current + PAGE_SIZE - INTR_FRAME) (c.frame vector dummy vector0 error))
      (hm : m = iret ({ (s.machine.setReg .esp (s.current + PAGE_SIZE - INTR_FRAME)) with mem := mem }.execs
        interruptExit)) :
      Step exit s [.enter s.current (context m)]
        { s with machine := m, frames := Function.update s.frames s.current [] }
  /-- `task_switch(u)`, from `task_activate` on. -/
  | switch (s : Cpu) (u back : Nat) (m : Machine) (hk : fromUser (s.machine.seg .cs) = false)
      (hu : s.tasks u = true) (hne : u ≠ s.current) (hlow : s.current + ROOM ≤ s.machine.reg .esp)
      (hhigh : s.machine.reg .esp + 8 ≤ s.floor s.current) (hback : s.mem (s.machine.reg .esp) = back)
      (hnext : s.mem (s.machine.reg .esp + 4) = u) (hm : m = ret (s.machine.execs taskSwitch)) :
      Step exit s
        [.switch s.current { parked s.machine with eip := back, esp := s.machine.reg .esp + 4 } u (parked m)]
        { s with machine := m, esp0 := if s.user u then u + PAGE_SIZE else s.esp0, current := u }
  /-- `task_create`. -/
  | create (s : Cpu) (u target : Nat) (b : Bool) (mem : Nat → Nat) (hk : fromUser (s.machine.seg .cs) = false)
      (hu : s.Fresh u) (hmem : s.Leaves mem)
      (hbuild : ∀ a, a = u ∨ u + PAGE_SIZE - TASK_FRAME ≤ a ∧ a < u + PAGE_SIZE → mem a = taskCreate target u s.mem a) :
      Step exit s [.create u ⟨0x33333333, 0x22222222, 0x11111111, 0x44444444, target, u + PAGE_SIZE⟩]
        { s with
          machine := { s.machine with mem := mem }
          tasks := Function.update s.tasks u true
          user := Function.update s.user u b
          frames := Function.update s.frames u [] }
  /-- `task_fork`, which a process has called from user code. -/
  | fork (s : Cpu) (u : Nat) (mem : Nat → Nat) (hk : fromUser (s.machine.seg .cs) = false) (hu : s.Fresh u)
      (hf : s.frames s.current = [(true, s.current + PAGE_SIZE - INTR_FRAME)])
      (hcs : fromUser (s.mem (s.current + PAGE_SIZE - INTR_FRAME + 64)) = true) (hmem : s.Leaves mem)
      (hbuild : ∀ a, a = u ∨ u + PAGE_SIZE - INTR_FRAME - TASK_FRAME ≤ a ∧ a < u + PAGE_SIZE →
        mem a = taskBuildStack exit u (copyPage s.mem u s.current) a) :
      Step exit s [.fork s.current u
          ⟨0xaa55aa55, 0xaa55aa55, 0xaa55aa55, 0xaa55aa55, exit, u + PAGE_SIZE - INTR_FRAME⟩]
        { s with
          machine := { s.machine with mem := mem }
          tasks := Function.update s.tasks u true
          user := Function.update s.user u (s.user s.current)
          frames := Function.update s.frames u [(false, u + PAGE_SIZE - INTR_FRAME)] }
  /-- The page of a task that has died is given back. -/
  | free (s : Cpu) (u : Nat) (hu : s.tasks u = true) (hne : u ≠ s.current) :
      Step exit s [.free u] { s with tasks := Function.update s.tasks u false }

/-- Runs, and what is seen of them. -/
inductive Steps (exit : Nat) (s₀ : Cpu) : List Event → Cpu → Prop where
  | start : Steps exit s₀ [] s₀
  | step {s s' : Cpu} {es es' : List Event} (h : Steps exit s₀ es s) (hs : Step exit s es' s') :
      Steps exit s₀ (es ++ es') s'

/-! ## 3. What lies on the stacks -/

/-- A frame at `f`, below `above` and in a stack that ends at `limit`. -/
structure FrameAt (mem : Nat → Nat) (user : Bool) (above limit f : Nat) (c : Context) : Prop where
  words : ∃ vector dummy vector0 error, Holds mem f (c.frame vector dummy vector0 error)
  ofUser : fromUser c.cs = true → user = true ∧ f + INTR_FRAME = limit ∧ above = limit
  ofKernel : fromUser c.cs = false → c.esp = f + 72 ∧ f + 72 ≤ above ∧ c.ss = KERNEL_DATA_SELECTOR

/-- The frames of a task, one above the other. -/
def Frames (mem : Nat → Nat) (user : Bool) (limit : Nat) : List (Bool × Nat) → List Saved → Prop
  | [], [] => True
  | (call, f) :: fs, d :: saved =>
    d.call = call ∧ FrameAt mem user (lowest limit fs) limit f d.context ∧ Frames mem user limit fs saved
  | _, _ => False

/-- The registers a task goes on with, below `floor`. -/
structure ParkedAt (mem : Nat → Nat) (floor u : Nat) (p : Parked) : Prop where
  low : u + 4 ≤ mem u
  words : Holds mem (mem u) p.frame
  esp : p.esp = mem u + 20
  high : mem u + 20 ≤ floor

section Frames

variable {mem mem' : Nat → Nat} {user : Bool} {limit u v floor : Nat} {fs : List (Bool × Nat)} {saved : List Saved}
  {p : Parked}

theorem Frames.low (h : Frames mem user limit fs saved) : lowest limit fs ≤ limit := by
  induction fs generalizing saved with
  | nil => exact le_rfl
  | cons f fs ih =>
    cases saved with
    | nil => exact h.elim
    | cons d saved =>
      obtain ⟨-, hf, h⟩ := h
      have hlow := ih h
      show f.2 ≤ limit
      cases hu : fromUser d.context.cs with
      | true =>
        obtain ⟨-, he, -⟩ := hf.ofUser hu
        omega
      | false =>
        obtain ⟨-, he, -⟩ := hf.ofKernel hu
        omega

theorem frame_length {c : Context} {vector dummy vector0 error : Nat} :
    (c.frame vector dummy vector0 error).length = if fromUser c.cs then 20 else 18 := by
  rw [Context.frame, List.length_append, hardware_length]
  split <;> rfl

/-- Frames rest on what lies above them. -/
theorem Frames.congr (h : Frames mem user limit fs saved)
    (he : ∀ a, lowest limit fs ≤ a → a < limit → mem' a = mem a) : Frames mem' user limit fs saved := by
  induction fs generalizing saved with
  | nil =>
    cases saved with
    | nil => trivial
    | cons => exact h.elim
  | cons f fs ih =>
    cases saved with
    | nil => exact h.elim
    | cons d saved =>
      obtain ⟨hcall, hf, h⟩ := h
      have hlow := h.low
      have hend : f.2 + 4 * (if fromUser d.context.cs then 20 else 18) ≤ limit ∧ f.2 ≤ lowest limit fs := by
        cases hu : fromUser d.context.cs with
        | true =>
          obtain ⟨-, he, he'⟩ := hf.ofUser hu
          have : INTR_FRAME = 80 := rfl
          rw [he']
          exact ⟨by rw [if_pos rfl]; omega, by omega⟩
        | false =>
          obtain ⟨-, he, -⟩ := hf.ofKernel hu
          exact ⟨by rw [if_neg Bool.false_ne_true]; omega, by omega⟩
      refine ⟨hcall, ⟨?_, hf.ofUser, hf.ofKernel⟩, ih h fun a ha ha' => he a (le_trans hend.2 ha) ha'⟩
      obtain ⟨vector, dummy, vector0, error, hw⟩ := hf.words
      refine ⟨vector, dummy, vector0, error, hw.congr fun a ha ha' => he a ha ?_⟩
      rw [frame_length] at ha'
      omega

theorem ParkedAt.congr (h : ParkedAt mem floor u p) (hword : mem' u = mem u) (hfloor : floor ≤ limit)
    (he : ∀ a, mem u ≤ a → a < limit → mem' a = mem a) : ParkedAt mem' floor u p := by
  have hhigh := h.high
  refine ⟨by rw [hword]; exact h.low, ?_, by rw [hword]; exact h.esp, by rw [hword]; exact hhigh⟩
  rw [hword]
  refine h.words.congr fun a ha ha' => he a ha ?_
  have hlen : p.frame.length = 5 := rfl
  omega

/-- Two pages have no word in common. -/
theorem pages_apart (hu : PAGE_SIZE ∣ u) (hv : PAGE_SIZE ∣ v) (hne : u ≠ v) :
    u + PAGE_SIZE ≤ v ∨ v + PAGE_SIZE ≤ u := by
  obtain ⟨i, rfl⟩ := hu
  obtain ⟨j, rfl⟩ := hv
  have hne : i ≠ j := fun e => hne (by rw [e])
  show 4096 * i + 4096 ≤ 4096 * j ∨ 4096 * j + 4096 ≤ 4096 * i
  omega

end Frames

/-! ## 4. The invariant -/

/-- **The frames and the parked registers lie on the stacks**, each in the page of its task. -/
structure Inv (s : Cpu) (a : Threads) : Prop where
  page : ∀ u, s.tasks u = true → PAGE_SIZE ∣ u ∧ u + PAGE_SIZE < 2 ^ 32
  alive : s.tasks s.current = true
  unknown : ∀ u, s.tasks u = false → a u = none
  running : ∃ saved, a s.current = some ⟨saved, none⟩ ∧
    Frames s.mem (s.user s.current) (s.current + PAGE_SIZE) (s.frames s.current) saved
  parked : ∀ u, s.tasks u = true → u ≠ s.current → ∃ saved p, a u = some ⟨saved, some p⟩ ∧
    Frames s.mem (s.user u) (u + PAGE_SIZE) (s.frames u) saved ∧ ParkedAt s.mem (s.floor u) u p
  inKernel : fromUser (s.machine.seg .cs) = false →
    s.machine.seg .ss = KERNEL_DATA_SELECTOR ∧ s.current ≤ s.machine.reg .esp ∧
      s.machine.reg .esp ≤ s.floor s.current
  inUser : fromUser (s.machine.seg .cs) = true → s.frames s.current = [] ∧ s.user s.current = true
  esp0 : s.user s.current = true → s.esp0 = s.current + PAGE_SIZE

section Inv

variable {exit : Nat} {s s' : Cpu} {a : Threads} {m : Machine} {mem : Nat → Nat} {lo hi : Nat}

theorem Inv.floor_le (h : Inv s a) {u : Nat} (hu : s.tasks u = true) : s.floor u ≤ u + PAGE_SIZE := by
  by_cases e : u = s.current
  · obtain ⟨saved, -, hf⟩ := h.running
    rw [e]
    exact hf.low
  · obtain ⟨saved, p, -, hf, -⟩ := h.parked u hu e
    exact hf.low

/-- What is written in the page of the running task leaves the other stacks alone. -/
theorem Inv.others (h : Inv s a) (hm : ∀ b, b < s.current ∨ s.current + PAGE_SIZE ≤ b → mem b = s.mem b) :
    s.Others mem := by
  intro u hu hne
  obtain ⟨saved, p, -, -, hp⟩ := h.parked u hu hne
  have hlow := hp.low
  have h4 : PAGE_SIZE = 4096 := rfl
  obtain hap | hap := pages_apart (h.page u hu).1 (h.page _ h.alive).1 hne
  · exact ⟨hm u (.inl (by omega)), fun b hb hb' => hm b (.inl (by omega))⟩
  · exact ⟨hm u (.inr (by omega)), fun b hb hb' => hm b (.inr (by omega))⟩

/-- What is written below its frames is not theirs either. -/
theorem Inv.leaves (h : Inv s a) (hlo : s.current ≤ lo) (hhi : hi ≤ s.floor s.current)
    (hm : ∀ b, b < lo ∨ hi ≤ b → mem b = s.mem b) : s.Leaves mem := by
  have hfloor := h.floor_le h.alive
  exact ⟨h.others fun b hb => hm b (by omega), fun b hb _ => hm b (.inr (le_trans hhi hb))⟩

/-- The stacks are as they were. -/
theorem Inv.stacks (h : Inv s a) (hm : s.Others mem) :
    ∀ u, s.tasks u = true → u ≠ s.current → ∃ saved p, a u = some ⟨saved, some p⟩ ∧
      Frames mem (s.user u) (u + PAGE_SIZE) (s.frames u) saved ∧ ParkedAt mem (s.floor u) u p := by
  intro u hu hne
  obtain ⟨saved, p, ha, hf, hp⟩ := h.parked u hu hne
  obtain ⟨hword, hkeep⟩ := hm u hu hne
  refine ⟨saved, p, ha, hf.congr fun b hb hb' => hkeep b ?_ hb', hp.congr hword hf.low hkeep⟩
  have hhigh := hp.high
  have hfloor : s.floor u ≤ b := hb
  omega

/-- The memory has changed below the frames. -/
theorem Inv.machine (h : Inv s a) (hm : s.Leaves m.mem)
    (hk : fromUser (m.seg .cs) = false → m.seg .ss = KERNEL_DATA_SELECTOR ∧ s.current ≤ m.reg .esp ∧
      m.reg .esp ≤ s.floor s.current)
    (hu : fromUser (m.seg .cs) = true → s.frames s.current = [] ∧ s.user s.current = true) :
    Inv { s with machine := m } a := by
  refine ⟨h.page, h.alive, h.unknown, ?_, h.stacks hm.1, hk, hu, h.esp0⟩
  obtain ⟨saved, ha, hf⟩ := h.running
  exact ⟨saved, ha, hf.congr hm.2⟩

/-- The stack that an interrupt goes on with. -/
theorem Inv.base (h : Inv s a) :
    (stacked s.esp0 s.machine).reg .esp ≤ s.floor s.current ∧
      (stacked s.esp0 s.machine).seg .ss = KERNEL_DATA_SELECTOR ∧
      (fromUser (s.machine.seg .cs) = true → (stacked s.esp0 s.machine).reg .esp = s.current + PAGE_SIZE) ∧
      (fromUser (s.machine.seg .cs) = false → (stacked s.esp0 s.machine).reg .esp = s.machine.reg .esp) := by
  cases hu : fromUser (s.machine.seg .cs) with
  | true =>
    obtain ⟨hf, hus⟩ := h.inUser hu
    have hesp : (stacked s.esp0 s.machine).reg .esp = s.current + PAGE_SIZE := by
      simp [stacked, hu, Machine.setSeg, Machine.setReg, h.esp0 hus]
    refine ⟨?_, by simp [stacked, hu, Machine.setSeg], fun _ => hesp, fun e => Bool.noConfusion e⟩
    rw [Cpu.floor, hf, hesp]
    exact le_rfl
  | false =>
    obtain ⟨hss, -, hfloor⟩ := h.inKernel hu
    have e : stacked s.esp0 s.machine = s.machine := if_neg (by simp [hu])
    rw [e]
    exact ⟨hfloor, hss, fun e => Bool.noConfusion e, fun _ => rfl⟩

/-- The running task has other frames; its page alone has changed. -/
theorem Inv.onto (h : Inv s a) {fs : List (Bool × Nat)} (saved : List Saved) (hothers : s.Others m.mem)
    (hfr : Frames m.mem (s.user s.current) (s.current + PAGE_SIZE) fs saved)
    (hk : fromUser (m.seg .cs) = false → m.seg .ss = KERNEL_DATA_SELECTOR ∧ s.current ≤ m.reg .esp ∧
      m.reg .esp ≤ lowest (s.current + PAGE_SIZE) fs)
    (hu : fromUser (m.seg .cs) = true → fs = [] ∧ s.user s.current = true) :
    Inv { s with machine := m, frames := Function.update s.frames s.current fs }
      (Function.update a s.current (some ⟨saved, none⟩)) := by
  have hself : Function.update s.frames s.current fs s.current = fs := Function.update_self ..
  refine ⟨h.page, h.alive, fun u hu => ?_, ⟨saved, Function.update_self .., ?_⟩, fun u hu hne => ?_, ?_, ?_, h.esp0⟩
  · have hne : u ≠ s.current := fun e => by rw [e, h.alive] at hu; exact Bool.noConfusion hu
    rw [Function.update_of_ne hne]
    exact h.unknown u hu
  · simp only [hself]
    exact hfr
  · obtain ⟨saved', p, ha', hfr', hp'⟩ := h.stacks hothers u hu hne
    refine ⟨saved', p, by rw [Function.update_of_ne hne]; exact ha', ?_, ?_⟩
    · simp only [Function.update_of_ne hne]
      exact hfr'
    · simp only [Cpu.floor, Function.update_of_ne hne]
      exact hp'
  · simp only [Cpu.floor, hself]
    exact hk
  · simp only [hself]
    exact hu

/-- The frame is one more of the running task. -/
theorem Inv.save (h : Inv s a) {call : Bool} {f vector dummy vector0 error : Nat} (lo : Nat) (hlo : s.current + ROOM ≤ lo)
    (hesp : lo ≤ m.reg .esp) (hf : m.reg .esp ≤ f)
    (hlen : f + 4 * ((context s.machine).frame vector dummy vector0 error).length =
      (stacked s.esp0 s.machine).reg .esp)
    (hw : Holds m.mem f ((context s.machine).frame vector dummy vector0 error))
    (hmem : ∀ b, b < lo ∨ (stacked s.esp0 s.machine).reg .esp ≤ b → m.mem b = s.mem b)
    (hcs : m.seg .cs = KERNEL_CODE_SELECTOR) (hss : m.seg .ss = (stacked s.esp0 s.machine).seg .ss) :
    ∃ a', a.step (.trap s.current call (context s.machine)) = some a' ∧
      Inv { s with
        machine := m
        frames := Function.update s.frames s.current ((call, f) :: s.frames s.current) } a' := by
  obtain ⟨hfloor, hdata, huser, hkernel⟩ := h.base
  obtain ⟨saved, ha, hfr⟩ := h.running
  have hleaves : s.Leaves m.mem := h.leaves (by omega) hfloor hmem
  have hlow : s.floor s.current ≤ s.current + PAGE_SIZE := h.floor_le h.alive
  rw [frame_length] at hlen
  refine ⟨_, by rw [Threads.step, ha], ?_⟩
  refine h.onto (_ :: saved) hleaves.1 ⟨rfl, ⟨⟨_, _, _, _, hw⟩, fun hu => ?_, fun hu => ?_⟩, hfr.congr hleaves.2⟩
    (fun _ => ⟨hss.trans hdata, by omega, hf⟩) (fun hu => ?_)
  · have hu : fromUser (s.machine.seg .cs) = true := hu
    obtain ⟨hnil, hus⟩ := h.inUser hu
    have hlen : f + 4 * (if fromUser (s.machine.seg .cs) then 20 else 18) = s.current + PAGE_SIZE := by
      rw [← huser hu]
      exact hlen
    rw [if_pos hu] at hlen
    rw [hnil]
    exact ⟨hus, hlen, rfl⟩
  · have hu : fromUser (s.machine.seg .cs) = false := hu
    have hlen : f + 4 * (if fromUser (s.machine.seg .cs) then 20 else 18) = s.machine.reg .esp := by
      rw [← hkernel hu]
      exact hlen
    rw [if_neg (by rw [hu]; exact Bool.false_ne_true)] at hlen
    obtain ⟨hss, -, hfl⟩ := h.inKernel hu
    refine ⟨hlen.symm, ?_, hss⟩
    have hfl : s.machine.reg .esp ≤ lowest (s.current + PAGE_SIZE) (s.frames s.current) := hfl
    omega
  · rw [hcs] at hu
    exact Bool.noConfusion hu

/-- The end of the stack has no frames below it but those that are left. -/
theorem Frames.eq_nil {mem : Nat → Nat} {user : Bool} {limit : Nat} {fs : List (Bool × Nat)} {saved : List Saved}
    (h : Frames mem user limit fs saved) (he : lowest limit fs = limit) : fs = [] := by
  cases fs with
  | nil => rfl
  | cons f fs =>
    cases saved with
    | nil => exact h.elim
    | cons d saved =>
      obtain ⟨-, hf, h⟩ := h
      have hlow := h.low
      have he : f.2 = limit := he
      have hframe : INTR_FRAME = 80 := rfl
      cases hu : fromUser d.context.cs with
      | true =>
        obtain ⟨-, he', -⟩ := hf.ofUser hu
        omega
      | false =>
        obtain ⟨-, he', -⟩ := hf.ofKernel hu
        omega

/-- The frame on top is left. -/
theorem Inv.leave (h : Inv s a) {rest : List (Bool × Nat)} {saved : List Saved} {d : Saved} {call : Bool} {f : Nat}
    {c : Context} (hfc : s.current ≤ f)
    (hfr : Frames s.mem (s.user s.current) (s.current + PAGE_SIZE) ((call, f) :: rest) (d :: saved))
    (hc : c.cs = d.context.cs ∧ c.esp = d.context.esp ∧ c.ss = d.context.ss) (hm : context m = c)
    (hmem : ∀ b, b < s.current ∨ lowest (s.current + PAGE_SIZE) rest ≤ b → m.mem b = s.mem b) :
    Inv { s with machine := m, frames := Function.update s.frames s.current rest }
      (Function.update a s.current (some ⟨saved, none⟩)) := by
  obtain ⟨-, hframe, hrest⟩ := hfr
  have hlow := hrest.low
  have hcs : m.seg .cs = d.context.cs := by rw [← hc.1, ← hm]; rfl
  have hesp : m.reg .esp = d.context.esp := by rw [← hc.2.1, ← hm]; rfl
  have hss : m.seg .ss = d.context.ss := by rw [← hc.2.2, ← hm]; rfl
  have hothers : s.Others m.mem := h.others fun b hb => hmem b (by omega)
  refine h.onto saved hothers (hrest.congr fun b hb _ => hmem b (.inr hb)) (fun hk => ?_) (fun hu => ?_)
  · obtain ⟨he, habove, hss'⟩ := hframe.ofKernel (by rw [← hcs]; exact hk)
    exact ⟨hss.trans hss', by omega, by omega⟩
  · obtain ⟨hus, -, habove⟩ := hframe.ofUser (by rw [← hcs]; exact hu)
    exact ⟨hrest.eq_nil habove, hus⟩

/-- The frame on top of the running task. -/
theorem Inv.top (h : Inv s a) {rest : List (Bool × Nat)} {call : Bool} {f : Nat}
    (hf : s.frames s.current = (call, f) :: rest) : ∃ d saved, a s.current = some ⟨d :: saved, none⟩ ∧ d.call = call ∧
      Frames s.mem (s.user s.current) (s.current + PAGE_SIZE) ((call, f) :: rest) (d :: saved) ∧
      (∃ vector dummy vector0 error, Holds s.mem f (d.context.frame vector dummy vector0 error) ∧
        f + 4 * (d.context.frame vector dummy vector0 error).length < 2 ^ 32) ∧
      (fromUser d.context.cs = false → d.context.esp = f + 72 ∧ d.context.ss = KERNEL_DATA_SELECTOR) := by
  obtain ⟨saved, ha, hfr⟩ := h.running
  rw [hf] at hfr
  cases saved with
  | nil => exact hfr.elim
  | cons d saved =>
    obtain ⟨hcall, hframe, hrest⟩ := hfr
    have hlow := hrest.low
    obtain ⟨vector, dummy, vector0, error, hw⟩ := hframe.words
    have hpage := (h.page _ h.alive).2
    have h80 : INTR_FRAME = 80 := rfl
    refine ⟨d, saved, ha, hcall, ⟨hcall, hframe, hrest⟩, ⟨vector, dummy, vector0, error, hw, ?_⟩, fun hu => ?_⟩
    · rw [frame_length]
      cases hu : fromUser d.context.cs with
      | true =>
        obtain ⟨-, he, -⟩ := hframe.ofUser hu
        rw [if_pos rfl]
        omega
      | false =>
        obtain ⟨-, he, -⟩ := hframe.ofKernel hu
        rw [if_neg Bool.false_ne_true]
        omega
    · exact ⟨(hframe.ofKernel hu).1, (hframe.ofKernel hu).2.2⟩

/-- A handler returns. -/
theorem Inv.resume (h : Inv s a) {rest : List (Bool × Nat)} (hk : fromUser (s.machine.seg .cs) = false)
    (hf : s.frames s.current = (false, s.machine.reg .esp) :: rest) (hm : m = iret (s.machine.execs interruptExit)) :
    ∃ a', a.step (.resume s.current (context m)) = some a' ∧
      Inv { s with machine := m, frames := Function.update s.frames s.current rest } a' := by
  obtain ⟨d, saved, ha, hcall, hfr, ⟨vector, dummy, vector0, error, hw, hlt⟩, hkernel⟩ := h.top hf
  obtain ⟨hss, hcur, -⟩ := h.inKernel hk
  have hs : s.machine.Stack (s.machine.reg .esp + 4 * (d.context.frame vector dummy vector0 error).length)
      (d.context.frame vector dummy vector0 error ++ []) := by
    rw [List.append_nil]
    exact ⟨hw, rfl, hlt⟩
  have hend : fromUser d.context.cs = false → d.context.esp + 4 * ([] : List Nat).length =
      s.machine.reg .esp + 4 * (d.context.frame vector dummy vector0 error).length ∧
        d.context.ss = s.machine.seg .ss := fun hu => by
    obtain ⟨hesp, hss'⟩ := hkernel hu
    rw [frame_length, hu, hesp, hss, hss']
    exact ⟨rfl, rfl⟩
  obtain ⟨hctx, hmem⟩ := exit_restores hs hend hm
  refine ⟨_, ?_, h.leave hcur hfr ⟨rfl, rfl, rfl⟩ hctx fun b _ => congrFun hmem b⟩
  have hd : d = ⟨false, context m⟩ := by rw [hctx, ← hcall]
  rw [Threads.step, ha]
  exact if_pos hd

/-- A call is answered. -/
theorem Inv.answer (h : Inv s a) {rest : List (Bool × Nat)} (hk : fromUser (s.machine.seg .cs) = false)
    (hf : s.frames s.current = (true, s.machine.reg .esp + 24) :: rest)
    (hm : m = iret ((s.machine.execs syscallExit).execs interruptExit)) :
    ∃ a', a.step (.answer s.current (s.machine.reg .eax) (context m)) = some a' ∧
      Inv { s with machine := m, frames := Function.update s.frames s.current rest } a' := by
  obtain ⟨d, saved, ha, hcall, hfr, ⟨vector, dummy, vector0, error, hw, hlt⟩, hkernel⟩ := h.top hf
  obtain ⟨hss, hcur, -⟩ := h.inKernel hk
  obtain ⟨n, hn⟩ : ∃ n, n = s.machine.reg .eax := ⟨_, rfl⟩
  -- the six arguments are words of the stack, whatever they are
  obtain ⟨args, hargs, hwords⟩ : ∃ args : List Nat, args.length = 6 ∧ Holds s.mem (s.machine.reg .esp) args :=
    ⟨(List.range 6).map fun i => s.mem (s.machine.reg .esp + 4 * i), rfl, by simp [Holds, List.range_succ]⟩
  have hs : s.machine.Stack (s.machine.reg .esp + 24 + 4 * (d.context.frame vector dummy vector0 error).length)
      (args ++ (d.context.frame vector dummy vector0 error ++ [])) := by
    rw [List.append_nil]
    refine ⟨holds_append.mpr ⟨hwords, ?_⟩, ?_, hlt⟩
    · rw [hargs]
      exact hw
    · rw [List.length_append, hargs]
      omega
  obtain ⟨hs', hesp', hmem', hseg'⟩ := syscall_answers hs hargs rfl
  have hend : fromUser d.context.cs = false → d.context.esp + 4 * ([] : List Nat).length =
      s.machine.reg .esp + 24 + 4 * (d.context.frame vector dummy vector0 error).length ∧
        d.context.ss = (s.machine.execs syscallExit).seg .ss := fun hu => by
    obtain ⟨hesp, hss'⟩ := hkernel hu
    rw [frame_length, hu, hesp, hseg', hss, hss']
    exact ⟨rfl, rfl⟩
  obtain ⟨hctx, hmem⟩ := exit_restores hs' hend hm
  have hin : s.machine.reg .esp + 24 + 72 ≤ lowest (s.current + PAGE_SIZE) rest := by
    obtain ⟨-, hframe, -⟩ := hfr
    have h80 : INTR_FRAME = 80 := rfl
    cases hu : fromUser d.context.cs with
    | true =>
      obtain ⟨-, he, habove⟩ := hframe.ofUser hu
      omega
    | false =>
      obtain ⟨-, habove, -⟩ := hframe.ofKernel hu
      exact habove
  have hold : ∀ b, b < s.current ∨ lowest (s.current + PAGE_SIZE) rest ≤ b → m.mem b = s.mem b := fun b hb => by
    rw [hmem, hmem', Function.update_of_ne (by omega)]
    rfl
  have hleft := h.leave (d := d) (c := { d.context with eax := s.machine.reg .eax }) (by omega) hfr ⟨rfl, rfl, rfl⟩
    hctx hold
  refine ⟨_, ?_, hleft⟩
  obtain ⟨dcall, dcontext⟩ := d
  have hcall : dcall = true := hcall
  subst hcall
  rw [Threads.step, ha]
  exact if_pos hctx.symm

/-- An interrupt. -/
theorem Inv.trap (h : Inv s a) {vector entry : Nat} {code : Option Nat}
    (hroom : s.current + ROOM + 80 ≤ (stacked s.esp0 s.machine).reg .esp)
    (hm : m = (interrupt s.esp0 entry code s.machine).execs (trapText vector code)) :
    ∃ a', a.step (.trap s.current false (context s.machine)) = some a' ∧
      Inv { s with
        machine := m
        frames := Function.update s.frames s.current ((false, m.reg .esp) :: s.frames s.current) } a' := by
  obtain ⟨hfloor, -, -⟩ := h.base
  have hlow := h.floor_le h.alive
  have hpage := (h.page _ h.alive).2
  have hs : (stacked s.esp0 s.machine).Stack ((stacked s.esp0 s.machine).reg .esp) [] := ⟨trivial, rfl, by omega⟩
  obtain ⟨⟨dummy, hst⟩, hmem, hcs, hss⟩ := trap_saves hs (by omega) hm
  rw [List.append_nil] at hst
  have hle : (Context.frame (context s.machine) vector dummy vector (errorWord code)).length ≤ 20 := by
    rw [frame_length]
    split <;> omega
  have hsize := hst.size
  exact h.save (m.reg .esp) (by omega) le_rfl le_rfl hsize hst.words hmem hcs hss

/-- `int 0x80`. -/
theorem Inv.call (h : Inv s a) {entry : Nat} {m₁ m₂ : Machine}
    (hroom : s.current + ROOM + 104 ≤ (stacked s.esp0 s.machine).reg .esp)
    (hm₁ : m₁ = (interrupt s.esp0 entry none s.machine).execs syscallCheck) (hreg : m₂.reg = m₁.reg)
    (hseg : m₂.seg = m₁.seg) (hmem : ∀ b, b < s.current + ROOM ∨ m₁.reg .esp ≤ b → m₂.mem b = m₁.mem b)
    (hm : m = m₂.execs syscallEntry) :
    ∃ a', a.step (.trap s.current true (context s.machine)) = some a' ∧
      Inv { s with
        machine := m
        frames := Function.update s.frames s.current ((true, m.reg .esp + 24) :: s.frames s.current) } a' := by
  obtain ⟨hfloor, -, -⟩ := h.base
  have hlow := h.floor_le h.alive
  have hpage := (h.page _ h.alive).2
  have hs : (stacked s.esp0 s.machine).Stack ((stacked s.esp0 s.machine).reg .esp) [] := ⟨trivial, rfl, by omega⟩
  obtain ⟨⟨dummy, hst⟩, hmem', hcs, hss, -⟩ := syscall_saves hs hroom hm₁ hreg hseg hmem hm
  rw [List.append_nil] at hst
  have hle : (Context.frame (context s.machine) 0x80 dummy 0x80 0x20222202).length ≤ 20 := by
    rw [frame_length]
    split <;> omega
  have hsize := hst.size
  rw [List.length_append] at hsize
  simp only [List.length_cons, List.length_nil, Nat.zero_add, Nat.reduceAdd] at hsize
  refine h.save (s.current + ROOM) le_rfl (by omega) (by omega) ?_ (holds_append.mp hst.words).2 hmem' hcs hss
  omega

/-- A program begins. -/
theorem Inv.enter (h : Inv s a) {c : Context} {vector dummy vector0 error : Nat} (hu : s.user s.current = true)
    (hf : (s.frames s.current).length ≤ 1) (hmem : s.Others mem) (hc : fromUser c.cs = true)
    (hframe : Holds mem (s.current + PAGE_SIZE - INTR_FRAME) (c.frame vector dummy vector0 error))
    (hm : m = iret (({ (s.machine.setReg .esp (s.current + PAGE_SIZE - INTR_FRAME)) with mem := mem }).execs
      interruptExit)) :
    ∃ a', a.step (.enter s.current (context m)) = some a' ∧
      Inv { s with machine := m, frames := Function.update s.frames s.current [] } a' := by
  obtain ⟨saved, ha, hfr⟩ := h.running
  have hpage := (h.page _ h.alive).2
  have h80 : INTR_FRAME = 80 := rfl
  have h4 : PAGE_SIZE = 4096 := rfl
  obtain ⟨m₀, hm₀⟩ : ∃ m₀ : Machine,
    m₀ = { (s.machine.setReg .esp (s.current + PAGE_SIZE - INTR_FRAME)) with mem := mem } := ⟨_, rfl⟩
  have hesp₀ : m₀.reg .esp = s.current + PAGE_SIZE - INTR_FRAME := by simp [hm₀, Machine.setReg]
  have hmem₀ : m₀.mem = mem := by rw [hm₀]
  have hs : m₀.Stack (s.current + PAGE_SIZE) (c.frame vector dummy vector0 error ++ []) := by
    rw [List.append_nil]
    refine ⟨by rw [hesp₀, hmem₀]; exact hframe, ?_, hpage⟩
    rw [frame_length, if_pos hc]
    omega
  rw [← hm₀] at hm
  obtain ⟨hctx, hmem'⟩ := exit_restores hs (fun e => by rw [hc] at e; exact Bool.noConfusion e) hm
  have hcs : m.seg .cs = c.cs := congrArg Context.cs hctx
  have hothers : s.Others m.mem := by rw [hmem', hmem₀]; exact hmem
  refine ⟨_, ?_, h.onto [] hothers trivial (fun hk => ?_) (fun _ => ⟨rfl, hu⟩)⟩
  · -- at most one frame is left behind
    revert hf hfr
    generalize s.frames s.current = fs
    intro hf hfr
    obtain _ | ⟨f, _ | ⟨f', fs⟩⟩ := fs
    · cases saved with
      | nil => rw [Threads.step, ha]
      | cons => exact hfr.elim
    · obtain _ | ⟨d, _ | ⟨d', saved⟩⟩ := saved
      · exact hfr.elim
      · rw [Threads.step, ha]
      · exact hfr.2.2.elim
    · simp at hf
  · rw [hcs, hc] at hk
    exact Bool.noConfusion hk

/-- `task_switch`. -/
theorem Inv.switch (h : Inv s a) {u back : Nat} (hk : fromUser (s.machine.seg .cs) = false) (hu : s.tasks u = true)
    (hne : u ≠ s.current) (hlow : s.current + ROOM ≤ s.machine.reg .esp)
    (hhigh : s.machine.reg .esp + 8 ≤ s.floor s.current) (hback : s.mem (s.machine.reg .esp) = back)
    (hnext : s.mem (s.machine.reg .esp + 4) = u) (hm : m = ret (s.machine.execs taskSwitch)) :
    ∃ a', a.step (.switch s.current { Entry.parked s.machine with eip := back, esp := s.machine.reg .esp + 4 } u (Entry.parked m)) =
        some a' ∧
      Inv { s with machine := m, esp0 := if s.user u then u + PAGE_SIZE else s.esp0, current := u } a' := by
  obtain ⟨saved, ha, hfr⟩ := h.running
  obtain ⟨saved', q, ha', hfr', hq⟩ := h.parked u hu hne
  obtain ⟨hpage, hlt⟩ := h.page _ h.alive
  obtain ⟨hpage', hlt'⟩ := h.page u hu
  have hend := h.floor_le h.alive
  have hend' : s.floor u ≤ u + PAGE_SIZE := h.floor_le hu
  have hqlow := hq.low
  have hqhigh := hq.high
  have h180 : ROOM = 180 := rfl
  have h4 : PAGE_SIZE = 4096 := rfl
  have hapart := pages_apart hpage' hpage hne
  obtain ⟨hparked, hseg, hwords, hword, hold⟩ := switch_parks hpage (by omega) (by omega) hlt hback hnext hapart rfl
    ⟨by show u ≤ s.mem u; omega, by show s.mem u + 20 ≤ u + 4096; omega⟩ hlt' hq.words hq.esp hm
  obtain ⟨e, he⟩ : ∃ e, e = s.machine.reg .esp := ⟨_, rfl⟩
  rw [← he] at hwords hword hold hlow hhigh hback hnext
  -- the frames of both, and the stacks of the others, lie where nothing has been written
  have hpages : ∀ v, s.tasks v = true → v ≠ s.current → ∀ b, v ≤ b → b < v + PAGE_SIZE → m.mem b = s.mem b := by
    intro v hv hvne b hb hb'
    obtain hap | hap := pages_apart (h.page v hv).1 hpage hvne
    · exact hold b (by omega) (by omega)
    · exact hold b (by omega) (by omega)
  have habove : ∀ b, s.floor s.current ≤ b → m.mem b = s.mem b := fun b hb => hold b (by omega) (by omega)
  refine ⟨Function.update (Function.update a s.current
    (some ⟨saved, some { Entry.parked s.machine with eip := back, esp := e + 4 }⟩)) u (some ⟨saved', none⟩), ?_, ?_⟩
  · rw [← he, Threads.step, ha, ha']
    exact if_pos hparked
  have hall : s.Others m.mem := fun v hv hvne => by
    obtain ⟨_, p, -, -, hp⟩ := h.parked v hv hvne
    have hplow := hp.low
    exact ⟨hpages v hv hvne v le_rfl (by omega), fun b hb hb' => hpages v hv hvne b (by omega) hb'⟩
  refine ⟨h.page, hu, fun v hv => ?_, ⟨saved', Function.update_self .., ?_⟩, fun v hv hvu => ?_, fun _ => ?_,
    fun hmu => ?_, fun hus => if_pos hus⟩
  · have hv : s.tasks v = false := hv
    have hvu : v ≠ u := fun e => by rw [e, hu] at hv; exact Bool.noConfusion hv
    have hvt : v ≠ s.current := fun e => by rw [e, h.alive] at hv; exact Bool.noConfusion hv
    rw [Function.update_of_ne hvu, Function.update_of_ne hvt]
    exact h.unknown v hv
  · refine hfr'.congr fun b hb hb' => hpages u hu hne b ?_ hb'
    have hb : s.floor u ≤ b := hb
    omega
  · have hvu : v ≠ u := hvu
    by_cases hvt : v = s.current
    · subst hvt
      refine ⟨saved, _, by rw [Function.update_of_ne hvu, Function.update_self], hfr.congr fun b hb _ => habove b hb, ?_⟩
      have hword : m.mem s.current = e - 16 := hword
      refine ⟨?_, ?_, ?_, ?_⟩
      · show s.current + 4 ≤ m.mem s.current
        omega
      · show Holds m.mem (m.mem s.current) _
        rw [hword]
        exact hwords
      · show e + 4 = m.mem s.current + 20
        omega
      · show m.mem s.current + 20 ≤ s.floor s.current
        omega
    · obtain ⟨saved'', p, ha'', hfr'', hp''⟩ := h.stacks hall v hv hvt
      exact ⟨saved'', p, by rw [Function.update_of_ne hvu, Function.update_of_ne hvt]; exact ha'', hfr'', hp''⟩
  · have hesp : m.reg .esp = s.mem u + 20 := by rw [← hq.esp, ← hparked]; rfl
    refine ⟨?_, ?_, ?_⟩
    · show m.seg .ss = _
      rw [hseg]
      exact (h.inKernel hk).1
    · show u ≤ m.reg .esp
      omega
    · show m.reg .esp ≤ s.floor u
      omega
  · have hmu : fromUser (m.seg .cs) = true := hmu
    rw [hseg, hk] at hmu
    exact Bool.noConfusion hmu

/-- A new task, with what has been built in its page. -/
theorem Inv.add (h : Inv s a) {u : Nat} (b : Bool) (fs : List (Bool × Nat)) (saved : List Saved) (p : Parked)
    (hu : s.Fresh u) (hmem : s.Leaves mem)
    (hfr : Frames mem b (u + PAGE_SIZE) fs saved) (hp : ParkedAt mem (lowest (u + PAGE_SIZE) fs) u p) :
    a u = none ∧
      Inv { s with
        machine := { s.machine with mem := mem }
        tasks := Function.update s.tasks u true
        user := Function.update s.user u b
        frames := Function.update s.frames u fs } (Function.update a u (some ⟨saved, some p⟩)) := by
  have hnew : ∀ v, s.tasks v = true → v ≠ u := fun v hv e => by
    rw [e, hu.unknown] at hv
    exact Bool.noConfusion hv
  have hcur : s.current ≠ u := hnew _ h.alive
  obtain ⟨saved', ha, hfr'⟩ := h.running
  refine ⟨h.unknown u hu.unknown, fun v hv => ?_, ?_, fun v hv => ?_, ⟨saved', ?_, ?_⟩, fun v hv hvt => ?_, fun hk => ?_,
    fun hu' => ?_, fun hus => ?_⟩
  · by_cases e : v = u
    · rw [e]
      exact ⟨hu.page, hu.lt⟩
    · simp only [Function.update_of_ne e] at hv
      exact h.page v hv
  · simp only [Function.update_of_ne hcur]
    exact h.alive
  · by_cases e : v = u
    · simp [e] at hv
    · simp only [Function.update_of_ne e] at hv
      rw [Function.update_of_ne e]
      exact h.unknown v hv
  · rw [Function.update_of_ne hcur]
    exact ha
  · simp only [Function.update_of_ne hcur]
    exact hfr'.congr hmem.2
  · by_cases e : v = u
    · subst e
      simp only [Cpu.floor, Function.update_self]
      exact ⟨saved, p, rfl, hfr, hp⟩
    · simp only [Cpu.floor, Function.update_of_ne e] at hv ⊢
      exact h.stacks hmem.1 v hv hvt
  · simp only [Cpu.floor, Function.update_of_ne hcur]
    exact h.inKernel hk
  · simp only [Function.update_of_ne hcur]
    exact h.inUser hu'
  · simp only [Function.update_of_ne hcur] at hus
    exact h.esp0 hus

/-- `task_create`. -/
theorem Inv.create (h : Inv s a) {u target : Nat} {b : Bool} (hu : s.Fresh u) (hmem : s.Leaves mem)
    (hbuild : ∀ c, c = u ∨ u + PAGE_SIZE - TASK_FRAME ≤ c ∧ c < u + PAGE_SIZE → mem c = taskCreate target u s.mem c) :
    ∃ a', a.step (.create u ⟨0x33333333, 0x22222222, 0x11111111, 0x44444444, target, u + PAGE_SIZE⟩) = some a' ∧
      Inv { s with
        machine := { s.machine with mem := mem }
        tasks := Function.update s.tasks u true
        user := Function.update s.user u b
        frames := Function.update s.frames u [] } a' := by
  have h4 : PAGE_SIZE = 4096 := rfl
  have h20 : TASK_FRAME = 20 := rfl
  obtain ⟨e, he⟩ : ∃ e, e = u + PAGE_SIZE - TASK_FRAME := ⟨_, rfl⟩
  have hword : mem u = e := by
    rw [hbuild u (.inl rfl), he]
    exact Function.update_self ..
  have hbuilt : ∀ i, i < 20 → mem (e + i) = taskCreate target u s.mem (e + i) := fun i hi =>
    hbuild _ (.inr ⟨by omega, by omega⟩)
  have hwords : Holds mem e [0x33333333, 0x22222222, 0x11111111, 0x44444444, target] := by
    have hue : ∀ i, e + i ≠ u := fun i => by omega
    have hue₀ : e ≠ u := hue 0
    simp only [Holds, and_true, Nat.add_assoc, Nat.reduceAdd]
    refine ⟨(hbuilt 0 (by decide)).trans ?_, (hbuilt 4 (by decide)).trans ?_, (hbuilt 8 (by decide)).trans ?_,
      (hbuilt 12 (by decide)).trans ?_, (hbuilt 16 (by decide)).trans ?_⟩ <;>
      simp [taskCreate, ← he, hue, hue₀]
  obtain ⟨hnone, hinv⟩ := h.add b [] []
    ⟨0x33333333, 0x22222222, 0x11111111, 0x44444444, target, u + PAGE_SIZE⟩ hu hmem trivial
    ⟨by omega, by rw [hword]; exact hwords, by show u + PAGE_SIZE = _; omega, by show mem u + 20 ≤ u + PAGE_SIZE; omega⟩
  exact ⟨_, by rw [Threads.step, hnone], hinv⟩

/-- `task_fork`. -/
theorem Inv.fork (h : Inv s a) {u : Nat} (hu : s.Fresh u)
    (hf : s.frames s.current = [(true, s.current + PAGE_SIZE - INTR_FRAME)])
    (hcs : fromUser (s.mem (s.current + PAGE_SIZE - INTR_FRAME + 64)) = true) (hmem : s.Leaves mem)
    (hbuild : ∀ c, c = u ∨ u + PAGE_SIZE - INTR_FRAME - TASK_FRAME ≤ c ∧ c < u + PAGE_SIZE →
      mem c = taskBuildStack exit u (copyPage s.mem u s.current) c) :
    ∃ a', a.step (.fork s.current u
        ⟨0xaa55aa55, 0xaa55aa55, 0xaa55aa55, 0xaa55aa55, exit, u + PAGE_SIZE - INTR_FRAME⟩) = some a' ∧
      Inv { s with
        machine := { s.machine with mem := mem }
        tasks := Function.update s.tasks u true
        user := Function.update s.user u (s.user s.current)
        frames := Function.update s.frames u [(false, u + PAGE_SIZE - INTR_FRAME)] } a' := by
  have h4 : PAGE_SIZE = 4096 := rfl
  have h80 : INTR_FRAME = 80 := rfl
  have h20 : TASK_FRAME = 20 := rfl
  obtain ⟨d, saved, ha, hcall, hfr, ⟨vector, dummy, vector0, error, hw, -⟩, -⟩ := h.top hf
  obtain ⟨-, hframe, hrest⟩ := hfr
  obtain rfl : saved = [] := by
    cases saved with
    | nil => rfl
    | cons => exact hrest.elim
  have hc : fromUser d.context.cs = true := by
    have hlt : 16 < (d.context.frame vector dummy vector0 error).length := by
      rw [frame_length]
      split <;> omega
    have hget := hw.get hlt
    have hcs' : (d.context.frame vector dummy vector0 error)[16] = d.context.cs := by
      simp [Context.frame, Context.hardware]
    rw [← hcs', ← hget]
    exact hcs
  have hlen : (d.context.frame vector dummy vector0 error).length = 20 := by rw [frame_length, if_pos hc]
  obtain ⟨f, hfe⟩ : ∃ f, f = u + PAGE_SIZE - INTR_FRAME := ⟨_, rfl⟩
  have hword : mem u = f - 20 := by
    rw [hbuild u (.inl rfl), hfe]
    exact Function.update_self ..
  have hbuilt : ∀ c, f - 20 ≤ c → c < u + PAGE_SIZE → mem c = taskBuildStack exit u (copyPage s.mem u s.current) c :=
    fun c hc hc' => hbuild c (.inr ⟨by omega, hc'⟩)
  -- the frame of the child is the one of the parent, with another answer
  have hcopy : Holds (copyPage s.mem u s.current) f (d.context.frame vector dummy vector0 error) := by
    refine hw.shift fun i hi => ?_
    rw [hlen] at hi
    rw [copyPage, if_pos (by omega)]
    congr 1
    omega
  have hchild : Holds mem f (({ d.context with eax := 0 } : Context).frame vector dummy vector0 error) := by
    refine (hcopy.set (n := 0) 8).congr fun c hc hc' => ?_
    rw [List.length_set, hlen] at hc'
    rw [hbuilt c (by omega) (by omega)]
    simp (disch := omega) [taskBuildStack, Function.update_apply, ← hfe]
  have hwords : Holds mem (f - 20) [0xaa55aa55, 0xaa55aa55, 0xaa55aa55, 0xaa55aa55, exit] := by
    obtain ⟨e, he⟩ : ∃ e, e = f - 20 := ⟨_, rfl⟩
    have hef : u + PAGE_SIZE - INTR_FRAME - TASK_FRAME = e := by omega
    have hue : ∀ i, e + i ≠ u := fun i => by omega
    have hue₀ : e ≠ u := hue 0
    have hb : ∀ i, i < 20 → mem (e + i) = taskBuildStack exit u (copyPage s.mem u s.current) (e + i) := fun i hi =>
      hbuilt _ (by omega) (by omega)
    rw [← he]
    simp only [Holds, and_true, Nat.add_assoc, Nat.reduceAdd]
    refine ⟨(hb 0 (by decide)).trans ?_, (hb 4 (by decide)).trans ?_, (hb 8 (by decide)).trans ?_,
      (hb 12 (by decide)).trans ?_, (hb 16 (by decide)).trans ?_⟩ <;>
      simp [taskBuildStack, hef, hue, hue₀]
  obtain ⟨hnone, hinv⟩ := h.add (s.user s.current) [(false, f)] [⟨false, { d.context with eax := 0 }⟩]
    ⟨0xaa55aa55, 0xaa55aa55, 0xaa55aa55, 0xaa55aa55, exit, f⟩ hu hmem
    ⟨rfl, ⟨⟨_, _, _, _, hchild⟩, fun _ => ⟨(hframe.ofUser hc).1, by omega, rfl⟩,
      fun e => by rw [show fromUser d.context.cs = false from e] at hc; exact Bool.noConfusion hc⟩, trivial⟩
    ⟨by omega, by rw [hword]; exact hwords, by show f = _; omega, by show mem u + 20 ≤ f; omega⟩
  obtain ⟨dcall, dcontext⟩ := d
  have hcall : dcall = true := hcall
  subst hcall
  rw [← hfe]
  exact ⟨_, by rw [Threads.step, ha, hnone], hinv⟩

/-- The page of a task that has died. -/
theorem Inv.free (h : Inv s a) {u : Nat} (hu : s.tasks u = true) (hne : u ≠ s.current) :
    ∃ a', a.step (.free u) = some a' ∧ Inv { s with tasks := Function.update s.tasks u false } a' := by
  obtain ⟨saved, p, ha, -, -⟩ := h.parked u hu hne
  refine ⟨Function.update a u none, by rw [Threads.step, ha], fun v hv => ?_, ?_, fun v hv => ?_, ?_,
    fun v hv hvt => ?_, h.inKernel, h.inUser, h.esp0⟩
  · by_cases e : v = u
    · simp [e] at hv
    · simp only [Function.update_of_ne e] at hv
      exact h.page v hv
  · simp only [Function.update_of_ne hne.symm]
    exact h.alive
  · by_cases e : v = u
    · rw [e, Function.update_self]
    · simp only [Function.update_of_ne e] at hv
      rw [Function.update_of_ne e]
      exact h.unknown v hv
  · rw [Function.update_of_ne hne.symm]
    exact h.running
  · by_cases e : v = u
    · simp [e] at hv
    · simp only [Function.update_of_ne e] at hv
      rw [Function.update_of_ne e]
      exact h.parked v hv hvt

end Inv

/-! ## 5. Runs -/

section Runs

variable {exit : Nat} {s s' s₀ : Cpu} {a a' : Threads} {es es' : List Event} {e : Event}

theorem Threads.run_append : a.run (es ++ es') = (a.run es).bind fun a => a.run es' := by
  induction es generalizing a with
  | nil => rfl
  | cons e es ih =>
    rw [List.cons_append, Threads.run, Threads.run, Option.bind_assoc]
    exact congrArg _ (funext fun a => ih)

theorem Threads.run_one (h : ∃ a', a.step e = some a' ∧ Inv s a') : ∃ a', a.run [e] = some a' ∧ Inv s a' := by
  obtain ⟨a', ha, hi⟩ := h
  refine ⟨a', ?_, hi⟩
  rw [Threads.run, ha]
  rfl

/-- **A step of the processor is one of the tasks**, or none. -/
theorem step_inv (hs : Step exit s es s') (h : Inv s a) : ∃ a', a.run es = some a' ∧ Inv s' a' := by
  cases hs with
  | code m hk hm hcs hss hlow hhigh =>
    obtain ⟨hdata, -, -⟩ := h.inKernel hk
    refine ⟨a, rfl, h.machine hm (fun _ => ⟨hss.trans hdata, by omega, hhigh⟩) fun hu => ?_⟩
    rw [hcs, hk] at hu
    exact Bool.noConfusion hu
  | user m hu hu' hm =>
    obtain ⟨hnil, hus⟩ := h.inUser hu
    have hothers : s.Others m.mem := fun u hut hne => by
      obtain ⟨_, p, -, -, hp⟩ := h.parked u hut hne
      have hlow := hp.low
      have hhigh := hp.high
      have hfloor := h.floor_le hut
      exact ⟨hm u hut u le_rfl (by omega), fun b hb hb' => hm u hut b (by omega) hb'⟩
    refine ⟨a, rfl, h.machine ⟨hothers, fun b hb hb' => ?_⟩ (fun hk => ?_) fun _ => ⟨hnil, hus⟩⟩
    · have hend : s.floor s.current = s.current + PAGE_SIZE := by rw [Cpu.floor, hnil, lowest]
      omega
    · rw [hu'] at hk
      exact Bool.noConfusion hk
  | trap vector entry code m hroom hm => exact Threads.run_one (h.trap hroom hm)
  | call entry m₁ m₂ m hroom hm₁ hreg hseg hmem hm => exact Threads.run_one (h.call hroom hm₁ hreg hseg hmem hm)
  | resume rest m hk hf hm => exact Threads.run_one (h.resume hk hf hm)
  | answer rest m hk hf hm => exact Threads.run_one (h.answer hk hf hm)
  | enter mem c vector dummy vector0 error m hk hu hf hmem hc hframe hm =>
    exact Threads.run_one (h.enter hu hf hmem hc hframe hm)
  | switch u back m hk hu hne hlow hhigh hback hnext hm =>
    exact Threads.run_one (h.switch hk hu hne hlow hhigh hback hnext hm)
  | create u target b mem hk hu hmem hbuild => exact Threads.run_one (h.create hu hmem hbuild)
  | fork u mem hk hu hf hcs hmem hbuild => exact Threads.run_one (h.fork hu hf hcs hmem hbuild)
  | free u hu hne => exact Threads.run_one (h.free hu hne)

/-- What `task_setup` leaves: one task, in the kernel. -/
structure Cpu.Start (s : Cpu) : Prop where
  page : PAGE_SIZE ∣ s.current ∧ s.current + PAGE_SIZE < 2 ^ 32
  alone : ∀ u, s.tasks u = true ↔ u = s.current
  kernel : s.user s.current = false ∧ s.frames s.current = []
  segments : fromUser (s.machine.seg .cs) = false ∧ s.machine.seg .ss = KERNEL_DATA_SELECTOR
  stack : s.current ≤ s.machine.reg .esp ∧ s.machine.reg .esp ≤ s.current + PAGE_SIZE

/-- One task, which runs. -/
def Threads.start (t : Nat) : Threads := Function.update (fun _ => none) t (some ⟨[], none⟩)

theorem Cpu.Start.inv (h : s.Start) : Inv s (Threads.start s.current) := by
  obtain ⟨hkernel, hnil⟩ := h.kernel
  obtain ⟨hcs, hss⟩ := h.segments
  have hcur : s.tasks s.current = true := (h.alone _).mpr rfl
  refine ⟨fun u hu => ?_, hcur, fun u hu => ?_, ⟨[], Function.update_self .., ?_⟩, fun u hu hne => ?_, fun _ => ?_,
    fun hu => ?_, fun hu => ?_⟩
  · rw [(h.alone u).mp hu]
    exact h.page
  · have hne : u ≠ s.current := fun e => by rw [e, hcur] at hu; exact Bool.noConfusion hu
    exact Function.update_of_ne hne ..
  · rw [hnil]
    trivial
  · exact absurd ((h.alone u).mp hu) hne
  · rw [Cpu.floor, hnil]
    exact ⟨hss, h.stack⟩
  · rw [hcs] at hu
    exact Bool.noConfusion hu
  · rw [hkernel] at hu
    exact Bool.noConfusion hu

/-- **Every run of the processor is one of tasks with registers of their own**: what each goes on with is what it
    was interrupted in, or was left with, whatever the others and the kernel have done in between. -/
theorem threads_refined (h₀ : s₀.Start) (h : Steps exit s₀ es s) :
    ∃ a, (Threads.start s₀.current).run es = some a ∧ Inv s a := by
  induction h with
  | start => exact ⟨_, rfl, h₀.inv⟩
  | step _ hs ih =>
    obtain ⟨a, ha, hi⟩ := ih
    obtain ⟨a', ha', hi'⟩ := step_inv hs hi
    refine ⟨a', ?_, hi'⟩
    rw [Threads.run_append, ha]
    exact ha'

end Runs

/-- A task that has called `task_switch(0x20000)` from 7. -/
def Sample.boot : Cpu where
  machine :=
    { reg := fun
        | .ebx => 1
        | .esi => 2
        | .edi => 3
        | .ebp => 4
        | .esp => 0x10f00
        | _ => 0
      seg := fun
        | .cs => 8
        | _ => 16
      eip := 5
      eflags := 0
      mem := fun a => if a = 0x10f00 then 7 else if a = 0x10f04 then 0x20000 else 0 }
  esp0 := 0
  current := 0x10000
  tasks := fun u => u == 0x10000
  user := fun _ => false
  frames := fun _ => []

def Sample.created : Cpu :=
  { Sample.boot with
    machine := { Sample.boot.machine with mem := taskCreate 9 0x20000 Sample.boot.mem }
    tasks := Function.update Sample.boot.tasks 0x20000 true
    user := Function.update Sample.boot.user 0x20000 true
    frames := Function.update Sample.boot.frames 0x20000 [] }

def Sample.switched : Cpu :=
  { Sample.created with
    machine := ret (Sample.created.machine.execs taskSwitch)
    esp0 := 0x21000
    current := 0x20000 }

theorem Sample.boot_start : Sample.boot.Start where
  page := ⟨by decide, by decide⟩
  alone := fun u => by simp [Sample.boot]
  kernel := ⟨rfl, rfl⟩
  segments := ⟨rfl, rfl⟩
  stack := ⟨by decide, by decide⟩

/-- A task is created, and goes on. -/
theorem Sample.steps : Steps 6 Sample.boot
    [.create 0x20000 ⟨0x33333333, 0x22222222, 0x11111111, 0x44444444, 9, 0x21000⟩,
      .switch 0x10000 ⟨3, 2, 1, 4, 7, 0x10f04⟩ 0x20000 ⟨0x33333333, 0x22222222, 0x11111111, 0x44444444, 9, 0x21000⟩]
    Sample.switched := by
  have hfresh : Sample.boot.Fresh 0x20000 := ⟨rfl, by decide, by decide⟩
  have hleaves : Sample.boot.Leaves (taskCreate 9 0x20000 Sample.boot.mem) := by
    refine ⟨fun u hu hne => absurd (by simpa [Sample.boot] using hu) hne, fun b hb hb' => ?_⟩
    have hb' : b < 0x11000 := hb'
    simp (disch := omega) [taskCreate, PAGE_SIZE, TASK_FRAME, Function.update_of_ne]
  have h₁ : Step 6 Sample.boot _ Sample.created :=
    .create Sample.boot 0x20000 9 true _ rfl hfresh hleaves fun _ _ => rfl
  have h₂ : Step 6 Sample.created _ Sample.switched :=
    .switch Sample.created 0x20000 7 _ rfl rfl (by decide) (by decide) (by decide) (by decide +kernel)
      (by decide +kernel) rfl
  have hq : parked (ret (Sample.created.machine.execs taskSwitch)) =
      ⟨0x33333333, 0x22222222, 0x11111111, 0x44444444, 9, 0x21000⟩ := by decide +kernel
  rw [hq] at h₂
  exact (Steps.start.step h₁).step h₂

theorem threads_refined_created : ∃ a, (Threads.start 0x10000).run
      [.create 0x20000 ⟨0x33333333, 0x22222222, 0x11111111, 0x44444444, 9, 0x21000⟩,
        .switch 0x10000 ⟨3, 2, 1, 4, 7, 0x10f04⟩ 0x20000
          ⟨0x33333333, 0x22222222, 0x11111111, 0x44444444, 9, 0x21000⟩] = some a ∧
    Inv Sample.switched a :=
  threads_refined Sample.boot_start Sample.steps

end Yuios.Entry
