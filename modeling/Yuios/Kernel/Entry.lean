/-
  File:      Yuios/Kernel/Entry.lean
  Subject:   THE WAY INTO THE KERNEL AND BACK: `kernel/handler.asm`, and `kernel/schedule.asm` from one
             task to another.

  The texts are the ones of the source, from label to label; what a called C function does lies in between.
  `int`, an interrupt and `iret` are what the processor does.

  * `Context` -- the registers of what is interrupted; `Context.frame` -- the words of `intr_frame_t`.
  * `interrupt`, `interruptHandler`, `interruptExit` -- `exit_context`: what the entry has saved, the exit
    restores.
  * `taskSwitch` -- `switch_parks`, `switch_resumes`: the registers of the task that is left lie on its
    stack, those of the next one are taken from its own.
-/
import Yuios.Lib.Cpu

namespace Yuios.Entry

open Lib.Cpu

/-! ## 1. The texts -/

def KERNEL_CODE_SELECTOR : Nat := 8
def KERNEL_DATA_SELECTOR : Nat := 16

/-- `INTERRUPT_HANDLER`: the vector, and an error code where the processor pushes none. -/
def interruptHandler (vector : Nat) (error : Bool) : List Instr :=
  (if error then [] else [.pushImm 0x20222202]) ++ [.pushImm vector]

/-- `interrupt_entry`, up to the call of the handler. -/
def interruptEntry : List Instr :=
  [.pushSeg .ds, .pushSeg .es, .pushSeg .fs, .pushSeg .gs, .pusha, .load .eax .esp (12 * 4), .push .eax]

/-- `interrupt_exit`, up to `iret`. -/
def interruptExit : List Instr :=
  [.add .esp 4, .popa, .popSeg .gs, .popSeg .fs, .popSeg .es, .popSeg .ds, .add .esp 8]

/-- `syscall_handler`, around the call of `syscall_check`. -/
def syscallCheck : List Instr := [.push .eax]

/-- `syscall_handler`, from there up to the call of the function. -/
def syscallEntry : List Instr :=
  [.add .esp 4, .pushImm 0x20222202, .pushImm 0x80, .pushSeg .ds, .pushSeg .es, .pushSeg .fs, .pushSeg .gs,
    .pusha, .pushImm 0x80, .push .ebp, .push .edi, .push .esi, .push .edx, .push .ecx, .push .ebx]

/-- `syscall_handler`, after the call and up to `interrupt_exit`. -/
def syscallExit : List Instr := [.add .esp (6 * 4), .store .esp (8 * 4) .eax]

/-- `task_switch`, up to `ret`. -/
def taskSwitch : List Instr :=
  [.push .ebp, .mov .ebp .esp, .push .ebx, .push .esi, .push .edi, .mov .eax .esp, .and .eax 0xfffff000,
    .store .eax 0 .esp, .load .eax .ebp 8, .load .esp .eax 0, .pop .edi, .pop .esi, .pop .ebx, .pop .ebp]

/-! ## 2. The processor -/

/-- The registers of what is interrupted. -/
structure Context where
  edi : Nat
  esi : Nat
  ebp : Nat
  ebx : Nat
  edx : Nat
  ecx : Nat
  eax : Nat
  gs : Nat
  fs : Nat
  es : Nat
  ds : Nat
  eip : Nat
  cs : Nat
  eflags : Nat
  esp : Nat
  ss : Nat
  deriving DecidableEq

def context (m : Machine) : Context where
  edi := m.reg .edi
  esi := m.reg .esi
  ebp := m.reg .ebp
  ebx := m.reg .ebx
  edx := m.reg .edx
  ecx := m.reg .ecx
  eax := m.reg .eax
  gs := m.seg .gs
  fs := m.seg .fs
  es := m.seg .es
  ds := m.seg .ds
  eip := m.eip
  cs := m.seg .cs
  eflags := m.eflags
  esp := m.reg .esp
  ss := m.seg .ss

/-- A code segment of the user. -/
def fromUser (cs : Nat) : Bool := cs % 4 == 3

/-- What the processor pushes, of user code with its stack. -/
def Context.hardware (c : Context) : List Nat :=
  [c.eip, c.cs, c.eflags] ++ if fromUser c.cs then [c.esp, c.ss] else []

/-- The words of `intr_frame_t`. -/
def Context.frame (c : Context) (vector dummy vector0 error : Nat) : List Nat :=
  [vector, c.edi, c.esi, c.ebp, dummy, c.ebx, c.edx, c.ecx, c.eax, c.gs, c.fs, c.es, c.ds, vector0, error] ++
    c.hardware

/-- The stack that the kernel goes on with. -/
def stacked (esp0 : Nat) (m : Machine) : Machine :=
  if fromUser (m.seg .cs) then (m.setReg .esp esp0).setSeg .ss KERNEL_DATA_SELECTOR else m

/-- **An interrupt**, or `int`: user code is left on the stack of `tss.esp0`, kernel code on its own. -/
def interrupt (esp0 entry : Nat) (code : Option Nat) (m : Machine) : Machine :=
  let m' := (stacked esp0 m).pushes ((context m).hardware.reverse ++ code.toList)
  { m'.setSeg .cs KERNEL_CODE_SELECTOR with eip := entry, eflags := m.eflags &&& 0xfffffcff }

/-- `iret`. -/
def iret (m : Machine) : Machine :=
  let at' (i : Nat) := m.mem ((m.reg .esp + 4 * i) % 2 ^ 32)
  let m' := { m.setSeg .cs (at' 1) with eip := at' 0, eflags := at' 2 }
  if fromUser (at' 1) then (m'.setReg .esp (at' 3)).setSeg .ss (at' 4)
  else m'.setReg .esp ((m.reg .esp + 12) % 2 ^ 32)

/-- `ret`. -/
def ret (m : Machine) : Machine := { m.drop with eip := m.top }

/-! ## 3. In and out -/

section Frame

variable {m m' : Machine} {limit vector dummy vector0 error entry : Nat} {ns : List Nat} {c : Context}

theorem execs_append (t t' : List Instr) : m.execs (t ++ t') = (m.execs t).execs t' := List.foldl_append

/-- What is saved beyond the frame of the processor. -/
def Context.pushed (c : Context) (esp : Nat) : List Nat :=
  [c.ds, c.es, c.fs, c.gs, c.eax, c.ecx, c.edx, c.ebx, esp, c.ebp, c.esi, c.edi]

/-- The pushes of the entries, one after the other. -/
theorem execs_save : m.execs [.pushSeg .ds, .pushSeg .es, .pushSeg .fs, .pushSeg .gs, .pusha] =
    m.pushes ((context m).pushed ((m.pushes [m.seg .ds, m.seg .es, m.seg .fs, m.seg .gs]).reg .esp)) := by
  simp [Machine.execs, Machine.exec, Machine.pusha, Machine.pushes, context, Context.pushed]

/-- The error code of an interrupt, or what stands for it. -/
def errorWord (code : Option Nat) : Nat := code.getD 0x20222202

theorem stacked_reg {esp0 : Nat} {r : Reg} (hr : r ≠ .esp) : (stacked esp0 m).reg r = m.reg r := by
  unfold stacked
  split
  · simp [Machine.setSeg, Machine.setReg, hr]
  · rfl

theorem stacked_mem {esp0 : Nat} : (stacked esp0 m).mem = m.mem := by
  unfold stacked
  split <;> rfl

theorem stacked_seg {esp0 : Nat} {s : Seg} (hs : s ≠ .ss) : (stacked esp0 m).seg s = m.seg s := by
  unfold stacked
  split
  · simp [Machine.setSeg, Machine.setReg, hs]
  · rfl

/-- The text of the entry for a vector. -/
def trapText (vector : Nat) (code : Option Nat) : List Instr := interruptHandler vector code.isSome ++ interruptEntry

theorem hardware_length : c.hardware.length = if fromUser c.cs then 5 else 3 := by
  unfold Context.hardware
  split <;> rfl

/-- The frame of the processor is on the stack. -/
theorem interrupt_stack {esp0 : Nat} (entry : Nat) (code : Option Nat) (hs : (stacked esp0 m).Stack limit ns)
    (hroom : 24 ≤ (stacked esp0 m).reg .esp) :
    (interrupt esp0 entry code m).Stack limit (code.toList ++ (context m).hardware ++ ns) ∧
      (interrupt esp0 entry code m).reg .esp + 4 * (code.toList.length + (context m).hardware.length) =
        (stacked esp0 m).reg .esp ∧
      ∀ a, a < (interrupt esp0 entry code m).reg .esp ∨ (stacked esp0 m).reg .esp ≤ a →
        (interrupt esp0 entry code m).mem a = m.mem a := by
  have hlen : ((context m).hardware.reverse ++ code.toList).length =
      code.toList.length + (context m).hardware.length := by
    rw [List.length_append, List.length_reverse, Nat.add_comm]
  have hcode : code.toList.length ≤ 1 := by cases code <;> simp
  have hhard : (context m).hardware.length ≤ 5 := by
    rw [hardware_length]
    split <;> omega
  obtain ⟨h₁, h₂, h₃⟩ := stack_pushes ((context m).hardware.reverse ++ code.toList) hs (by omega)
  have hrev : ((context m).hardware.reverse ++ code.toList).reverse ++ ns =
      code.toList ++ (context m).hardware ++ ns := by
    cases code <;> simp
  rw [hrev] at h₁
  rw [hlen] at h₂
  rw [stacked_mem] at h₃
  exact ⟨h₁.congr rfl rfl, h₂, h₃⟩

theorem interrupt_reg {esp0 : Nat} {code : Option Nat} {r : Reg} (hr : r ≠ .esp) :
    (interrupt esp0 entry code m).reg r = m.reg r := (pushes_reg hr).trans (stacked_reg hr)

theorem interrupt_seg {esp0 : Nat} {code : Option Nat} {s : Seg} (hs : s ≠ .ss) (hc : s ≠ .cs) :
    (interrupt esp0 entry code m).seg s = m.seg s := by
  simp [interrupt, Machine.setSeg, hc, stacked_seg hs]

/-- **The entry has saved the registers** in a frame on the stack, and written nothing else. -/
theorem trap_saves {esp0 : Nat} {code : Option Nat} (hs : (stacked esp0 m).Stack limit ns)
    (hroom : 80 ≤ (stacked esp0 m).reg .esp)
    (hm' : m' = (interrupt esp0 entry code m).execs (trapText vector code)) :
    (∃ dummy, m'.Stack limit ((context m).frame vector dummy vector (errorWord code) ++ ns)) ∧
      (∀ a, a < m'.reg .esp ∨ (stacked esp0 m).reg .esp ≤ a → m'.mem a = m.mem a) ∧
      m'.seg .cs = KERNEL_CODE_SELECTOR ∧ m'.seg .ss = (stacked esp0 m).seg .ss := by
  obtain ⟨hs₁, hesp₁, hmem₁⟩ := interrupt_stack entry code hs (by omega)
  have hreg : ∀ r, r ≠ .esp → (interrupt esp0 entry code m).reg r = m.reg r := fun _ => interrupt_reg
  have hseg : ∀ s, s ≠ .ss → s ≠ .cs → (interrupt esp0 entry code m).seg s = m.seg s := fun _ => interrupt_seg
  have hseg' : (interrupt esp0 entry code m).seg .cs = KERNEL_CODE_SELECTOR ∧
      (interrupt esp0 entry code m).seg .ss = (stacked esp0 m).seg .ss := by
    refine ⟨rfl, ?_⟩
    simp [interrupt, Machine.setSeg]
  generalize interrupt esp0 entry code m = m₁ at *
  -- what the text pushes before it reads the vector
  obtain ⟨words, hwords⟩ : ∃ words, words = (if code.isSome then [] else [0x20222202]) ++ [vector] := ⟨_, rfl⟩
  obtain ⟨m₂, hm₂⟩ : ∃ m₂, m₂ = m₁.execs (interruptHandler vector code.isSome) := ⟨_, rfl⟩
  have h₂ : m₂ = m₁.pushes words := by
    rw [hm₂, hwords, interruptHandler]
    cases code <;> rfl
  obtain ⟨d, hd⟩ : ∃ d, d = (m₂.pushes [m₂.seg .ds, m₂.seg .es, m₂.seg .fs, m₂.seg .gs]).reg .esp := ⟨_, rfl⟩
  obtain ⟨m₃, hm₃⟩ : ∃ m₃, m₃ = m₂.execs [.pushSeg .ds, .pushSeg .es, .pushSeg .fs, .pushSeg .gs, .pusha] := ⟨_, rfl⟩
  have hpushed : (context m₂).pushed d = (context m).pushed d := by
    simp [Context.pushed, context, h₂, hreg, hseg]
  have h₃ : m₃ = m₁.pushes (words ++ (context m).pushed d) := by
    rw [hm₃, execs_save, ← hd, hpushed, h₂, pushes_append]
  have hlen : (words ++ (context m).pushed d).length + code.toList.length = 14 := by
    rw [hwords]
    cases code <;> simp [Context.pushed]
  have hhard : (context m).hardware.length ≤ 5 := by
    rw [hardware_length]
    split <;> omega
  obtain ⟨hs₃, hesp₃, hmem₃⟩ := stack_pushes (words ++ (context m).pushed d) hs₁ (by omega)
  have hseg₃ : m₃.seg = m₁.seg := by rw [h₃, pushes_seg]
  rw [← h₃] at hs₃ hesp₃ hmem₃
  have hlist : (words ++ (context m).pushed d).reverse ++ (code.toList ++ (context m).hardware ++ ns) =
      ((context m).frame vector d vector (errorWord code)).tail ++ ns := by
    rw [hwords]
    cases code <;> simp [Context.frame, Context.pushed, errorWord]
  rw [hlist] at hs₃
  -- the vector, on top
  have hvector : m₃.mem ((m₃.reg .esp + 12 * 4) % 2 ^ 32) = vector := by
    have hsize := hs₃.size
    have hlt := hs₃.room
    have hget := hs₃.words.get (i := 12) (by simp [Context.frame])
    rw [Nat.mod_eq_of_lt (by simp [Context.frame] at hsize; omega)]
    simpa [Context.frame] using hget
  obtain ⟨m₄, hm₄⟩ : ∃ m₄, m₄ = m₃.setReg .eax vector := ⟨_, rfl⟩
  have hm' : m' = m₄.pushes [vector] := by
    have htext : trapText vector code = interruptHandler vector code.isSome ++
        ([.pushSeg .ds, .pushSeg .es, .pushSeg .fs, .pushSeg .gs, .pusha] ++ [.load .eax .esp (12 * 4), .push .eax]) := rfl
    rw [hm', htext, execs_append, ← hm₂, execs_append, ← hm₃]
    have hload : m₃.exec (.load .eax .esp (12 * 4)) = m₄ := by
      rw [hm₄, ← hvector]
      rfl
    have hself : m₄.reg .eax = vector := by simp [hm₄, Machine.setReg]
    show (m₃.exec (.load .eax .esp (12 * 4))).push ((m₃.exec (.load .eax .esp (12 * 4))).reg .eax) = m₄.push vector
    rw [hload, hself]
  have hs₄ : m₄.Stack limit (((context m).frame vector d vector (errorWord code)).tail ++ ns) :=
    hs₃.congr (by rw [hm₄]; rfl) (by rw [hm₄]; rfl)
  have hesp₄ : m₄.reg .esp = m₃.reg .esp := by rw [hm₄]; rfl
  have hmem₄ : m₄.mem = m₃.mem := by rw [hm₄]; rfl
  have hseg₄ : m₄.seg = m₁.seg := by rw [hm₄, ← hseg₃]; rfl
  obtain ⟨hs₅, hesp₅, hmem₅⟩ := stack_pushes ([vector]) hs₄ (by simp; omega)
  rw [← hm'] at hs₅ hesp₅ hmem₅
  refine ⟨⟨d, hs₅⟩, fun a ha => ?_, ?_, ?_⟩
  · simp only [List.length_singleton] at hesp₅
    rw [hmem₅ a (by omega), hmem₄, hmem₃ a (by omega), hmem₁ a (by omega)]
  · rw [hm', pushes_seg, hseg₄]
    exact hseg'.1
  · rw [hm', pushes_seg, hseg₄]
    exact hseg'.2

/-- `add esp, n` leaves words behind. -/
theorem stack_add {ns' : List Nat} (hs : m.Stack limit (ns' ++ ns)) {n : Nat} (hn : n = 4 * ns'.length) :
    (m.exec (.add .esp n)).Stack limit ns ∧ (m.exec (.add .esp n)).reg .esp = m.reg .esp + n := by
  have hsize := hs.size
  have hroom := hs.room
  rw [List.length_append] at hsize
  have hesp : (m.exec (.add .esp n)).reg .esp = m.reg .esp + n := by
    simp only [Machine.exec, Machine.setReg, Function.update_self]
    exact Nat.mod_eq_of_lt (by omega)
  refine ⟨⟨?_, by rw [hesp]; omega, hroom⟩, hesp⟩
  rw [hesp, hn]
  exact (holds_append.mp hs.words).2

/-- **`syscall_handler` has saved the registers**, and pushed the arguments of the call, where `syscall_check`
    leaves the registers as they are and writes below its own frame only. -/
theorem syscall_saves {esp0 low : Nat} {m₁ m₂ : Machine} (hs : (stacked esp0 m).Stack limit ns)
    (hroom : low + 104 ≤ (stacked esp0 m).reg .esp)
    (hm₁ : m₁ = (interrupt esp0 entry none m).execs syscallCheck) (hreg : m₂.reg = m₁.reg) (hseg : m₂.seg = m₁.seg)
    (hmem : ∀ a, a < low ∨ m₁.reg .esp ≤ a → m₂.mem a = m₁.mem a) (hm' : m' = m₂.execs syscallEntry) :
    (∃ dummy, m'.Stack limit ([m.reg .ebx, m.reg .ecx, m.reg .edx, m.reg .esi, m.reg .edi, m.reg .ebp] ++
        ((context m).frame 0x80 dummy 0x80 0x20222202 ++ ns))) ∧
      (∀ a, a < low ∨ (stacked esp0 m).reg .esp ≤ a → m'.mem a = m.mem a) ∧
      m'.seg .cs = KERNEL_CODE_SELECTOR ∧ m'.seg .ss = (stacked esp0 m).seg .ss ∧ m'.reg .eax = m.reg .eax := by
  obtain ⟨hsi, hespi, hmemi⟩ := interrupt_stack entry none hs (by omega)
  have hregi : ∀ r, r ≠ .esp → (interrupt esp0 entry none m).reg r = m.reg r := fun _ => interrupt_reg
  have hsegi : ∀ s, s ≠ .ss → s ≠ .cs → (interrupt esp0 entry none m).seg s = m.seg s := fun _ => interrupt_seg
  have hsegi' : (interrupt esp0 entry none m).seg .cs = KERNEL_CODE_SELECTOR ∧
      (interrupt esp0 entry none m).seg .ss = (stacked esp0 m).seg .ss := by
    refine ⟨rfl, ?_⟩
    simp [interrupt, Machine.setSeg]
  have hhard : (context m).hardware.length ≤ 5 := by
    rw [hardware_length]
    split <;> omega
  simp only [Option.toList_none, List.nil_append, List.length_nil, Nat.zero_add] at hsi hespi
  generalize interrupt esp0 entry none m = mi at *
  -- around the call of `syscall_check`
  have h₁ : m₁ = mi.pushes [mi.reg .eax] := hm₁
  obtain ⟨hs₁, hesp₁, hmem₁⟩ := stack_pushes ([mi.reg .eax]) hsi (by simp; omega)
  rw [← h₁] at hs₁ hesp₁ hmem₁
  simp only [List.length_singleton] at hesp₁
  have hs₂ : m₂.Stack limit ([mi.reg .eax] ++ ((context m).hardware ++ ns)) := by
    refine ⟨?_, by rw [hreg]; exact hs₁.size, hs₁.room⟩
    rw [hreg]
    exact hs₁.words.congr fun a ha _ => hmem a (.inr ha)
  obtain ⟨hs₃, hesp₃⟩ := stack_add (n := 4) hs₂ rfl
  obtain ⟨m₃, hm₃⟩ : ∃ m₃, m₃ = m₂.exec (.add .esp 4) := ⟨_, rfl⟩
  rw [← hm₃] at hs₃ hesp₃
  have hreg₃ : ∀ r, r ≠ .esp → m₃.reg r = m.reg r := fun r hr => by
    rw [hm₃, Machine.exec, Machine.setReg]
    simp only [Function.update_of_ne hr, hreg, h₁]
    rw [pushes_reg hr, hregi r hr]
  have hseg₃ : m₃.seg = mi.seg := by
    have h : m₁.seg = mi.seg := by rw [h₁, pushes_seg]
    rw [hm₃, ← h, ← hseg]
    rfl
  have hmem₃ : m₃.mem = m₂.mem := by rw [hm₃]; rfl
  -- the frame, and the arguments
  obtain ⟨m₄, hm₄⟩ : ∃ m₄, m₄ = m₃.pushes [0x20222202, 0x80] := ⟨_, rfl⟩
  obtain ⟨d, hd⟩ : ∃ d, d = (m₄.pushes [m₄.seg .ds, m₄.seg .es, m₄.seg .fs, m₄.seg .gs]).reg .esp := ⟨_, rfl⟩
  have hpushed : (context m₄).pushed d = (context m).pushed d := by
    simp [Context.pushed, context, hm₄, hreg₃, hseg₃, hsegi]
  obtain ⟨m₅, hm₅⟩ : ∃ m₅, m₅ = m₄.execs [.pushSeg .ds, .pushSeg .es, .pushSeg .fs, .pushSeg .gs, .pusha] := ⟨_, rfl⟩
  have h₅ : m₅ = m₃.pushes ([0x20222202, 0x80] ++ (context m).pushed d) := by
    rw [hm₅, execs_save, ← hd, hpushed, hm₄, pushes_append]
  have hargs : m' = m₅.pushes
      [0x80, m.reg .ebp, m.reg .edi, m.reg .esi, m.reg .edx, m.reg .ecx, m.reg .ebx] := by
    have htext : syscallEntry = [.add .esp 4] ++ ([.pushImm 0x20222202, .pushImm 0x80] ++
        ([.pushSeg .ds, .pushSeg .es, .pushSeg .fs, .pushSeg .gs, .pusha] ++ [.pushImm 0x80, .push .ebp, .push .edi,
          .push .esi, .push .edx, .push .ecx, .push .ebx])) := rfl
    have hreg₅ : ∀ r, r ≠ .esp → m₅.reg r = m.reg r := fun r hr => by rw [h₅, pushes_reg hr, hreg₃ r hr]
    have h₃ : m₂.execs [.add .esp 4] = m₃ := hm₃.symm
    have h₄ : m₃.execs [.pushImm 0x20222202, .pushImm 0x80] = m₄ := hm₄.symm
    rw [hm', htext, execs_append, execs_append, execs_append, h₃, h₄, ← hm₅]
    simp [Machine.execs, Machine.exec, Machine.pushes, hreg₅]
  have h₆ : m' = m₃.pushes (([0x20222202, 0x80] ++ (context m).pushed d) ++
      [0x80, m.reg .ebp, m.reg .edi, m.reg .esi, m.reg .edx, m.reg .ecx, m.reg .ebx]) := by
    rw [pushes_append, ← h₅]
    exact hargs
  rw [hreg] at hesp₃
  have hlen : (([0x20222202, 0x80] ++ (context m).pushed d) ++
      [0x80, m.reg .ebp, m.reg .edi, m.reg .esi, m.reg .edx, m.reg .ecx, m.reg .ebx]).length = 21 := by
    simp [Context.pushed]
  obtain ⟨hs₆, hesp₆, hmem₆⟩ := stack_pushes (([0x20222202, 0x80] ++ (context m).pushed d) ++
    [0x80, m.reg .ebp, m.reg .edi, m.reg .esi, m.reg .edx, m.reg .ecx, m.reg .ebx]) hs₃ (by omega)
  rw [hlen] at hesp₆
  rw [← h₆] at hs₆ hesp₆ hmem₆
  refine ⟨⟨d, ?_⟩, fun a ha => ?_, ?_, ?_, ?_⟩
  · simpa [Context.frame, Context.pushed, context] using hs₆
  · rw [hmem₆ a (by omega), hmem₃, hmem a (by omega), hmem₁ a (by omega), hmemi a (by omega)]
  · rw [h₆, pushes_seg, hseg₃]
    exact hsegi'.1
  · rw [h₆, pushes_seg, hseg₃]
    exact hsegi'.2
  · rw [h₆, pushes_reg (by decide), hreg₃ .eax (by decide)]

/-- **The exit restores the registers** of the frame on the stack, and writes nothing. -/
theorem exit_restores (hs : m.Stack limit (c.frame vector dummy vector0 error ++ ns))
    (hk : fromUser c.cs = false → c.esp + 4 * ns.length = limit ∧ c.ss = m.seg .ss)
    (hm' : m' = iret (m.execs interruptExit)) : context m' = c ∧ m'.mem = m.mem := by
  have hsize := hs.size
  have hroom := hs.room
  have hwords := hs.words
  rw [List.length_append] at hsize
  have hlen : (c.frame vector dummy vector0 error).length = 15 + c.hardware.length := by
    simp [Context.frame]
    omega
  have h18 : 3 ≤ c.hardware.length := by
    rw [hardware_length]
    split <;> omega
  rw [holds_append] at hwords
  have hframe := hwords.1
  rw [Context.frame, holds_append] at hframe
  obtain ⟨⟨h₀, h₁, h₂, h₃, h₄, h₅, h₆, h₇, h₈, h₉, h₁₀, h₁₁, h₁₂, h₁₃, h₁₄, -⟩, hhard⟩ := hframe
  simp only [Nat.add_assoc, Nat.reduceAdd] at h₁ h₂ h₃ h₄ h₅ h₆ h₇ h₈ h₉ h₁₀ h₁₁ h₁₂ h₁₃ h₁₄
  obtain ⟨x, hx⟩ : ∃ x, x = m.execs interruptExit := ⟨_, rfl⟩
  have hregs : x.reg .esp = m.reg .esp + 60 ∧ x.mem = m.mem ∧ x.seg .ss = m.seg .ss ∧ x.reg .edi = c.edi ∧
      x.reg .esi = c.esi ∧ x.reg .ebp = c.ebp ∧ x.reg .ebx = c.ebx ∧ x.reg .edx = c.edx ∧ x.reg .ecx = c.ecx ∧
      x.reg .eax = c.eax ∧ x.seg .gs = c.gs ∧ x.seg .fs = c.fs ∧ x.seg .es = c.es ∧ x.seg .ds = c.ds := by
    rw [hx]
    simp (disch := omega) [Machine.execs, interruptExit, Machine.exec, Machine.popa, Machine.drop, Machine.setReg,
      Machine.setSeg, Machine.top, Nat.mod_eq_of_lt, Nat.add_assoc, Function.update_apply, h₁, h₂, h₃, h₅, h₆, h₇,
      h₈, h₉, h₁₀, h₁₁, h₁₂]
  obtain ⟨hesp, hmem, hss, hregs⟩ := hregs
  obtain ⟨hedi, hesi, hebp, hebx, hedx, hecx, heax, hgs, hfs, hes, hds⟩ := hregs
  have hhard : Holds x.mem (x.reg .esp) c.hardware := by
    rw [hmem, hesp]
    exact hhard
  rw [Context.hardware, holds_append] at hhard
  obtain ⟨⟨i₀, i₁, i₂, -⟩, hrest⟩ := hhard
  simp only [Nat.add_assoc, Nat.reduceAdd] at i₁ i₂
  have hlt : x.reg .esp + 4 * c.hardware.length < 2 ^ 32 := by omega
  rw [hardware_length] at hlt
  have hstep : ∀ i, 4 * i < 4 * (if fromUser c.cs then 5 else 3) →
      (x.reg .esp + 4 * i) % 2 ^ 32 = x.reg .esp + 4 * i := fun i hi => Nat.mod_eq_of_lt (by omega)
  have hcs : x.mem ((x.reg .esp + 4 * 1) % 2 ^ 32) = c.cs := by
    rw [hstep 1 (by split <;> omega)]
    exact i₁
  have hip : x.mem ((x.reg .esp + 4 * 0) % 2 ^ 32) = c.eip := by
    rw [hstep 0 (by split <;> omega)]
    exact i₀
  have hfl : x.mem ((x.reg .esp + 4 * 2) % 2 ^ 32) = c.eflags := by
    rw [hstep 2 (by split <;> omega)]
    exact i₂
  rw [hm', ← hx, iret]
  simp only [hcs, hip, hfl]
  cases hu : fromUser c.cs with
  | true =>
    rw [hu] at hrest
    obtain ⟨i₃, i₄, -⟩ := hrest
    rw [hu] at hstep
    simp only [List.length_cons, List.length_nil, Nat.add_assoc, Nat.reduceAdd, Nat.reduceMul] at i₃ i₄
    rw [if_pos rfl, hstep 3 (by simp), hstep 4 (by simp), i₃, i₄]
    refine ⟨?_, hmem⟩
    simp [context, Machine.setReg, Machine.setSeg, hedi, hesi, hebp, hebx, hedx, hecx, heax, hgs, hfs, hes, hds]
  | false =>
    obtain ⟨hsp, hcss⟩ := hk hu
    rw [hu] at hlt
    have hend : (x.reg .esp + 12) % 2 ^ 32 = c.esp := by
      rw [hlen, hardware_length, hu] at hsize
      rw [Nat.mod_eq_of_lt (by simpa using hlt)]
      simp at hsize
      omega
    rw [if_neg Bool.false_ne_true, hend]
    refine ⟨?_, hmem⟩
    simp [context, Machine.setReg, Machine.setSeg, hedi, hesi, hebp, hebx, hedx, hecx, heax, hgs, hfs, hes, hds,
      hss, ← hcss]

/-- The result goes into the frame. -/
theorem syscall_answers {args : List Nat} (hs : m.Stack limit (args ++ (c.frame vector dummy vector0 error ++ ns)))
    (hargs : args.length = 6) (hm' : m' = m.execs syscallExit) :
    m'.Stack limit ({ c with eax := m.reg .eax }.frame vector dummy vector0 error ++ ns) ∧
      m'.reg .esp = m.reg .esp + 24 ∧ m'.mem = Function.update m.mem (m.reg .esp + 56) (m.reg .eax) ∧
        m'.seg = m.seg := by
  obtain ⟨hs₁, hesp⟩ := stack_add (n := 24) hs (by rw [hargs])
  obtain ⟨m₁, hm₁⟩ : ∃ m₁, m₁ = m.exec (.add .esp 24) := ⟨_, rfl⟩
  rw [← hm₁] at hs₁ hesp
  have hmem : m₁.mem = m.mem := by rw [hm₁]; rfl
  have hseg : m₁.seg = m.seg := by rw [hm₁]; rfl
  have heax : m₁.reg .eax = m.reg .eax := by simp [hm₁, Machine.exec, Machine.setReg]
  have hsize := hs₁.size
  have hroom := hs₁.room
  have hlen : 9 ≤ (c.frame vector dummy vector0 error ++ ns).length := by simp [Context.frame]
  have hm' : m' = m₁.setMem (m.reg .esp + 56) (m.reg .eax) := by
    have h : m' = m₁.setMem ((m₁.reg .esp + 8 * 4) % 2 ^ 32) (m₁.reg .eax) := by
      rw [hm', hm₁]
      rfl
    rw [h, heax, Nat.mod_eq_of_lt (by omega), hesp]
  refine ⟨⟨?_, ?_, hroom⟩, ?_, ?_, ?_⟩
  · have h := hs₁.words.set (n := m.reg .eax) 8
    rw [hesp] at h
    rw [hm']
    show Holds (Function.update m₁.mem (m.reg .esp + 56) (m.reg .eax)) (m₁.reg .esp) _
    rw [hesp]
    exact h
  · rw [hm']
    exact hsize
  · rw [hm']
    exact hesp
  · rw [hm', ← hmem]
    rfl
  · rw [hm', ← hseg]
    rfl

end Frame

/-! ## 4. From one task to another -/

/-- What `task_switch` leaves on the stack of a task: the registers that a called function keeps, and where it
    was called. -/
structure Parked where
  edi : Nat
  esi : Nat
  ebx : Nat
  ebp : Nat
  eip : Nat
  esp : Nat
  deriving DecidableEq

/-- `task_frame_t`. -/
def Parked.frame (p : Parked) : List Nat := [p.edi, p.esi, p.ebx, p.ebp, p.eip]

/-- The registers that a function keeps, when it returns. -/
def parked (m : Machine) : Parked where
  edi := m.reg .edi
  esi := m.reg .esi
  ebx := m.reg .ebx
  ebp := m.reg .ebp
  eip := m.eip
  esp := m.reg .esp

section Switch

variable {m m' : Machine} {task next sp back : Nat} {p : Parked}

/-- **`task_switch`**: the registers of the task that calls it lie on its stack, and the first word of its page
    says where; the next task goes on with its own. No other word has changed. -/
theorem switch_parks (hpage : 4096 ∣ task) (hesp : task + 24 ≤ m.reg .esp)
    (hend : m.reg .esp + 8 ≤ task + 4096) (hlt : task + 4096 < 2 ^ 32) (hback : m.mem (m.reg .esp) = back)
    (hnext : m.mem (m.reg .esp + 4) = next) (hother : next + 4096 ≤ task ∨ task + 4096 ≤ next)
    (hsp : m.mem next = sp) (hin : next ≤ sp ∧ sp + 20 ≤ next + 4096) (hnlt : next + 4096 < 2 ^ 32)
    (hp : Holds m.mem sp p.frame) (hpe : p.esp = sp + 20) (hm' : m' = ret (m.execs taskSwitch)) :
    parked m' = p ∧ m'.seg = m.seg ∧
      Holds m'.mem (m.reg .esp - 16)
        [m.reg .edi, m.reg .esi, m.reg .ebx, m.reg .ebp, back] ∧ m'.mem task = m.reg .esp - 16 ∧
      ∀ a, a ≠ task → a < m.reg .esp - 16 ∨ m.reg .esp ≤ a → m'.mem a = m.mem a := by
  generalize he : m.reg .esp = e at *
  -- the registers go on the stack
  have hs : m.Stack e [] := ⟨trivial, by simp [he], by omega⟩
  obtain ⟨m₁, hm₁⟩ : ∃ m₁, m₁ = m.pushes [m.reg .ebp] := ⟨_, rfl⟩
  obtain ⟨hs₁, hesp₁, hmem₁⟩ := stack_pushes ([m.reg .ebp]) hs (by simp; omega)
  rw [← hm₁, he] at hesp₁ hmem₁
  rw [← hm₁] at hs₁
  simp only [List.length_singleton] at hesp₁
  obtain ⟨m₂, hm₂⟩ : ∃ m₂, m₂ = m₁.setReg .ebp (m₁.reg .esp) := ⟨_, rfl⟩
  have hreg₂ : ∀ r, r ≠ .esp → r ≠ .ebp → m₂.reg r = m.reg r := fun r hr hr' => by
    rw [hm₂, Machine.setReg]
    simp only [Function.update_of_ne hr']
    rw [hm₁, pushes_reg hr]
  have hesp₂ : m₂.reg .esp = m₁.reg .esp := by rw [hm₂]; rfl
  have hmem₂ : m₂.mem = m₁.mem := by rw [hm₂]; rfl
  obtain ⟨m₃, hm₃⟩ : ∃ m₃, m₃ = m₂.pushes [m.reg .ebx, m.reg .esi, m.reg .edi] := ⟨_, rfl⟩
  obtain ⟨hs₃, hesp₃, hmem₃⟩ := stack_pushes ([m.reg .ebx, m.reg .esi, m.reg .edi])
    (hs₁.congr hesp₂ hmem₂) (by simp; omega)
  rw [← hm₃] at hs₃ hesp₃ hmem₃
  simp only [List.length_cons, List.length_nil] at hesp₃
  have hebp₃ : m₃.reg .ebp = m₁.reg .esp := by rw [hm₃, pushes_reg (by decide), hm₂]; simp [Machine.setReg]
  have hold₃ : ∀ a, a < e - 16 ∨ e ≤ a → m₃.mem a = m.mem a := fun a ha => by
    rw [hmem₃ a (by omega), hmem₂, hmem₁ a (by omega)]
  have hesp₃ : m₃.reg .esp = e - 16 := by omega
  have hwords₃ : Holds m₃.mem (e - 16) [m.reg .edi, m.reg .esi, m.reg .ebx, m.reg .ebp, back] := by
    have h : Holds m₃.mem (m₃.reg .esp) ([m.reg .edi, m.reg .esi, m.reg .ebx] ++ [m.reg .ebp]) := hs₃.words
    rw [hesp₃] at h
    have h' : Holds m₃.mem (e - 16) (([m.reg .edi, m.reg .esi, m.reg .ebx] ++ [m.reg .ebp]) ++ [back]) := by
      refine holds_append.mpr ⟨h, ?_, trivial⟩
      rw [show e - 16 + 4 * ([m.reg .edi, m.reg .esi, m.reg .ebx] ++ [m.reg .ebp]).length = e by simp; omega,
        hold₃ e (.inr le_rfl), hback]
    exact h'
  -- the first word of the page says where, and that of the next one is read
  have hpage' : (e - 16) &&& 0xfffff000 = task := by
    rw [page_and (by omega)]
    omega
  have h₃ : m₃ = m₂.execs [.push .ebx, .push .esi, .push .edi] := by
    rw [hm₃]
    simp [Machine.execs, Machine.exec, Machine.pushes, hreg₂]
  obtain ⟨m₄, hm₄⟩ : ∃ m₄, m₄ = m₃.execs
    [.mov .eax .esp, .and .eax 0xfffff000, .store .eax 0 .esp, .load .eax .ebp 8, .load .esp .eax 0] := ⟨_, rfl⟩
  have hmem₄ : m₄.mem = Function.update m₃.mem task (e - 16) := by
    rw [hm₄]
    simp (disch := omega) [Machine.execs, Machine.exec, Machine.setReg, Machine.setMem, Function.update_apply, hesp₃,
      hpage', Nat.mod_eq_of_lt]
  have hesp₄ : m₄.reg .esp = sp := by
    have harg : m₃.reg .ebp + 8 = e + 4 := by omega
    have hnext' : m₃.mem (e + 4) = next := by rw [hold₃ (e + 4) (by omega), hnext]
    have hsp' : m₃.mem next = sp := by rw [hold₃ next (by omega), hsp]
    rw [hm₄]
    simp (disch := omega) [Machine.execs, Machine.exec, Machine.setReg, Machine.setMem, Function.update_apply, hesp₃,
      hpage', Nat.mod_eq_of_lt, harg, hnext', hsp']
  have hseg₄ : m₄.seg = m.seg := by
    rw [hm₄]
    show m₃.seg = m.seg
    rw [hm₃, pushes_seg, hm₂]
    show m₁.seg = m.seg
    rw [hm₁, pushes_seg]
  have hmem : ∀ a, a ≠ task → a < e - 16 ∨ e ≤ a → m₄.mem a = m.mem a := fun a ha ha' => by
    rw [hmem₄, Function.update_of_ne ha, hold₃ a ha']
  have hframe : Holds m₄.mem sp p.frame := hp.congr fun a ha ha' => by
    have hlen : p.frame.length = 5 := rfl
    exact hmem a (by omega) (by omega)
  have hm' : m' = ret (m₄.execs [.pop .edi, .pop .esi, .pop .ebx, .pop .ebp]) := by
    have htext : taskSwitch = [.push .ebp, .mov .ebp .esp] ++ ([.push .ebx, .push .esi, .push .edi] ++
        ([.mov .eax .esp, .and .eax 0xfffff000, .store .eax 0 .esp, .load .eax .ebp 8, .load .esp .eax 0] ++
          [.pop .edi, .pop .esi, .pop .ebx, .pop .ebp])) := rfl
    have h₂ : m.execs [.push .ebp, .mov .ebp .esp] = m₂ := by
      rw [hm₂, hm₁]
      rfl
    rw [hm', htext, execs_append, h₂, execs_append, ← h₃, execs_append, ← hm₄]
  obtain ⟨f₀, f₁, f₂, f₃, f₄, -⟩ := hframe
  simp only [Nat.add_assoc, Nat.reduceAdd] at f₁ f₂ f₃ f₄
  refine ⟨?_, ?_, ?_, ?_, ?_⟩
  · rw [hm', ret]
    simp (disch := omega) [Machine.execs, Machine.exec, Machine.setReg, Machine.drop, Machine.top, parked, hesp₄,
      Nat.mod_eq_of_lt, Nat.add_assoc, Function.update_apply, f₀, f₁, f₂, f₃, f₄, ← hpe]
  · rw [hm', ← hseg₄]
    rfl
  · rw [hm']
    show Holds m₄.mem _ _
    refine hwords₃.congr fun a ha ha' => ?_
    simp only [List.length_cons, List.length_nil] at ha'
    rw [hmem₄, Function.update_of_ne (by omega)]
  · rw [hm']
    show m₄.mem task = e - 16
    rw [hmem₄, Function.update_self]
  · rw [hm']
    exact hmem

end Switch

end Yuios.Entry
