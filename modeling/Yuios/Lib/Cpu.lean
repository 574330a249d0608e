/-
  File:      Yuios/Lib/Cpu.lean
  Subject:   A 32-BIT PROCESSOR WITH A STACK: the instructions that save and restore registers, and what
             they do to a stack in memory.

  Memory is words at byte addresses. A stack grows down, and is always a whole number of words from its end.

  * `Machine`, `Instr`, `Machine.exec` -- the registers, and one instruction after the other.
  * `Holds` -- the words from an address on. `Machine.Stack` -- the words from `esp` to the end of the stack.
  * `stack_pushes`, `stack_drop`, `stack_popa` -- what the stack is afterwards, and which words have changed.
  * `page_and` -- a mask takes an address to the beginning of its page.
-/
import Mathlib.Algebra.Group.Nat.Defs
import Mathlib.Logic.Function.Basic
import Mathlib.Data.Nat.Bitwise

namespace Yuios.Lib.Cpu

/-! ## 1. Registers and memory -/

inductive Reg where
  | eax | ecx | edx | ebx | esp | ebp | esi | edi
  deriving DecidableEq

inductive Seg where
  | ds | es | fs | gs | cs | ss
  deriving DecidableEq

/-- Registers, and the words of the memory. -/
structure Machine where
  reg : Reg → Nat
  seg : Seg → Nat
  eip : Nat
  eflags : Nat
  mem : Nat → Nat

inductive Instr where
  | push (r : Reg)
  | pushSeg (s : Seg)
  | pushImm (n : Nat)
  | pop (r : Reg)
  | popSeg (s : Seg)
  | pusha
  | popa
  | mov (dst src : Reg)
  /-- `mov dst, [base + off]` -/
  | load (dst base : Reg) (off : Nat)
  /-- `mov [base + off], src` -/
  | store (base : Reg) (off : Nat) (src : Reg)
  | and (r : Reg) (n : Nat)
  | add (r : Reg) (n : Nat)

namespace Machine

variable (m : Machine)

def setReg (r : Reg) (n : Nat) : Machine := { m with reg := Function.update m.reg r n }

def setSeg (s : Seg) (n : Nat) : Machine := { m with seg := Function.update m.seg s n }

def setMem (a n : Nat) : Machine := { m with mem := Function.update m.mem a n }

/-- The word goes below `esp`. -/
def push (n : Nat) : Machine :=
  let sp := (m.reg .esp + (2 ^ 32 - 4)) % 2 ^ 32
  (m.setReg .esp sp).setMem sp n

def pushes (ns : List Nat) : Machine := ns.foldl push m

/-- The word at `esp`. -/
def top : Nat := m.mem (m.reg .esp)

/-- The word at `esp` is left behind. -/
def drop : Machine := m.setReg .esp ((m.reg .esp + 4) % 2 ^ 32)

/-- The eight registers, `esp` as it is before. -/
def pusha : Machine :=
  m.pushes [m.reg .eax, m.reg .ecx, m.reg .edx, m.reg .ebx, m.reg .esp, m.reg .ebp, m.reg .esi, m.reg .edi]

/-- The eight words that `pusha` pushes; the one of `esp` is skipped. -/
def popa : Machine :=
  let at' (i : Nat) := m.mem ((m.reg .esp + 4 * i) % 2 ^ 32)
  { m with reg := fun
      | .edi => at' 0
      | .esi => at' 1
      | .ebp => at' 2
      | .ebx => at' 4
      | .edx => at' 5
      | .ecx => at' 6
      | .eax => at' 7
      | .esp => (m.reg .esp + 32) % 2 ^ 32 }

def exec : Instr → Machine
  | .push r => m.push (m.reg r)
  | .pushSeg s => m.push (m.seg s)
  | .pushImm n => m.push n
  | .pop r => m.drop.setReg r m.top
  | .popSeg s => m.drop.setSeg s m.top
  | .pusha => m.pusha
  | .popa => m.popa
  | .mov dst src => m.setReg dst (m.reg src)
  | .load dst base off => m.setReg dst (m.mem ((m.reg base + off) % 2 ^ 32))
  | .store base off src => m.setMem ((m.reg base + off) % 2 ^ 32) (m.reg src)
  | .and r n => m.setReg r (m.reg r &&& n)
  | .add r n => m.setReg r ((m.reg r + n) % 2 ^ 32)

/-- One instruction after the other. -/
def execs (text : List Instr) : Machine := text.foldl exec m

end Machine

/-! ## 2. Words in memory -/

/-- The words from `a` on are these. -/
def Holds (mem : Nat → Nat) : (a : Nat) → List Nat → Prop
  | _, [] => True
  | a, n :: ns => mem a = n ∧ Holds mem (a + 4) ns

section Holds

variable {mem mem' : Nat → Nat} {a b n : Nat} {ns ns' : List Nat}

theorem holds_append : Holds mem a (ns ++ ns') ↔ Holds mem a ns ∧ Holds mem (a + 4 * ns.length) ns' := by
  induction ns generalizing a with
  | nil => simp [Holds]
  | cons n ns ih =>
    have e : a + 4 + 4 * ns.length = a + 4 * (ns.length + 1) := by omega
    rw [List.cons_append, Holds, Holds, ih, List.length_cons, e, and_assoc]

/-- The same words lie somewhere else. -/
theorem Holds.shift (h : Holds mem a ns) (he : ∀ i, i < 4 * ns.length → mem' (b + i) = mem (a + i)) :
    Holds mem' b ns := by
  induction ns generalizing a b with
  | nil => trivial
  | cons n ns ih =>
    have hlen : (n :: ns).length = ns.length + 1 := rfl
    refine ⟨(he 0 (by omega)).trans h.1, ih h.2 fun i hi => ?_⟩
    rw [Nat.add_assoc, Nat.add_assoc]
    exact he (4 + i) (by omega)

/-- The words rest on their own addresses. -/
theorem Holds.congr (h : Holds mem a ns) (he : ∀ b, a ≤ b → b < a + 4 * ns.length → mem' b = mem b) :
    Holds mem' a ns :=
  h.shift fun i hi => he (a + i) (Nat.le_add_right a i) (Nat.add_lt_add_left hi a)

theorem Holds.get (h : Holds mem a ns) {i : Nat} (hi : i < ns.length) : mem (a + 4 * i) = ns[i] := by
  induction ns generalizing a i with
  | nil => cases hi
  | cons n ns ih =>
    cases i with
    | zero => exact h.1
    | succ i =>
      have h := ih h.2 (Nat.lt_of_succ_lt_succ hi)
      rw [show a + 4 * (i + 1) = a + 4 + 4 * i by omega]
      exact h

/-- A word of them is written. -/
theorem Holds.set (h : Holds mem a ns) (i : Nat) :
    Holds (Function.update mem (a + 4 * i) n) a (ns.set i n) := by
  induction ns generalizing a i with
  | nil => trivial
  | cons w ns ih =>
    cases i with
    | zero =>
      refine ⟨Function.update_self .., h.2.congr fun b hb _ => Function.update_of_ne (by omega) ..⟩
    | succ i =>
      have e : a + 4 * (i + 1) = a + 4 + 4 * i := by omega
      rw [e]
      exact ⟨(Function.update_of_ne (by omega) ..).trans h.1, ih h.2 i⟩

end Holds

/-! ## 3. The stack -/

/-- **The stack from `esp` up to `limit`.** -/
structure Machine.Stack (m : Machine) (limit : Nat) (ns : List Nat) : Prop where
  words : Holds m.mem (m.reg .esp) ns
  size : m.reg .esp + 4 * ns.length = limit
  room : limit < 2 ^ 32

section Stack

variable {m : Machine} {limit n : Nat} {ns ns' : List Nat} {r : Reg} {s : Seg}

@[simp] theorem push_reg (hr : r ≠ .esp) : (m.push n).reg r = m.reg r := by
  simp [Machine.push, Machine.setMem, Machine.setReg, hr]

@[simp] theorem push_seg : (m.push n).seg = m.seg := rfl

@[simp] theorem push_eip : (m.push n).eip = m.eip := rfl

@[simp] theorem push_eflags : (m.push n).eflags = m.eflags := rfl

theorem pushes_append : m.pushes (ns ++ ns') = (m.pushes ns).pushes ns' := List.foldl_append

@[simp] theorem pushes_reg (hr : r ≠ .esp) : (m.pushes ns).reg r = m.reg r := by
  induction ns generalizing m with
  | nil => rfl
  | cons n ns ih => exact (ih (m := m.push n)).trans (push_reg hr)

@[simp] theorem pushes_seg : (m.pushes ns).seg = m.seg := by
  induction ns generalizing m with
  | nil => rfl
  | cons n ns ih => exact ih (m := m.push n)

@[simp] theorem pushes_eip : (m.pushes ns).eip = m.eip := by
  induction ns generalizing m with
  | nil => rfl
  | cons n ns ih => exact ih (m := m.push n)

@[simp] theorem pushes_eflags : (m.pushes ns).eflags = m.eflags := by
  induction ns generalizing m with
  | nil => rfl
  | cons n ns ih => exact ih (m := m.push n)

theorem push_esp (h4 : 4 ≤ m.reg .esp) (hlt : m.reg .esp < 2 ^ 32) : (m.push n).reg .esp = m.reg .esp - 4 := by
  have h : (m.reg .esp + (2 ^ 32 - 4)) % 2 ^ 32 = m.reg .esp - 4 := by omega
  simp only [Machine.push, Machine.setMem, Machine.setReg, Function.update_self]
  exact h

/-- A push writes one word. -/
theorem push_mem (h4 : 4 ≤ m.reg .esp) (hlt : m.reg .esp < 2 ^ 32) :
    (m.push n).mem = Function.update m.mem (m.reg .esp - 4) n := by
  have h : (m.reg .esp + (2 ^ 32 - 4)) % 2 ^ 32 = m.reg .esp - 4 := by omega
  simp only [Machine.push, Machine.setMem, Machine.setReg]
  rw [h]

/-- **Words are pushed**: they are on the stack, and no other word has changed. -/
theorem stack_pushes {ns : List Nat} (ns' : List Nat) (h : m.Stack limit ns) (hroom : 4 * ns'.length ≤ m.reg .esp) :
    (m.pushes ns').Stack limit (ns'.reverse ++ ns) ∧ (m.pushes ns').reg .esp + 4 * ns'.length = m.reg .esp ∧
      ∀ a, a < (m.pushes ns').reg .esp ∨ m.reg .esp ≤ a → (m.pushes ns').mem a = m.mem a := by
  induction ns' generalizing m ns with
  | nil => exact ⟨h, rfl, fun _ _ => rfl⟩
  | cons n ns' ih =>
    have hlen : (n :: ns').length = ns'.length + 1 := rfl
    have hsize := h.size
    have hlt : m.reg .esp < 2 ^ 32 := by have := h.room; omega
    have hesp := push_esp (n := n) (show 4 ≤ m.reg .esp by omega) hlt
    have hmem := push_mem (n := n) (show 4 ≤ m.reg .esp by omega) hlt
    have hstack : (m.push n).Stack limit (n :: ns) := by
      refine ⟨⟨by rw [hesp, hmem, Function.update_self], ?_⟩, ?_, h.room⟩
      · have e : m.reg .esp - 4 + 4 = m.reg .esp := by omega
        rw [hesp, e]
        exact h.words.congr fun b hb _ => by rw [hmem, Function.update_of_ne (by omega)]
      · rw [hesp, List.length_cons]
        omega
    obtain ⟨h₁, h₂, h₃⟩ := ih hstack (by omega)
    refine ⟨?_, ?_, fun a ha => ?_⟩
    · rw [List.reverse_cons, List.append_assoc]
      exact h₁
    · show ((m.push n).pushes ns').reg .esp + 4 * (ns'.length + 1) = m.reg .esp
      omega
    · show ((m.push n).pushes ns').mem a = m.mem a
      have ha : a < ((m.push n).pushes ns').reg .esp ∨ m.reg .esp ≤ a := ha
      rw [h₃ a (by omega), hmem, Function.update_of_ne (by omega)]

/-- Registers other than `esp` do not matter to the stack. -/
theorem Machine.Stack.congr {m' : Machine} (h : m.Stack limit ns) (hesp : m'.reg .esp = m.reg .esp)
    (hmem : m'.mem = m.mem) : m'.Stack limit ns :=
  ⟨by rw [hesp, hmem]; exact h.words, by rw [hesp]; exact h.size, h.room⟩

end Stack

/-- The beginning of the page. -/
theorem page_and {a : Nat} (h : a < 2 ^ 32) : a &&& 0xfffff000 = a - a % 4096 := by
  have e : a - a % 4096 = a / 2 ^ 12 * 2 ^ 12 := by omega
  rw [e, ← Nat.shiftRight_eq_div_pow, ← Nat.shiftLeft_eq]
  refine Nat.eq_of_testBit_eq fun i => ?_
  have hc : (0xfffff000 : Nat) = (2 ^ 20 - 1) <<< 12 := by decide
  rw [Nat.testBit_and, hc, Nat.testBit_shiftLeft, Nat.testBit_shiftLeft, Nat.testBit_shiftRight,
    Nat.testBit_two_pow_sub_one]
  by_cases h₁ : 12 ≤ i
  · by_cases h₂ : i < 32
    · have : i - 12 < 20 := by omega
      simp [h₁, this]
    · have hlt : a < 2 ^ i := lt_of_lt_of_le h (Nat.pow_le_pow_right (by decide) (by omega))
      simp [h₁, Nat.testBit_lt_two_pow hlt]
  · simp [h₁]

end Yuios.Lib.Cpu
