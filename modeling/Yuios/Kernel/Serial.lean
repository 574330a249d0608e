/-
  File:      Yuios/Kernel/Serial.lean
  Subject:   A SERIAL PORT AMONG TASKS: `recv_data` and `serial_read` of `kernel/serial.c` on one port,
             with the ring of `lib/fifo.c` and the read lock of `kernel/mutex.c`.

  Any number of tasks call `serial_read`. A call runs with interrupts off up to where it sleeps, waiting
  for the lock or for a byte, or yields while it gives the lock back; a byte can arrive at any switch.

  * `received` and `gone` are the history: the bytes as they arrived, and what has become of those that
    left the ring, in order. A call has a serial number; `bufs` is the memory it reads into.
  * `Handed` -- what the readers are promised.
  * `Inv` -- the invariant: the task in the loop has the lock, and only that task waits for a byte.
  * **`serial_handed`** -- in every state reached.
-/
import Yuios.Kernel.Lock
import Yuios.Pipe.Fifo

namespace Yuios.Serial

open Kernel Pipe

def BUF_LEN : Nat := 64

/-! ## 1. The state -/

/-- Where a task stands: outside, in `lock_acquire`, asleep (or woken and not yet run) in the loop with
    `left` bytes to go, or in `lock_release`. -/
inductive Pc where
  | out
  | acquiring (call count : Nat)
  | reading (call left : Nat)
  | releasing
  deriving DecidableEq

/-- A byte leaves the ring: a call has taken it, or it was given up when byte number `arrival` came. -/
inductive Event where
  | taken (call : Nat) (byte : UInt8)
  | lost (byte : UInt8) (arrival : Nat)
  deriving DecidableEq

/-- The port and the tasks; `block_list` is the lock's `others`. -/
structure State where
  rlock : Lock.State
  fifo : Fifo
  rxWaiter : Option Nat
  pc : Nat → Pc
  calls : Nat
  bufs : Nat → List UInt8
  received : List UInt8
  gone : List Event

/-- After `serial_init`. -/
def init (rxBuf : Nat → UInt8) : State where
  rlock := Lock.lockInit
  fifo := fifoInit rxBuf BUF_LEN
  rxWaiter := none
  pc := fun _ => .out
  calls := 0
  bufs := fun _ => []
  received := []
  gone := []

def State.setPc (s : State) (t : Nat) (p : Pc) : State := { s with pc := Function.update s.pc t p }

@[simp] theorem State.setPc_self (s : State) (t : Nat) (p : Pc) : (s.setPc t p).pc t = p :=
  Function.update_self ..

theorem State.setPc_of_ne {s : State} {t u : Nat} (p : Pc) (h : u ≠ t) : (s.setPc t p).pc u = s.pc u :=
  Function.update_of_ne h ..

/-! ## 2. The code -/

/-- `task_block(task, NULL, TASK_BLOCKED)`. -/
def taskBlock (s : State) (t : Nat) : Except Stop State := do
  assert !s.rlock.linked t
  let rlock ← Lock.act s.rlock (.sleep t)
  return { s with rlock := rlock }

/-- `task_unblock`. -/
def taskUnblock (s : State) (t : Nat) : Except Stop State := do
  assert (t ∈ s.rlock.others)
  let rlock ← Lock.act s.rlock (.wake t)
  return { s with rlock := rlock }

/-- `if (ch == '\r') ch = '\n'`. -/
def newline (ch : UInt8) : UInt8 := if ch = 13 then 10 else ch

/-- What `fifo_put` is about to give up. -/
def overflow (s : State) : List Event :=
  if fifoFull s.fifo then [.lost (s.fifo.buf s.fifo.tail) s.received.length] else []

/-- `recv_data`, with the byte of the data register. -/
def recvData (s : State) (ch : UInt8) : Except Stop State := do
  let fifo ← fifoPut s.fifo (newline ch)
  let s := { s with fifo := fifo, received := s.received ++ [ch], gone := s.gone ++ overflow s }
  match s.rxWaiter with
  | none => return s
  | some w => do
    let s ← taskUnblock s w
    return { s with rxWaiter := none }

/-- `serial_read` behind `lock_acquire`, with `left` bytes to go. -/
def readLoop (t call : Nat) : Nat → State → Except Stop State
  | 0, s => do
    let rlock ← Lock.act s.rlock (.release t false)
    let pc : Pc := if rlock.pc t = .out then .out else .releasing
    return { s with rlock := rlock }.setPc t pc
  | left + 1, s =>
    if fifoEmpty s.fifo then do
      assert s.rxWaiter.isNone
      let s ← taskBlock s t
      return { s with rxWaiter := some t }.setPc t (.reading call (left + 1))
    else do
      let (byte, fifo) ← fifoGet s.fifo
      readLoop t call left { s with
        fifo := fifo
        bufs := Function.update s.bufs call (s.bufs call ++ [byte])
        gone := s.gone ++ [.taken call byte] }

/-- In `lock_acquire`, which has returned or put the task to sleep. -/
def acquired (t call count : Nat) (s : State) : Except Stop State :=
  if s.rlock.pc t = .out then readLoop t call count (s.setPc t (.reading call count))
  else .ok (s.setPc t (.acquiring call count))

/-- `serial_read`. -/
def serialRead (t count : Nat) (s : State) : Except Stop State := do
  let rlock ← Lock.act s.rlock (.acquire t false)
  acquired t s.calls count { s with rlock := rlock, calls := s.calls + 1 }

/-- The task goes on from where it was switched away. -/
def runOn (s : State) (t : Nat) : Pc → Except Stop State
  | .out => .ok s
  | .acquiring call count => do
    let rlock ← Lock.act s.rlock (.resume t)
    acquired t call count { s with rlock := rlock }
  | .reading call left => readLoop t call left s
  | .releasing => do
    let rlock ← Lock.act s.rlock (.resume t)
    return { s with rlock := rlock }.setPc t .out

/-- What can happen: a task calls `serial_read`, a task inside runs on, the port's interrupt finds a byte
    in the data register. -/
inductive Action where
  | read (t count : Nat)
  | resume (t : Nat)
  | receive (ch : UInt8)

def Enabled (s : State) : Action → Prop
  | .read t _ => s.pc t = .out ∧ s.rlock.ready t = true
  | .resume t => s.pc t ≠ .out ∧ s.rlock.ready t = true
  | .receive _ => True

/-- The action, up to the next switch. -/
def act (s : State) : Action → Except Stop State
  | .read t count => serialRead t count s
  | .resume t => runOn s t (s.pc t)
  | .receive ch => recvData s ch

/-- The states reached. -/
inductive Reached : State → Prop where
  | init (rxBuf : Nat → UInt8) : Reached (init rxBuf)
  | step {s s' : State} (h : Reached s) (a : Action) (ha : Enabled s a) (hs : act s a = .ok s') : Reached s'

/-! ## 3. What is to hold -/

namespace Event

def byte : Event → UInt8
  | .taken _ byte => byte
  | .lost byte _ => byte

/-- The call that has the byte. -/
def call? : Event → Option Nat
  | .taken call _ => some call
  | .lost _ _ => none

/-- The byte, for the call that has it. -/
def byteFor (call : Nat) : Event → Option UInt8
  | .taken c byte => if c = call then some byte else none
  | .lost _ _ => none

end Event

/-- The calls that the bytes went to, one after the other. -/
def callsOf (gone : List Event) : List Nat := gone.filterMap Event.call?

/-- The entries of `c` are one piece of the list. -/
def OnePiece (l : List Nat) (c : Nat) : Prop :=
  ∃ before n after, l = before ++ List.replicate n c ++ after ∧ c ∉ before ∧ c ∉ after

/-- **What the readers are promised**: every byte that arrived is gone or in the ring, in the order of
    arrival; a call has the bytes that it has taken, one piece of all that were taken; and a byte is
    given up only when the 63rd after it arrives. -/
structure Handed (s : State) : Prop where
  order : s.gone.map Event.byte ++ s.fifo.contents = s.received.map newline
  bufs : ∀ call, s.bufs call = s.gone.filterMap (Event.byteFor call)
  piece : ∀ call, OnePiece (callsOf s.gone) call
  lost : ∀ i byte arrival, s.gone[i]? = some (.lost byte arrival) →
    arrival = i + 63 ∧ arrival < s.received.length

/-! ## 4. What the lock does -/

section Lock

variable {l : Lock.State} {t : Nat}

/-- Nothing of the lock's tasks has changed but where `t` stands in it. -/
structure Aside (l l' : Lock.State) (t : Nat) : Prop where
  others : l'.others = l.others
  pc : ∀ u, u ≠ t → l'.pc u = l.pc u

/-- `t` has the lock, which was free, or it sleeps and the holder is as before. -/
structure Taken (l l' : Lock.State) (t : Nat) : Prop extends Aside l l' t where
  sound : Lock.Sound l'
  cases : (l'.pc t = .out ∧ l'.holder = some t ∧ l.holder = none ∧ l'.repeats = 1) ∨
    ((∃ intr, l'.pc t = .locking intr) ∧ l'.holder = l.holder ∧ l'.repeats = l.repeats)

theorem mutexLock_taken (h : Lock.Sound l) (hr : l.ready t = true) (hout : l.holder ≠ some t)
    (hi : l.intr = false) (intr : Bool) :
    ∃ l', Lock.mutexLock t intr l = .ok l' ∧ Taken l l' t := by
  obtain ⟨l', hl, hs⟩ := Lock.mutexLock_ok h hr hout hi intr
  refine ⟨l', hl, ?_⟩
  unfold Lock.mutexLock at hl
  by_cases hv : l.value = true
  · rw [if_pos hv, Lock.taskBlock_eq h hr hi] at hl
    obtain rfl := Except.ok.inj hl
    exact ⟨⟨rfl, fun u hu => Function.update_of_ne hu _ _⟩, hs,
      .inr ⟨⟨intr, Function.update_self ..⟩, rfl, rfl⟩⟩
  · rw [if_neg hv] at hl
    have hv : l.value = false := Bool.eq_false_iff.mpr hv
    have hnone : l.holder = none := by
      cases hh : l.holder with
      | none => rfl
      | some u =>
        have := h.taken.mpr (by rw [hh]; rfl)
        rw [hv] at this
        cases this
    have hzero : l.repeats = 0 := h.free hnone
    simp only [hv, hzero] at hl
    obtain rfl := Except.ok.inj hl
    exact ⟨⟨rfl, fun u hu => Function.update_of_ne hu _ _⟩, hs,
      .inl ⟨Function.update_self .., rfl, hnone, rfl⟩⟩

/-- `lock_acquire` by a task that has not got the lock. -/
theorem acquire_taken (h : Lock.Sound l) (hr : l.ready t = true) (hout : l.holder ≠ some t) :
    ∃ l', Lock.act l (.acquire t false) = .ok l' ∧ Taken l l' t := by
  show ∃ l', Lock.lockAcquire t _ = .ok l' ∧ _
  unfold Lock.lockAcquire
  rw [if_pos hout]
  obtain ⟨l', hl, ht⟩ := mutexLock_taken (h.setIntr false) hr hout rfl false
  exact ⟨l', hl, ⟨⟨ht.others, ht.pc⟩, ht.sound, ht.cases⟩⟩

/-- The same, when the task runs on in `mutex_lock`. -/
theorem resume_taken (h : Lock.Sound l) (hr : l.ready t = true) {intr : Bool} (hpc : l.pc t = .locking intr) :
    ∃ l', Lock.act l (.resume t) = .ok l' ∧ Taken l l' t := by
  have hout : l.holder ≠ some t := h.inside t (by rw [hpc]; nofun)
  obtain ⟨l', hl, ht⟩ := mutexLock_taken (h.setIntr false) hr hout rfl intr
  refine ⟨l', ?_, ⟨⟨ht.others, ht.pc⟩, ht.sound, ht.cases⟩⟩
  simp only [Lock.act, hpc]
  exact hl

/-- The lock is given back. -/
theorem release_given (h : Lock.Sound l) (hr : l.ready t = true) (hpc : l.pc t = .out)
    (hh : l.holder = some t) (hone : l.repeats = 1) : ∃ l', Lock.act l (.release t false) = .ok l' ∧
      Lock.Sound l' ∧ Aside l l' t ∧ l'.holder = none ∧ l'.repeats = 0 ∧
      (l'.pc t = .out ∨ ∃ intr, l'.pc t = .yielding intr) := by
  have hpos : 0 < l.nesting t := (h.holder_iff t).mp hh
  obtain ⟨l', hl, hs⟩ := Lock.act_sound h (.release t false) ⟨hpc, hr, hpos⟩
  refine ⟨l', hl, hs, ?_⟩
  have hv : l.value = true := h.taken.mpr (by rw [hh]; rfl)
  have hassert : Kernel.assert (l.holder == some t) = .ok () := by simp [hh]
  have hone' : Kernel.assert (l.repeats == 1) = .ok () := by simp [hone]
  have hunlock : Lock.mutexUnlock t (({ l with intr := false, holder := none, repeats := 0 } :
      Lock.State).setNesting t (l.nesting t - 1)) = .ok l' := by
    rw [← hl]
    simp only [Lock.act, Lock.lockRelease, hassert, hone, if_neg (Nat.lt_irrefl 1)]
    rfl
  unfold Lock.mutexUnlock at hunlock
  simp only [Lock.State.setNesting, hv, beq_self_eq_true, assert_true] at hunlock
  cases hw : l.waiters.getLast? with
  | none =>
    rw [hw] at hunlock
    obtain rfl := Except.ok.inj hunlock
    exact ⟨⟨rfl, fun _ _ => rfl⟩, rfl, rfl, .inl hpc⟩
  | some w =>
    rw [hw] at hunlock
    have hm := List.mem_of_getLast? hw
    have hu := @Lock.taskUnblock_eq { l with
      value := false, intr := false, holder := none, repeats := 0
      nesting := Function.update l.nesting t (l.nesting t - 1) } w rfl hm (h.elsewhere hm) h.waitersNodup
    obtain ⟨-, -, hunlock⟩ := ok_of_bind hunlock
    obtain ⟨-, -, hunlock⟩ := ok_of_bind hunlock
    obtain ⟨l₁, h1, hunlock⟩ := ok_of_bind hunlock
    obtain rfl := Except.ok.inj (hu.symm.trans h1)
    obtain rfl := Except.ok.inj hunlock
    exact ⟨⟨rfl, fun u hne => Function.update_of_ne hne _ _⟩, rfl, rfl,
      .inr ⟨false, Function.update_self ..⟩⟩

end Lock

/-! ## 5. The invariant -/

/-- The call a task is in. -/
def Pc.call? : Pc → Option Nat
  | .out => none
  | .acquiring call _ => some call
  | .reading call _ => some call
  | .releasing => none

/-- Where the task stands for the lock, and whether it has it. -/
def Pc.Fits (l : Lock.State) (t : Nat) : Pc → Prop
  | .out => l.pc t = .out ∧ l.holder ≠ some t
  | .acquiring _ _ => ∃ intr, l.pc t = .locking intr
  | .reading _ _ => l.pc t = .out ∧ l.holder = some t
  | .releasing => ∃ intr, l.pc t = .yielding intr

/-- The entries of `c` are the end of the list. -/
def AtEnd (l : List Nat) (c : Nat) : Prop := ∃ before n, l = before ++ List.replicate n c ∧ c ∉ before

/-- The lock, the waiter and the tasks. -/
structure Linked (s : State) : Prop where
  sound : Lock.Sound s.rlock
  once : s.rlock.repeats ≤ 1
  fits : ∀ t, (s.pc t).Fits s.rlock t
  others : ∀ t, t ∈ s.rlock.others ↔ s.rxWaiter = some t
  waiter : ∀ t, s.rxWaiter = some t → ∃ call left, s.pc t = .reading call left

/-- The calls. -/
structure Numbered (s : State) : Prop where
  below : ∀ t call, (s.pc t).call? = some call → call < s.calls
  distinct : ∀ t u call, (s.pc t).call? = some call → (s.pc u).call? = some call → t = u
  old : ∀ call ∈ callsOf s.gone, call < s.calls
  early : ∀ t call count, s.pc t = .acquiring call count → call ∉ callsOf s.gone
  last : ∀ t call left, s.pc t = .reading call left → AtEnd (callsOf s.gone) call

/-- **The invariant.** -/
structure Inv (s : State) : Prop extends Handed s, Linked s, Numbered s where
  sized : s.fifo.Sized
  length : s.fifo.length = BUF_LEN

theorem inv_init (rxBuf : Nat → UInt8) : Inv (init rxBuf) where
  order := rfl
  bufs := fun _ => rfl
  piece := fun _ => ⟨[], 0, [], rfl, List.not_mem_nil, List.not_mem_nil⟩
  lost := nofun
  sound := Lock.sound_init
  once := Nat.zero_le 1
  fits := fun _ => ⟨rfl, nofun⟩
  others := fun _ => ⟨nofun, nofun⟩
  waiter := nofun
  below := nofun
  distinct := nofun
  old := nofun
  early := nofun
  last := nofun
  sized := ⟨(by decide : 2 ≤ BUF_LEN), (by decide : 0 < BUF_LEN), (by decide : 0 < BUF_LEN)⟩
  length := rfl

/-! ## 6. The history -/

section History

variable {gone : List Event} {call c : Nat} {byte : UInt8}

theorem callsOf_taken : callsOf (gone ++ [.taken call byte]) = callsOf gone ++ [call] := by
  simp [callsOf, Event.call?]

/-- A call that takes another byte. -/
theorem AtEnd.snoc {l : List Nat} (h : AtEnd l call) : AtEnd (l ++ [call]) call := by
  obtain ⟨before, n, rfl, hb⟩ := h
  exact ⟨before, n + 1, by rw [List.append_assoc, List.replicate_succ'], hb⟩

theorem atEnd_new {l : List Nat} (h : call ∉ l) : AtEnd l call :=
  ⟨l, 0, (List.append_nil l).symm, h⟩

theorem AtEnd.onePiece {l : List Nat} (h : AtEnd l call) : OnePiece l call := by
  obtain ⟨before, n, rfl, hb⟩ := h
  exact ⟨before, n, [], (List.append_nil _).symm, hb, List.not_mem_nil⟩

/-- The pieces, when the call at the end takes another byte. -/
theorem OnePiece.snoc {l : List Nat} (h : AtEnd l call) (hp : ∀ c, OnePiece l c) (c : Nat) :
    OnePiece (l ++ [call]) c := by
  by_cases e : c = call
  · rw [e]
    exact h.snoc.onePiece
  · obtain ⟨before, n, after, rfl, hb, ha⟩ := hp c
    refine ⟨before, n, after ++ [call], by rw [List.append_assoc], hb, ?_⟩
    rw [List.mem_append, List.mem_singleton]
    exact not_or.mpr ⟨ha, e⟩

end History

section Steps

variable {s s' : State} {t call count left : Nat} {l : Lock.State} {p : Pc}

/-- Only the task in the loop has the lock. -/
theorem Linked.reader (h : Linked s) {u c n : Nat} (hpc : s.pc u = .reading c n)
    (hh : s.rlock.holder = some t) : u = t := by
  have hf := h.fits u
  rw [hpc] at hf
  exact Option.some.inj (hf.2.symm.trans hh)

theorem Linked.awake (h : Linked s) (hr : s.rlock.ready t = true) : s.rxWaiter ≠ some t := fun e =>
  ((h.sound.ready t).mp hr).2 ((h.others t).mpr e)

/-- A step of `t` in the lock. -/
theorem Linked.step (h : Linked s) (hr : s.rlock.ready t = true) (ha : Aside s.rlock l t)
    (hs : Lock.Sound l) (hone : l.repeats ≤ 1)
    (hh : ∀ u, u ≠ t → (l.holder = some u ↔ s.rlock.holder = some u)) (hp : p.Fits l t) :
    Linked ({ s with rlock := l }.setPc t p) := by
  refine ⟨hs, hone, fun u => ?_, fun u => ?_, fun u hu => ?_⟩
  · by_cases e : u = t
    · rw [e, State.setPc_self]
      exact hp
    · rw [State.setPc_of_ne p e]
      have hf := h.fits u
      show Pc.Fits l u (s.pc u)
      have hpc := ha.pc u e
      cases hu : s.pc u with
      | out =>
        rw [hu] at hf
        exact ⟨hpc.trans hf.1, fun e' => hf.2 ((hh u e).mp e')⟩
      | acquiring c n =>
        rw [hu] at hf
        exact hf.imp fun i hi => hpc.trans hi
      | reading c n =>
        rw [hu] at hf
        exact ⟨hpc.trans hf.1, (hh u e).mpr hf.2⟩
      | releasing =>
        rw [hu] at hf
        exact hf.imp fun i hi => hpc.trans hi
  · show u ∈ l.others ↔ _
    rw [ha.others]
    exact h.others u
  · have e : u ≠ t := fun e => h.awake hr (e ▸ hu)
    rw [State.setPc_of_ne p e]
    exact h.waiter u hu

theorem Taken.holder (h : Taken s.rlock l t) (u : Nat) (hu : u ≠ t) :
    l.holder = some u ↔ s.rlock.holder = some u := by
  rcases h.cases with ⟨-, h1, h2, -⟩ | ⟨-, h1, -⟩
  · rw [h1, h2]
    exact iff_of_false (fun e => hu (Option.some.inj e).symm) nofun
  · rw [h1]

theorem Taken.once (h : Taken s.rlock l t) (hs : Linked s) : l.repeats ≤ 1 := by
  rcases h.cases with ⟨-, -, -, h1⟩ | ⟨-, -, h1⟩
  · exact Nat.le_of_eq h1
  · exact h1 ▸ hs.once

theorem Linked.congr (h : Linked s) (hl : s'.rlock = s.rlock) (hw : s'.rxWaiter = s.rxWaiter)
    (hp : s'.pc = s.pc) : Linked s' := by
  obtain ⟨h1, h2, h3, h4, h5⟩ := h
  rw [← hl, ← hp] at h3
  rw [← hl, ← hw] at h4
  rw [← hp, ← hw] at h5
  exact ⟨hl ▸ h1, hl ▸ h2, h3, h4, h5⟩

/-- A task goes on in its call, or leaves it. -/
theorem Numbered.setPc (h : Numbered s) (hcall : ∀ c, p.call? = some c → (s.pc t).call? = some c)
    (hearly : ∀ c n, p = .acquiring c n → c ∉ callsOf s.gone)
    (hlast : ∀ c n, p = .reading c n → AtEnd (callsOf s.gone) c) : Numbered (s.setPc t p) := by
  have hold (u : Nat) (c : Nat) (hu : ((s.setPc t p).pc u).call? = some c) : (s.pc u).call? = some c := by
    by_cases e : u = t
    · rw [e, State.setPc_self] at hu
      exact e ▸ hcall c hu
    · rwa [State.setPc_of_ne p e] at hu
  refine ⟨fun u c hu => h.below u c (hold u c hu), fun u v c hu hv => ?_, h.old, fun u c n hu => ?_,
    fun u c n hu => ?_⟩
  · exact h.distinct u v c (hold u c hu) (hold v c hv)
  · by_cases e : u = t
    · rw [e, State.setPc_self] at hu
      exact hearly c n hu
    · rw [State.setPc_of_ne p e] at hu
      exact h.early u c n hu
  · by_cases e : u = t
    · rw [e, State.setPc_self] at hu
      exact hlast c n hu
    · rw [State.setPc_of_ne p e] at hu
      exact h.last u c n hu

theorem Numbered.unused (h : Numbered s) : s.calls ∉ callsOf s.gone := fun hm =>
  Nat.lt_irrefl _ (h.old _ hm)

/-- A call begins. -/
theorem Numbered.start (h : Numbered s) (hcall : p.call? = some s.calls) :
    Numbered ({ s with calls := s.calls + 1 }.setPc t p) := by
  have hnew := h.unused
  have hcase (u c : Nat) (hu : (({ s with calls := s.calls + 1 } : State).setPc t p |>.pc u).call? = some c) :
      (u = t ∧ c = s.calls) ∨ (u ≠ t ∧ (s.pc u).call? = some c) := by
    by_cases e : u = t
    · rw [e, State.setPc_self, hcall] at hu
      exact .inl ⟨e, (Option.some.inj hu).symm⟩
    · rw [State.setPc_of_ne p e] at hu
      exact .inr ⟨e, hu⟩
  refine ⟨fun u c hu => ?_, fun u v c hu hv => ?_, fun c hc => Nat.lt_succ_of_lt (h.old c hc),
    fun u c n hu => ?_, fun u c n hu => ?_⟩
  · rcases hcase u c hu with ⟨-, rfl⟩ | ⟨-, hu⟩
    · exact Nat.lt_succ_self _
    · exact Nat.lt_succ_of_lt (h.below u c hu)
  · rcases hcase u c hu with ⟨rfl, rfl⟩ | ⟨-, hu⟩
    · rcases hcase v s.calls hv with ⟨rfl, -⟩ | ⟨-, hv⟩
      · rfl
      · exact absurd (h.below v _ hv) (Nat.lt_irrefl _)
    · rcases hcase v c hv with ⟨-, rfl⟩ | ⟨-, hv⟩
      · exact absurd (h.below u _ hu) (Nat.lt_irrefl _)
      · exact h.distinct u v c hu hv
  · by_cases e : u = t
    · rw [e, State.setPc_self] at hu
      rw [hu] at hcall
      cases hcall
      exact hnew
    · rw [State.setPc_of_ne p e] at hu
      exact h.early u c n hu
  · by_cases e : u = t
    · rw [e, State.setPc_self] at hu
      rw [hu] at hcall
      cases hcall
      exact atEnd_new hnew
    · rw [State.setPc_of_ne p e] at hu
      exact h.last u c n hu

theorem Numbered.congr (h : Numbered s) (hp : s'.pc = s.pc) (hc : s'.calls = s.calls)
    (hg : callsOf s'.gone = callsOf s.gone) : Numbered s' := by
  obtain ⟨h1, h2, h3, h4, h5⟩ := h
  rw [← hp, ← hc] at h1
  rw [← hp] at h2
  rw [← hc, ← hg] at h3
  rw [← hp, ← hg] at h4 h5
  exact ⟨h1, h2, h3, h4, h5⟩

/-- The call in the loop takes the oldest byte. -/
theorem Inv.take (h : Inv s) {f : Fifo} {b : UInt8} {n : Nat} (hpc : s.pc t = .reading call n)
    (hs : f.Sized) (hl : f.length = s.fifo.length) (hc : s.fifo.contents = b :: f.contents) :
    Inv { s with
      fifo := f
      bufs := Function.update s.bufs call (s.bufs call ++ [b])
      gone := s.gone ++ [.taken call b] } := by
  have hend := h.last t call n hpc
  have hcall : (s.pc t).call? = some call := by rw [hpc]; rfl
  have hfit := h.fits t
  rw [hpc] at hfit
  refine ⟨⟨?_, fun c => ?_, fun c => ?_, fun i byte arrival hi => ?_⟩, h.toLinked.congr rfl rfl rfl,
    ⟨h.below, h.distinct, fun c hc' => ?_, fun u c m hu => ?_, fun u c m hu => ?_⟩, hs, hl.trans h.length⟩
  · rw [List.map_append, List.append_assoc, ← h.order, hc]
    rfl
  · show Function.update s.bufs call _ c = _
    rw [List.filterMap_append, ← h.bufs c]
    by_cases e : c = call
    · rw [e, Function.update_self]
      simp [Event.byteFor]
    · rw [Function.update_of_ne e]
      simp [Event.byteFor, Ne.symm e]
  · rw [callsOf_taken]
    exact OnePiece.snoc hend h.piece c
  · rw [List.getElem?_append] at hi
    by_cases hlt : i < s.gone.length
    · rw [if_pos hlt] at hi
      exact h.lost i byte arrival hi
    · rw [if_neg hlt] at hi
      have := List.mem_singleton.mp (List.mem_of_getElem? hi)
      cases this
  · rw [callsOf_taken, List.mem_append, List.mem_singleton] at hc'
    rcases hc' with hc' | rfl
    · exact h.old c hc'
    · exact h.below t _ hcall
  · rw [callsOf_taken, List.mem_append, List.mem_singleton]
    rintro (hm | rfl)
    · exact h.early u c m hu hm
    · have := h.distinct u t c (by rw [hu]; rfl) hcall
      rw [this, hpc] at hu
      cases hu
  · rw [callsOf_taken]
    obtain rfl := h.toLinked.reader hu hfit.2
    obtain ⟨rfl, -⟩ := Pc.reading.inj (hpc.symm.trans hu)
    exact hend.snoc

/-- While the task in the loop runs, nobody waits for a byte. -/
theorem Linked.unwaited (h : Linked s) {n : Nat} (hpc : s.pc t = .reading call n)
    (hr : s.rlock.ready t = true) : s.rxWaiter = none := by
  have hfit := h.fits t
  rw [hpc] at hfit
  cases hw : s.rxWaiter with
  | none => rfl
  | some w =>
    obtain ⟨c, m, hreads⟩ := h.waiter w hw
    rw [h.reader hreads hfit.2] at hw
    exact absurd hw (h.awake hr)

/-- The task in the loop falls asleep. -/
theorem Linked.sleep (h : Linked s) {n : Nat} (hpc : s.pc t = .reading call n)
    (hr : s.rlock.ready t = true) (left : Nat) : ∃ l, taskBlock s t = .ok { s with rlock := l } ∧
      Linked ({ s with rlock := l, rxWaiter := some t }.setPc t (.reading call left)) := by
  have hfit := h.fits t
  rw [hpc] at hfit
  have hnone := h.unwaited hpc hr
  refine ⟨{ s.rlock with others := t :: s.rlock.others, ready := Function.update s.rlock.ready t false },
    ?_, h.sound.sleep hr hfit.1, h.once, fun u => ?_, fun u => ?_, fun u hu => ?_⟩
  · rw [taskBlock, h.sound.unlinked hr]
    rfl
  · by_cases e : u = t
    · rw [e, State.setPc_self]
      exact hfit
    · rw [State.setPc_of_ne _ e]
      have := h.fits u
      cases hu : s.pc u with
      | out => rwa [hu] at this
      | acquiring c m => rwa [hu] at this
      | reading c m => rwa [hu] at this
      | releasing => rwa [hu] at this
  · show u ∈ t :: s.rlock.others ↔ some t = some u
    rw [List.mem_cons, h.others u, hnone, Option.some.injEq]
    exact ⟨fun e => (e.resolve_right nofun).symm, fun e => .inl e.symm⟩
  · obtain rfl := Option.some.inj hu
    exact ⟨call, left, State.setPc_self ..⟩

/-- **The loop of `serial_read`.** -/
theorem readLoop_inv (h : Inv s) {n : Nat} (hpc : s.pc t = .reading call n)
    (hr : s.rlock.ready t = true) : ∃ s', readLoop t call left s = .ok s' ∧ Inv s' := by
  induction left generalizing s with
  | zero =>
    have hfit := h.fits t
    rw [hpc] at hfit
    obtain ⟨hout, hh⟩ := hfit
    have hpos := (h.sound.held (by rw [hh]; rfl)).1
    have hone : s.rlock.repeats = 1 := Nat.le_antisymm h.once hpos
    obtain ⟨l, hl, hs, ha, hnone, hzero, hp⟩ := release_given h.sound hr hout hh hone
    obtain ⟨p, hp'⟩ : ∃ p : Pc, p = if l.pc t = .out then .out else .releasing := ⟨_, rfl⟩
    have hfits : p.Fits l t ∧ p.call? = none := by
      rw [hp']
      rcases hp with e | ⟨i, e⟩
      · rw [if_pos e]
        exact ⟨⟨e, by rw [hnone]; nofun⟩, rfl⟩
      · rw [if_neg (by rw [e]; nofun)]
        exact ⟨⟨i, e⟩, rfl⟩
    refine ⟨({ s with rlock := l } : State).setPc t p, ?_, ⟨⟨h.order, h.bufs, h.piece, h.lost⟩, ?_, ?_,
      h.sized, h.length⟩⟩
    · rw [readLoop, hl, hp']
      rfl
    · refine h.toLinked.step hr ha hs (hzero ▸ Nat.zero_le 1) (fun u hu => ?_) hfits.1
      rw [hnone, hh]
      exact iff_of_false nofun fun e => hu (Option.some.inj e).symm
    · have hnum : Numbered ({ s with rlock := l } : State) := h.toNumbered.congr rfl rfl rfl
      refine hnum.setPc (fun c hc => ?_) (fun c m e => ?_) (fun c m e => ?_)
      · rw [hfits.2] at hc
        cases hc
      · rw [e] at hfits
        cases hfits.2
      · rw [e] at hfits
        cases hfits.2
  | succ left ih =>
    rw [readLoop]
    by_cases he : fifoEmpty s.fifo = true
    · rw [if_pos he, h.toLinked.unwaited hpc hr]
      obtain ⟨l, hl, hlink⟩ := h.toLinked.sleep hpc hr (left + 1)
      refine ⟨_, bind_of_ok (a := ()) rfl (bind_of_ok hl rfl), ⟨h.order, h.bufs, h.piece, h.lost⟩, hlink, ?_, h.sized, h.length⟩
      have hnum : Numbered ({ s with rlock := l, rxWaiter := some t } : State) :=
        h.toNumbered.congr rfl rfl rfl
      refine hnum.setPc (fun c hc => ?_) nofun (fun c m e => ?_)
      · exact (congrArg Pc.call? hpc).trans hc
      · cases e
        exact h.last t call n hpc
    · rw [if_neg he]
      obtain ⟨b, f, hg, hs, hl, hc⟩ := fifoGet_cons h.sized (Bool.eq_false_iff.mpr he)
      rw [hg]
      exact ih (h.take hpc hs hl hc) hpc hr

/-- In `lock_acquire`: the call is in the loop, or waits for the lock. -/
theorem acquired_inv (h : Handed s) (hz : s.fifo.Sized) (hlen : s.fifo.length = BUF_LEN)
    (hreads : s.rlock.pc t = .out → Linked (s.setPc t (.reading call count)) ∧
      Numbered (s.setPc t (.reading call count)))
    (hwaits : s.rlock.pc t ≠ .out → Linked (s.setPc t (.acquiring call count)) ∧
      Numbered (s.setPc t (.acquiring call count)))
    (hr : s.rlock.pc t = .out → s.rlock.ready t = true) :
    ∃ s', acquired t call count s = .ok s' ∧ Inv s' := by
  rw [acquired]
  by_cases hp : s.rlock.pc t = .out
  · rw [if_pos hp]
    obtain ⟨hlink, hnum⟩ := hreads hp
    exact readLoop_inv ⟨⟨h.order, h.bufs, h.piece, h.lost⟩, hlink, hnum, hz, hlen⟩ (State.setPc_self ..) (hr hp)
  · rw [if_neg hp]
    obtain ⟨hlink, hnum⟩ := hwaits hp
    exact ⟨_, rfl, ⟨h.order, h.bufs, h.piece, h.lost⟩, hlink, hnum, hz, hlen⟩

/-- A task that is in the loop or outside can run on, unless it waits for the lock. -/
theorem Taken.ready (h : Taken s.rlock l t) (hw : s.rxWaiter ≠ some t) (hs : Linked s)
    (hp : l.pc t = .out) : l.ready t = true := by
  refine (h.sound.ready t).mpr ⟨fun hm => ?_, fun hm => ?_⟩
  · obtain ⟨i, hi⟩ := h.sound.waiting t hm
    rw [hp] at hi
    cases hi
  · rw [h.others] at hm
    exact hw ((hs.others t).mp hm)

/-- What the task is for the lock then. -/
theorem Taken.fits (h : Taken s.rlock l t) (call count : Nat) :
    (l.pc t = .out → (Pc.reading call count).Fits l t) ∧
      (l.pc t ≠ .out → (Pc.acquiring call count).Fits l t) := by
  rcases h.cases with ⟨hp, hh, -, -⟩ | ⟨⟨i, hp⟩, -, -⟩
  · exact ⟨fun _ => ⟨hp, hh⟩, fun hne => absurd hp hne⟩
  · refine ⟨fun e => ?_, fun _ => ⟨i, hp⟩⟩
    rw [hp] at e
    cases e

/-- **`serial_read`** begins. -/
theorem serialRead_inv (h : Inv s) (hpc : s.pc t = .out) (hr : s.rlock.ready t = true) :
    ∃ s', serialRead t count s = .ok s' ∧ Inv s' := by
  have hfit := h.fits t
  rw [hpc] at hfit
  obtain ⟨l, hl, ht⟩ := acquire_taken h.sound hr hfit.2
  obtain ⟨hreads, hwaits⟩ := ht.fits s.calls count
  have hstep (p : Pc) (hp : p.Fits l t) (hcall : p.call? = some s.calls) :
      Linked ({ s with rlock := l, calls := s.calls + 1 }.setPc t p) ∧
        Numbered ({ s with rlock := l, calls := s.calls + 1 }.setPc t p) :=
    ⟨(h.toLinked.step hr ht.toAside ht.sound (ht.once h.toLinked) ht.holder hp).congr rfl rfl rfl,
      (h.toNumbered.start hcall).congr rfl rfl rfl⟩
  rw [serialRead, hl]
  exact acquired_inv ⟨h.order, h.bufs, h.piece, h.lost⟩ h.sized h.length
    (fun hp => hstep _ (hreads hp) rfl) (fun hp => hstep _ (hwaits hp) rfl)
    (ht.ready (h.toLinked.awake hr) h.toLinked)

/-- A task runs on. -/
theorem runOn_inv (h : Inv s) (hr : s.rlock.ready t = true) :
    ∃ s', runOn s t (s.pc t) = .ok s' ∧ Inv s' := by
  have hfit := h.fits t
  cases hpc : s.pc t with
  | out => exact ⟨s, rfl, h⟩
  | acquiring call count =>
    rw [hpc] at hfit
    obtain ⟨i, hi⟩ := hfit
    obtain ⟨l, hl, ht⟩ := resume_taken h.sound hr hi
    obtain ⟨hreads, hwaits⟩ := ht.fits call count
    have hcall : (s.pc t).call? = some call := by rw [hpc]; rfl
    have hearly := h.early t call count hpc
    have hnum : Numbered { s with rlock := l } := h.toNumbered.congr rfl rfl rfl
    rw [runOn, hl]
    refine acquired_inv ⟨h.order, h.bufs, h.piece, h.lost⟩ h.sized h.length (fun hp => ⟨?_, ?_⟩)
      (fun hp => ⟨?_, ?_⟩) (ht.ready (h.toLinked.awake hr) h.toLinked)
    · exact h.toLinked.step hr ht.toAside ht.sound (ht.once h.toLinked) ht.holder (hreads hp)
    · refine hnum.setPc (fun c hc => hc ▸ hcall) (fun _ _ e => by cases e) (fun c m e => ?_)
      cases e
      exact atEnd_new hearly
    · exact h.toLinked.step hr ht.toAside ht.sound (ht.once h.toLinked) ht.holder (hwaits hp)
    · refine hnum.setPc (fun c hc => hc ▸ hcall) (fun c m e => ?_) fun _ _ e => by cases e
      cases e
      exact hearly
  | reading call left => exact readLoop_inv h hpc hr
  | releasing =>
    rw [hpc] at hfit
    obtain ⟨i, hi⟩ := hfit
    have hgo := h.sound.goOn hr (fun j e => by rw [hi] at e; cases e) i
    have hout : s.rlock.holder ≠ some t := h.sound.inside t (by rw [hi]; exact fun e => by cases e)
    have hact : Lock.act s.rlock (.resume t) = .ok ({ s.rlock with intr := i }.setPc t .out) := by
      simp only [Lock.act, hi]
    have hnum : Numbered { s with rlock := { s.rlock with intr := i }.setPc t .out } :=
      h.toNumbered.congr rfl rfl rfl
    refine ⟨_, bind_of_ok hact rfl, ⟨h.order, h.bufs, h.piece, h.lost⟩, ?_,
      hnum.setPc (fun _ e => by cases e) (fun _ _ e => by cases e) (fun _ _ e => by cases e), h.sized, h.length⟩
    exact h.toLinked.step hr ⟨rfl, fun u hu => Function.update_of_ne hu _ _⟩ hgo h.once
      (fun _ _ => Iff.rfl) ⟨Function.update_self .., hout⟩

/-- The byte that `fifo_put` gives up is the oldest of 63. -/
theorem overflow_cases (h : Inv s) : (fifoFull s.fifo = false ∧ overflow s = []) ∨
    (fifoFull s.fifo = true ∧ ∃ b, overflow s = [.lost b s.received.length] ∧
      s.fifo.contents = b :: s.fifo.contents.tail ∧ s.gone.length + 63 = s.received.length) := by
  rw [overflow]
  cases hf : fifoFull s.fifo with
  | false => exact .inl ⟨rfl, rfl⟩
  | true =>
    have hused := (fifoFull_iff h.sized).mp hf
    rw [h.length] at hused
    have he : fifoEmpty s.fifo = false := Bool.eq_false_iff.mpr fun e => by
      have := (fifoEmpty_iff h.sized).mp e
      rw [this] at hused
      cases hused
    obtain ⟨b, f, hg, -, -, hc⟩ := fifoGet_cons h.sized he
    have hb : s.fifo.buf s.fifo.tail = b := by
      rw [fifoGet, he] at hg
      exact (Prod.mk.inj (Except.ok.inj hg)).1
    refine .inr ⟨rfl, b, by rw [hb]; rfl, by rw [hc, List.tail_cons], ?_⟩
    have := congrArg List.length h.order
    simp only [List.length_append, List.length_map, Fifo.length_contents] at this
    have hlen : BUF_LEN = 64 := rfl
    omega

/-- `fifo_put` in `recv_data`. -/
theorem put_spec (h : Inv s) (ch : UInt8) : ∃ f, fifoPut s.fifo (newline ch) = .ok f ∧ f.Sized ∧
    f.length = s.fifo.length ∧
    (overflow s).map Event.byte ++ f.contents = s.fifo.contents ++ [newline ch] := by
  rcases overflow_cases h with ⟨hf, ho⟩ | ⟨hf, b, ho, hc, -⟩
  · obtain ⟨f, hp, hs, hl, hcont⟩ := fifoPut_room h.sized hf (newline ch)
    exact ⟨f, hp, hs, hl, by rw [ho, hcont]; rfl⟩
  · obtain ⟨f, hp, hs, hl, hcont⟩ := fifoPut_full h.sized hf (newline ch)
    refine ⟨f, hp, hs, hl, ?_⟩
    rw [ho, hcont, hc]
    rfl

/-- No call has what is given up. -/
theorem overflow_calls (h : Inv s) : callsOf (s.gone ++ overflow s) = callsOf s.gone ∧
    ∀ c, (s.gone ++ overflow s).filterMap (Event.byteFor c) = s.gone.filterMap (Event.byteFor c) := by
  rcases overflow_cases h with ⟨-, ho⟩ | ⟨-, b, ho, -, -⟩
  · rw [ho, List.append_nil]
    exact ⟨rfl, fun _ => rfl⟩
  · rw [ho, callsOf, List.filterMap_append]
    exact ⟨List.append_nil _, fun c => by rw [List.filterMap_append]; exact List.append_nil _⟩

/-- The history with the byte. -/
theorem Handed.receive (h : Inv s) {f : Fifo} (ch : UInt8)
    (hc : (overflow s).map Event.byte ++ f.contents = s.fifo.contents ++ [newline ch]) :
    Handed { s with fifo := f, received := s.received ++ [ch], gone := s.gone ++ overflow s } := by
  obtain ⟨hcalls, hbytes⟩ := overflow_calls h
  refine ⟨?_, fun c => ?_, fun c => ?_, fun i byte arrival hi => ?_⟩
  · rw [List.map_append, List.append_assoc, hc, ← List.append_assoc, h.order, List.map_append]
    rfl
  · rw [hbytes]
    exact h.bufs c
  · rw [hcalls]
    exact h.piece c
  · rw [List.getElem?_append] at hi
    rw [List.length_append]
    by_cases hlt : i < s.gone.length
    · rw [if_pos hlt] at hi
      obtain ⟨h1, h2⟩ := h.lost i byte arrival hi
      exact ⟨h1, Nat.lt_add_right 1 h2⟩
    · rw [if_neg hlt] at hi
      rcases overflow_cases h with ⟨-, ho⟩ | ⟨-, b, ho, -, hlen⟩
      · rw [ho] at hi
        cases hi
      · rw [ho] at hi
        have hone : i - s.gone.length < 1 := (List.getElem?_eq_some_iff.mp hi).1
        have hzero : i = s.gone.length := by omega
        rw [hzero, Nat.sub_self] at hi
        cases hi
        exact ⟨by omega, Nat.lt_succ_self _⟩

/-- The waiter is woken. -/
theorem Linked.wake (h : Linked s) {w : Nat} (hw : s.rxWaiter = some w) :
    ∃ l, taskUnblock s w = .ok { s with rlock := l } ∧ Linked { s with rlock := l, rxWaiter := none } := by
  have hm := (h.others w).mpr hw
  refine ⟨{ s.rlock with
    others := s.rlock.others.erase w, ready := Function.update s.rlock.ready w true }, ?_,
    h.sound.wake hm, h.once, fun u => ?_, fun u => ?_, nofun⟩
  · rw [taskUnblock, decide_eq_true hm]
    rfl
  · have := h.fits u
    cases hu : s.pc u with
    | out => rwa [hu] at this
    | acquiring c m => rwa [hu] at this
    | reading c m => rwa [hu] at this
    | releasing => rwa [hu] at this
  · show u ∈ s.rlock.others.erase w ↔ none = some u
    rw [h.sound.othersNodup.mem_erase_iff, h.others u, hw]
    exact iff_of_false (fun ⟨hne, e⟩ => hne (Option.some.inj e).symm) nofun

/-- **A byte arrives.** -/
theorem recvData_inv (h : Inv s) (ch : UInt8) : ∃ s', recvData s ch = .ok s' ∧ Inv s' := by
  obtain ⟨f, hp, hs, hl, hc⟩ := put_spec h ch
  obtain ⟨s₁, hs₁⟩ : ∃ s₁ : State, s₁ =
    { s with fifo := f, received := s.received ++ [ch], gone := s.gone ++ overflow s } := ⟨_, rfl⟩
  have hinv : Inv s₁ := by
    rw [hs₁]
    exact ⟨Handed.receive h ch hc, h.toLinked.congr rfl rfl rfl,
      h.toNumbered.congr rfl rfl (overflow_calls h).1, hs, hl.trans h.length⟩
  have hrun : recvData s ch = match s₁.rxWaiter with
      | none => .ok s₁
      | some w => taskUnblock s₁ w >>= fun s => .ok { s with rxWaiter := none } := by
    rw [recvData, hp, hs₁]
    rfl
  rw [hrun]
  cases hw : s₁.rxWaiter with
  | none => exact ⟨s₁, rfl, hinv⟩
  | some w =>
    obtain ⟨l, hun, hlink⟩ := hinv.toLinked.wake hw
    exact ⟨_, bind_of_ok hun rfl, ⟨hinv.order, hinv.bufs, hinv.piece, hinv.lost⟩, hlink,
      hinv.toNumbered.congr rfl rfl rfl, hinv.sized, hinv.length⟩

theorem act_inv (h : Inv s) (a : Action) (ha : Enabled s a) : ∃ s', act s a = .ok s' ∧ Inv s' := by
  cases a with
  | read t count => exact serialRead_inv h ha.1 ha.2
  | resume t => exact runOn_inv h ha.2
  | receive ch => exact recvData_inv h ch

theorem reached_inv (h : Reached s) : Inv s := by
  induction h with
  | init rxBuf => exact inv_init rxBuf
  | step _ a ha hs ih =>
    obtain ⟨s', hs', h'⟩ := act_inv ih a ha
    cases hs.symm.trans hs'
    exact h'

end Steps

end Yuios.Serial
