/-
  File:      Yuios/Fs/Machine.lean
  Subject:   THE MACHINE UNDER A DESCRIPTOR: the calls of `kernel/console.c`, `kernel/keyboard.c`,
             `kernel/serial.c`, `fs/pipe.c`, and of the block devices, as one call makes them.

  * `Act` -- kernel code over the file system, the memory, the disks and the devices.
  * A call that has to wait sleeps. What others make of the channel it sleeps at is not the call's doing:
    `outside` says it, for each time.
  * `moved` -- the history: the bytes that calls have carried between memory and an object, in order.
  * `Counts` -- a call answers with the number of bytes it has carried: the keyboard, the serial ports, a
    pipe. `consoleWrite_over` and `Sectors` -- the console and the block devices do not.
-/
import Yuios.Fs.Process
import Yuios.Disk.Drivers
import Yuios.Pipe.Fifo

namespace Yuios.Rw

open Lib Prog Code Disk Pipe

/-! ## 1. The machine -/

/-- The static variables of `kernel/console.c` that change. -/
structure Console where
  screen : UInt32
  pos : UInt32
  x : UInt32
  y : UInt32

/-- A ring with the tasks that sleep at it. -/
structure Channel where
  fifo : Fifo
  rxwaiter : Option Nat
  txwaiter : Option Nat

/-- Where the rings are: the keyboard's, the two of the serial ports, and the page of a pipe inode. -/
inductive Place where
  | keyboard
  | serial (i : Fin 2)
  | pipe (inode : Nat)
  deriving DecidableEq

inductive CharDevice where
  | console
  | keyboard
  | serial (i : Fin 2)
  deriving DecidableEq

/-- An installed device; the drivers of the block devices are in `Yuios/Disk/Drivers.lean`. -/
inductive Device where
  | char (c : CharDevice)
  | block (d : {d : Driver // d.type = .block})

/-- What the `k`-th sleep and the `k`-th look at a line status find, and how often a task that nothing
    has come for is put to sleep again. -/
structure Outside where
  wake : Nat → Channel → Channel
  status : Nat → UInt8
  patience : Nat

structure Machine where
  kernel : Kernel
  world : Disk.World
  devices : Nat → Option Device
  console : Console
  channel : Place → Channel
  outside : Outside
  sleeps : Nat
  looks : Nat
  moved : List UInt8

/-- Kernel code over the machine. -/
abbrev Act := Prog Stop Machine (List Frame)

/-- File-system code. -/
def onKernel {α : Type} : Code α → Act α :=
  Prog.zoom Machine.kernel fun k M => { M with kernel := k }

instance : MonadLift Code Act := ⟨onKernel⟩

namespace Machine

/-- The bytes at `addr`. -/
def bytes (M : Machine) (addr : UInt32) : Bytes := fun j => M.world.mem (addr + UInt32.ofNat j)

def setMem (M : Machine) (mem : UInt32 → UInt8) : Machine := { M with world := { M.world with mem } }

def setChannel (M : Machine) (p : Place) (c : Channel) : Machine :=
  { M with channel := Function.update M.channel p c }

/-- The bytes `l` have been carried. -/
def carry (M : Machine) (l : List UInt8) : Machine := { M with moved := M.moved ++ l }

end Machine

/-- A computation on the machine that may stop. -/
def step (f : Machine → Except Stop Machine) : Act Unit := Prog.get fun M =>
  match f M with
  | .ok M' => Prog.put M' (pure ())
  | .error e => Prog.stop e

/-- `while (nr < count) { ... nr++ ... }`, with `left` rounds to go. -/
def rounds (one : Nat → Act Unit) : (left nr : Nat) → Act Nat
  | 0, nr => return nr
  | left + 1, nr => do
    one nr
    rounds one left (nr + 1)

/-! ## 2. Channels -/

/-- `task_block`: others run. -/
def sleepAt (p : Place) : Act Unit := Prog.modify fun M =>
  { M.setChannel p (M.outside.wake M.sleeps (M.channel p)) with sleeps := M.sleeps + 1 }

/-- `*addr = fifo_get(fifo);` -/
def takeByte (p : Place) (addr : UInt32) : Act Unit := step fun M => do
  let c := M.channel p
  let (byte, fifo) ← fifoGet c.fifo
  let M := M.setChannel p { c with fifo }
  return (M.setMem (Function.update M.world.mem addr byte)).carry [byte]

/-- `fifo_put(fifo, *addr);` -/
def putByte (p : Place) (addr : UInt32) : Act Unit := step fun M => do
  let c := M.channel p
  let fifo ← fifoPut c.fifo (M.world.mem addr)
  return (M.setChannel p { c with fifo }).carry [M.world.mem addr]

def onChannel (p : Place) (f : Channel → Channel) : Act Unit := Prog.modify fun M =>
  M.setChannel p (f (M.channel p))

/-- `running_task()`. -/
def runningTask : Act Nat := Prog.reads fun M => M.kernel.tab.running

/-- `while (fifo_empty(fifo))`: sleep as the waiter; the serial ports ask that there is no other. -/
def awaitByte (p : Place) (alone : Bool) : (patience : Nat) → Act Unit
  | 0 => Prog.stop .outOfBuffer
  | patience + 1 => do
    let c ← Prog.reads fun M => M.channel p
    if fifoEmpty c.fifo then
      Prog.check (!alone || c.rxwaiter.isNone) .assertion
      let task ← runningTask
      onChannel p fun c => { c with rxwaiter := some task }
      sleepAt p
      awaitByte p alone patience
    else
      return ()

def keyboardRead (buf count : UInt32) : Act Int := do
  let patience ← Prog.reads fun M => M.outside.patience
  let _nr ← rounds (fun nr => do
    awaitByte .keyboard false patience
    takeByte .keyboard (buf + UInt32.ofNat nr)) count.toNat 0
  return count.toNat

def serialRead (i : Fin 2) (buf count : UInt32) : Act Int := do
  let patience ← Prog.reads fun M => M.outside.patience
  let nr ← rounds (fun nr => do
    awaitByte (.serial i) true patience
    takeByte (.serial i) (buf + UInt32.ofNat nr)) count.toNat 0
  return nr

def LSR_THRE : UInt8 := 0x20

/-- `inb(serial->iobase + COM_LINE_STATUS)`. -/
def lineStatus : Act UInt8 := do
  let M ← Prog.read
  Prog.modify fun M => { M with looks := M.looks + 1 }
  return M.outside.status M.looks

/-- `outb(serial->iobase, *addr);` -/
def sendByte (addr : UInt32) : Act Unit := Prog.modify fun M => M.carry [M.world.mem addr]

/-- The looks at the line until a byte can be sent. -/
def awaitLine (i : Fin 2) : (patience : Nat) → Act Unit
  | 0 => Prog.stop .outOfBuffer
  | patience + 1 => do
    let state ← lineStatus
    if state &&& LSR_THRE ≠ 0 then
      return ()
    else
      let task ← runningTask
      onChannel (.serial i) fun c => { c with txwaiter := some task }
      sleepAt (.serial i)
      awaitLine i patience

def serialWrite (i : Fin 2) (buf count : UInt32) : Act Int := do
  let patience ← Prog.reads fun M => M.outside.patience
  let nr ← rounds (fun nr => do
    awaitLine i patience
    sendByte (buf + UInt32.ofNat nr)) count.toNat 0
  return nr

/-- `if (fifo_empty(fifo))`: sleep as the reader, once. -/
def readerSleeps (p : Place) : Act Unit := do
  let c ← Prog.reads fun M => M.channel p
  if fifoEmpty c.fifo then
    Prog.check c.rxwaiter.isNone .assertion
    let task ← runningTask
    onChannel p fun c => { c with rxwaiter := some task }
    sleepAt p
  else
    return ()

/-- `if (fifo_full(fifo))`: sleep as the writer, once. -/
def writerSleeps (p : Place) : Act Unit := do
  let c ← Prog.reads fun M => M.channel p
  if fifoFull c.fifo then
    Prog.check c.txwaiter.isNone .assertion
    let task ← runningTask
    onChannel p fun c => { c with txwaiter := some task }
    sleepAt p
  else
    return ()

def pipeRead (inode : Nat) (buf : UInt32) (count : Nat) : Act Int := do
  let nr ← rounds (fun nr => do
    readerSleeps (.pipe inode)
    takeByte (.pipe inode) (buf + UInt32.ofNat nr)
    onChannel (.pipe inode) fun c => { c with txwaiter := none }) count 0
  return nr

def pipeWrite (inode : Nat) (buf : UInt32) (count : Nat) : Act Int := do
  let nr ← rounds (fun nr => do
    writerSleeps (.pipe inode)
    putByte (.pipe inode) (buf + UInt32.ofNat nr)
    onChannel (.pipe inode) fun c => { c with rxwaiter := none }) count 0
  return nr

/-! ## 3. The console -/

def MEM_BASE : UInt32 := 0xB8000
def MEM_SIZE : UInt32 := 0x4000
def MEM_END : UInt32 := MEM_BASE + MEM_SIZE
def WIDTH : UInt32 := 80
def HEIGHT : UInt32 := 25
def ROW_SIZE : UInt32 := WIDTH * 2
def SCR_SIZE : UInt32 := ROW_SIZE * HEIGHT

def attr : UInt8 := 7

/-- The bytes of `erase`: a space in `attr`. -/
def erase : List UInt8 := [0x20, 0x07]

/-- The console with the memory its screen is in. -/
structure Screen extends Console where
  mem : UInt32 → UInt8

namespace Screen

/-- The bytes `l` go to `addr`. -/
def store (s : Screen) (addr : UInt32) : List UInt8 → Screen
  | [] => s
  | b :: l => { s with mem := Function.update s.mem addr b }.store (addr + 1) l

def commandBs (s : Screen) : Screen :=
  if s.x ≠ 0 then { s with x := s.x - 1, pos := s.pos - 2 }.store (s.pos - 2) erase else s

/-- The loop of `scroll_up`: `erase` as a `u32` goes to `n` places from `ptr` on. -/
def eraseFrom (s : Screen) (ptr : UInt32) : Nat → Screen
  | 0 => s
  | n + 1 => (s.store ptr (erase ++ [0, 0])).eraseFrom (ptr + 4) n

def scrollUp (s : Screen) : Screen :=
  let s :=
    if s.screen + SCR_SIZE + ROW_SIZE ≥ MEM_END then
      { s with
        mem := memcpy s.mem MEM_BASE s.screen SCR_SIZE.toNat
        pos := s.pos - (s.screen - MEM_BASE)
        screen := MEM_BASE }
    else s
  let s := s.eraseFrom (s.screen + SCR_SIZE) WIDTH.toNat
  { s with screen := s.screen + ROW_SIZE, pos := s.pos + ROW_SIZE }

def commandLf (s : Screen) : Screen :=
  if s.y + 1 < HEIGHT then { s with y := s.y + 1, pos := s.pos + ROW_SIZE } else s.scrollUp

def commandCr (s : Screen) : Screen := { s with pos := s.pos - (s.x <<< 1), x := 0 }

def commandDel (s : Screen) : Screen := s.store s.pos erase

/-- The `default` branch. -/
def printable (s : Screen) (ch : UInt8) : Screen :=
  let s :=
    if s.x ≥ WIDTH then { s with x := s.x - WIDTH, pos := s.pos - ROW_SIZE }.commandLf else s
  let s := s.store s.pos [ch, attr]
  { s with pos := s.pos + 2, x := s.x + 1 }

/-- The `switch` of `console_write`. -/
def putChar (s : Screen) (ch : UInt8) : Screen :=
  match ch.toNat with
  | 0x00 | 0x05 | 0x07 | 0x09 | 0x0B => s
  | 0x08 => s.commandBs
  | 0x0A => s.commandLf.commandCr
  | 0x0C => s.commandLf
  | 0x0D => s.commandCr
  | 0x7F => s.commandDel
  | _ => s.printable ch

end Screen

/-- One round of `console_write`: the byte at `addr` is shown. -/
def showByte (addr : UInt32) : Act Unit := Prog.modify fun M =>
  let ch := M.world.mem addr
  let s := Screen.putChar ⟨M.console, M.world.mem⟩ ch
  { (M.setMem s.mem).carry [ch] with console := s.toConsole }

/-- `while (nr++ < count)`: the test that ends the loop counts as well. -/
def consoleLoop (buf : UInt32) : (left nr : Nat) → Act Nat
  | 0, nr => return nr + 1
  | left + 1, nr => do
    showByte (buf + UInt32.ofNat nr)
    consoleLoop buf left (nr + 1)

def consoleWrite (buf count : UInt32) : Act Int := do
  let nr ← consoleLoop buf count.toNat 0
  return nr

/-! ## 4. Devices -/

/-- The bytes of a cell. -/
def inCell (w : Disk.World) : Cell → List UInt8
  | .ram a => [w.mem a]
  | .sector d l => (List.range 512).map (w.sector d l)

/-- The bytes of the cells, in order. -/
def cellBytes (w : Disk.World) (l : List Cell) : List UInt8 := l.flatMap (inCell w)

/-- `device->read` of a block device: its cells go to `buf`. -/
def blockRead (d : Driver) (buf count idx : UInt32) : Act Int := Prog.get fun M =>
  match d.read M.world buf count idx with
  | .ok r => Prog.put ({ M with world := r.world }.carry (cellBytes M.world r.touched)) (pure r.ret)
  | .error e => Prog.stop e

/-- `device->write` of a block device. -/
def blockWrite (d : Driver) (buf count idx : UInt32) : Act Int := Prog.get fun M =>
  match d.write M.world buf count idx with
  | .ok r => Prog.put ({ M with world := r.world }.carry (cellBytes r.world r.touched)) (pure r.ret)
  | .error e => Prog.stop e

/-- `EOF` of the calls. -/
def eof : Int := Driver.EOF

namespace CharDevice

/-- `device->read`, `EOF` where there is none. -/
def read (c : CharDevice) (buf count : UInt32) : Act Int :=
  match c with
  | .console => return eof
  | .keyboard => keyboardRead buf count
  | .serial i => serialRead i buf count

/-- `device->write`, `EOF` where there is none. -/
def write (c : CharDevice) (buf count : UInt32) : Act Int :=
  match c with
  | .console => consoleWrite buf count
  | .keyboard => return eof
  | .serial i => serialWrite i buf count

end CharDevice

/-- `device_get`. -/
def deviceGet (dev : Nat) : Act Device := do
  Prog.check (dev < DEVICE_NR) .assertion
  let M ← Prog.read
  Prog.need .assertion (M.devices dev)

/-- `device_read`. -/
def deviceRead (dev : Nat) (buf count idx : UInt32) : Act Int := do
  match ← deviceGet dev with
  | .char c => c.read buf count
  | .block d => blockRead d.1 buf count idx

/-- `device_write`. -/
def deviceWrite (dev : Nat) (buf count idx : UInt32) : Act Int := do
  match ← deviceGet dev with
  | .char c => c.write buf count
  | .block d => blockWrite d.1 buf count idx

/-! ## 5. What a call carries -/

/-- **`n` bytes have been carried.** -/
def Carried (n : Nat) (M M' : Machine) : Prop := ∃ l, l.length = n ∧ M'.moved = M.moved ++ l

theorem carried_same {M M' : Machine} (h : M'.moved = M.moved) : Carried 0 M M' :=
  ⟨[], rfl, by rw [h, List.append_nil]⟩

theorem carried_carry {M M' : Machine} {l : List UInt8} (h : M'.moved = M.moved ++ l) :
    Carried l.length M M' := ⟨l, rfl, h⟩

theorem Carried.trans {m n : Nat} {M M' M'' : Machine} (h : Carried m M M') (h' : Carried n M' M'') :
    Carried (m + n) M M'' := by
  obtain ⟨l, rfl, e⟩ := h
  obtain ⟨l', rfl, e'⟩ := h'
  exact ⟨l ++ l', List.length_append, by rw [e', e, List.append_assoc]⟩

/-- The number is determined. -/
theorem Carried.unique {m n : Nat} {M M' : Machine} (h : Carried m M M') (h' : Carried n M M') : m = n := by
  obtain ⟨l, rfl, e⟩ := h
  obtain ⟨l', rfl, e'⟩ := h'
  rw [List.append_cancel_left (e.symm.trans e')]

instance : Steady (Carried 0) where
  refl _ := carried_same rfl
  trans h h' := h.trans h'

section Carries

variable {α β : Type} {m n : Nat} {M M' : Machine}

theorem carries_bind {p : Act α} {f : α → Act β} (hp : Obeys (Carried m) p)
    (hf : ∀ a, Obeys (Carried n) (f a)) : Obeys (Carried (m + n)) (p >>= f) := by
  intro M b M' h
  obtain ⟨a, M₁, h₁, h₂⟩ := runs_bind.mp h
  exact (hp M a M₁ h₁).trans (hf a M₁ b M' h₂)

/-- What carries nothing stands before what carries. -/
theorem carries_after {p : Act α} {f : α → Act β} (hp : Obeys (Carried 0) p)
    (hf : ∀ a, Obeys (Carried n) (f a)) : Obeys (Carried n) (p >>= f) := by
  have h := carries_bind hp hf
  rwa [Nat.zero_add] at h

theorem fits_kernel : Fits Machine.kernel fun k M => { M with kernel := k } :=
  ⟨fun _ _ => rfl, fun _ => rfl, fun _ _ _ => rfl⟩

theorem ends_kernel {p : Code α} {a : α} :
    Ends (onKernel p) M a M' ↔ ∃ k, Ends p M.kernel a k ∧ M' = { M with kernel := k } :=
  runs_zoom fits_kernel

theorem ends_step {f : Machine → Except Stop Machine} {u : Unit} (h : Ends (step f) M u M') :
    f M = .ok M' := by
  revert h
  show Ends (match f M with | .ok M' => Prog.put M' (pure ()) | .error e => Prog.stop e) M u M' → _
  cases f M with
  | error e => exact fun h => h.elim
  | ok M₁ => exact fun ⟨_, h⟩ => congrArg Except.ok h

theorem carries_onChannel (p : Place) (f : Channel → Channel) : Obeys (Carried 0) (onChannel p f) :=
  obeys_modify fun _ => carried_same rfl

theorem carries_sleepAt (p : Place) : Obeys (Carried 0) (sleepAt p) :=
  obeys_modify fun _ => carried_same rfl

theorem carries_takeByte (p : Place) (addr : UInt32) : Obeys (Carried 1) (takeByte p addr) := by
  intro M u M' h
  obtain ⟨⟨byte, fifo⟩, -, h⟩ := ok_of_bind (ends_step h)
  obtain rfl := Except.ok.inj h
  exact carried_carry (l := [byte]) rfl

theorem carries_putByte (p : Place) (addr : UInt32) : Obeys (Carried 1) (putByte p addr) := by
  intro M u M' h
  obtain ⟨fifo, -, h⟩ := ok_of_bind (ends_step h)
  obtain rfl := Except.ok.inj h
  exact carried_carry (l := [M.world.mem addr]) rfl

theorem carries_sendByte (addr : UInt32) : Obeys (Carried 1) (sendByte addr) :=
  obeys_modify fun M => carried_carry (l := [M.world.mem addr]) rfl

theorem carries_showByte (addr : UInt32) : Obeys (Carried 1) (showByte addr) :=
  obeys_modify fun M => carried_carry (l := [M.world.mem addr]) rfl

theorem carries_awaitByte (p : Place) (alone : Bool) (patience : Nat) :
    Obeys (Carried 0) (awaitByte p alone patience) := by
  induction patience with
  | zero => exact obeys_stop _
  | succ patience ih =>
    refine obeys_bind (obeys_reads _) fun c => obeys_ite (fun _ => ?_) fun _ => obeys_pure _
    refine obeys_bind (obeys_check _ _) fun _ => obeys_bind (obeys_reads _) fun task => ?_
    exact obeys_bind (carries_onChannel _ _) fun _ => obeys_bind (carries_sleepAt p) fun _ => ih

theorem carries_lineStatus : Obeys (Carried 0) lineStatus := by
  intro M b M' h
  obtain ⟨M₁, M₂, ⟨rfl, rfl⟩, h⟩ := runs_bind.mp h
  obtain ⟨_, M₃, ⟨-, rfl⟩, h⟩ := runs_bind.mp h
  obtain ⟨-, rfl⟩ := runs_pure.mp h
  exact carried_same rfl

theorem carries_awaitLine (i : Fin 2) (patience : Nat) : Obeys (Carried 0) (awaitLine i patience) := by
  induction patience with
  | zero => exact obeys_stop _
  | succ patience ih =>
    refine obeys_bind carries_lineStatus fun state => obeys_ite (fun _ => obeys_pure _) fun _ => ?_
    refine obeys_bind (obeys_reads _) fun task => obeys_bind (carries_onChannel _ _) fun _ => ?_
    exact obeys_bind (carries_sleepAt _) fun _ => ih

/-- **A loop that carries one byte a round**: as many bytes as it has rounds, and `nr` has counted
    them. -/
theorem ends_rounds {one : Nat → Act Unit} (hone : ∀ nr, Obeys (Carried 1) (one nr)) {left nr r : Nat}
    (h : Ends (rounds one left nr) M r M') : Carried left M M' ∧ r = nr + left := by
  induction left generalizing nr M with
  | zero =>
    obtain ⟨rfl, rfl⟩ := runs_pure.mp h
    exact ⟨carried_same rfl, rfl⟩
  | succ left ih =>
    obtain ⟨_, M₁, h₁, h⟩ := runs_bind.mp h
    obtain ⟨hc, rfl⟩ := ih h
    refine ⟨?_, by omega⟩
    rw [Nat.add_comm]
    exact (hone nr _ _ _ h₁).trans hc

end Carries

/-- The call answers with the number of bytes it has carried, which is `n`. -/
def Counts (n : Nat) (p : Act Int) : Prop := ∀ M r M', Ends p M r M' → Carried n M M' ∧ r = n

section Counted

variable {M M' : Machine} {r : Int} {buf count : UInt32} {n : Nat}

theorem counts_rounds {one : Nat → Act Unit} (hone : ∀ nr, Obeys (Carried 1) (one nr)) :
    Counts n (do let nr ← rounds one n 0; return (nr : Int)) := by
  intro M r M' h
  obtain ⟨nr, M₁, h₁, h⟩ := runs_bind.mp h
  obtain ⟨rfl, rfl⟩ := runs_pure.mp h
  obtain ⟨hc, rfl⟩ := ends_rounds hone h₁
  exact ⟨hc, by rw [Nat.zero_add]⟩

theorem counts_keyboardRead : Counts count.toNat (keyboardRead buf count) := by
  intro M r M' h
  obtain ⟨patience, M₁, ⟨-, rfl⟩, h⟩ := runs_bind.mp h
  obtain ⟨nr, M₂, h₂, h⟩ := runs_bind.mp h
  obtain ⟨rfl, rfl⟩ := runs_pure.mp h
  refine ⟨(ends_rounds (fun nr => ?_) h₂).1, rfl⟩
  exact carries_after (carries_awaitByte _ _ _) fun _ => carries_takeByte _ _

theorem counts_serialRead (i : Fin 2) : Counts count.toNat (serialRead i buf count) := by
  intro M r M' h
  obtain ⟨patience, M₁, ⟨-, rfl⟩, h⟩ := runs_bind.mp h
  refine counts_rounds (fun nr => ?_) _ _ _ h
  exact carries_after (carries_awaitByte _ _ _) fun _ => carries_takeByte _ _

theorem counts_serialWrite (i : Fin 2) : Counts count.toNat (serialWrite i buf count) := by
  intro M r M' h
  obtain ⟨patience, M₁, ⟨-, rfl⟩, h⟩ := runs_bind.mp h
  refine counts_rounds (fun nr => ?_) _ _ _ h
  exact carries_after (carries_awaitLine _ _) fun _ => carries_sendByte _

theorem carries_readerSleeps (p : Place) : Obeys (Carried 0) (readerSleeps p) := by
  refine obeys_bind (obeys_reads _) fun c => obeys_ite (fun _ => ?_) fun _ => obeys_pure _
  refine obeys_bind (obeys_check _ _) fun _ => obeys_bind (obeys_reads _) fun task => ?_
  exact obeys_bind (carries_onChannel _ _) fun _ => carries_sleepAt p

theorem carries_writerSleeps (p : Place) : Obeys (Carried 0) (writerSleeps p) := by
  refine obeys_bind (obeys_reads _) fun c => obeys_ite (fun _ => ?_) fun _ => obeys_pure _
  refine obeys_bind (obeys_check _ _) fun _ => obeys_bind (obeys_reads _) fun task => ?_
  exact obeys_bind (carries_onChannel _ _) fun _ => carries_sleepAt p

theorem counts_pipeRead (inode : Nat) : Counts n (pipeRead inode buf n) := by
  refine counts_rounds fun nr => carries_after (carries_readerSleeps _) fun _ => ?_
  exact carries_bind (carries_takeByte _ _) fun _ => carries_onChannel _ _

theorem counts_pipeWrite (inode : Nat) : Counts n (pipeWrite inode buf n) := by
  refine counts_rounds fun nr => carries_after (carries_writerSleeps _) fun _ => ?_
  exact carries_bind (carries_putByte _ _) fun _ => carries_onChannel _ _

theorem ends_consoleLoop {left nr k : Nat} (h : Ends (consoleLoop buf left nr) M k M') :
    Carried left M M' ∧ k = nr + left + 1 := by
  induction left generalizing nr M with
  | zero =>
    obtain ⟨rfl, rfl⟩ := runs_pure.mp h
    exact ⟨carried_same rfl, rfl⟩
  | succ left ih =>
    obtain ⟨_, M₁, h₁, h⟩ := runs_bind.mp h
    obtain ⟨hc, rfl⟩ := ih h
    refine ⟨?_, by omega⟩
    rw [Nat.add_comm left 1]
    exact (carries_showByte _ _ _ _ h₁).trans hc

/-- `console_write` answers one more than it has shown. -/
theorem consoleWrite_over (h : Ends (consoleWrite buf count) M r M') :
    Carried count.toNat M M' ∧ r = count.toNat + 1 := by
  obtain ⟨nr, M₁, h₁, h⟩ := runs_bind.mp h
  obtain ⟨rfl, rfl⟩ := runs_pure.mp h
  obtain ⟨hc, rfl⟩ := ends_consoleLoop h₁
  exact ⟨hc, by omega⟩

/-! ## 6. Block devices -/

/-- What a block device's call has carried: the bytes of the cells it has touched. -/
theorem ends_blockRead {d : Driver} {idx : UInt32} (h : Ends (blockRead d buf count idx) M r M') :
    ∃ x, d.read M.world buf count idx = .ok x ∧ r = x.ret ∧
      M' = { M with world := x.world }.carry (cellBytes M.world x.touched) := by
  revert h
  show Ends (match d.read M.world buf count idx with
    | .ok r => Prog.put ({ M with world := r.world }.carry (cellBytes M.world r.touched)) (pure r.ret)
    | .error e => Prog.stop e) M r M' → _
  cases d.read M.world buf count idx with
  | error e => exact fun h => h.elim
  | ok x => exact fun ⟨hr, hM⟩ => ⟨x, rfl, hr.symm, hM.symm⟩

theorem ends_blockWrite {d : Driver} {idx : UInt32} (h : Ends (blockWrite d buf count idx) M r M') :
    ∃ x, d.write M.world buf count idx = .ok x ∧ r = x.ret ∧
      M' = { M with world := x.world }.carry (cellBytes x.world x.touched) := by
  revert h
  show Ends (match d.write M.world buf count idx with
    | .ok r => Prog.put ({ M with world := r.world }.carry (cellBytes r.world r.touched)) (pure r.ret)
    | .error e => Prog.stop e) M r M' → _
  cases d.write M.world buf count idx with
  | error e => exact fun h => h.elim
  | ok x => exact fun ⟨hr, hM⟩ => ⟨x, rfl, hr.symm, hM.symm⟩

theorem length_cellBytes {k : Nat} {w : Disk.World} {l : List Cell} (h : ∀ c ∈ l, (inCell w c).length = k) :
    (cellBytes w l).length = k * l.length := by
  induction l with
  | nil => rfl
  | cons c l ih =>
    have hl := ih fun c hc => h c (List.mem_cons_of_mem _ hc)
    rw [cellBytes, List.flatMap_cons, List.length_append, h c List.mem_cons_self]
    rw [cellBytes] at hl
    rw [hl, List.length_cons, Nat.mul_succ, Nat.add_comm]

theorem length_ramBytes (w : Disk.World) (addr : UInt32) (n : Nat) :
    (cellBytes w (ramCells addr n)).length = n := by
  rw [length_cellBytes (k := 1) fun c hc => ?_]
  · rw [ramCells, List.length_map, List.length_range, Nat.one_mul]
  · obtain ⟨j, -, rfl⟩ := List.mem_map.mp hc
    rfl

theorem length_sectorBytes (w : Disk.World) (d lba n : Nat) :
    (cellBytes w (sectorCells d lba n)).length = 512 * n := by
  rw [length_cellBytes (k := 512) fun c hc => ?_]
  · rw [sectorCells, List.length_map, List.length_range]
  · obtain ⟨j, -, rfl⟩ := List.mem_map.mp hc
    rw [inCell, List.length_map, List.length_range]

/-- The sectors a block device's call has carried, and its answer: their number from a RAM disk, 0 from a
    disk or a partition. -/
structure Sectors (d : Driver) (count : UInt32) (w : Disk.World) (x : Done) : Prop where
  length : (cellBytes w x.touched).length = 512 * count.toUInt8.toNat
  ramdisk : ∀ i, d = .ramdisk i → x.ret = count.toUInt8.toNat
  disk : (∀ i, d ≠ .ramdisk i) → x.ret = 0 ∧ 0 < count.toUInt8.toNat

theorem read_sectors {d : Driver} {w : Disk.World} {idx : UInt32} {x : Done} (hb : d.type = .block) (v : Disk.World)
    (h : d.read w buf count idx = .ok x) : Sectors d count v x := by
  cases d with
  | ramdisk i =>
    obtain ⟨-, hx⟩ := Kernel.of_assert h
    obtain rfl := Except.ok.inj hx
    refine ⟨?_, fun _ _ => rfl, fun hne => absurd rfl (hne i)⟩
    rw [length_ramBytes, toNat_len, Nat.mul_comm]
  | disk k =>
    obtain ⟨hn, rfl⟩ := of_idePio h
    exact ⟨length_sectorBytes .., nofun, fun _ => ⟨rfl, hn⟩⟩
  | part p =>
    obtain ⟨hn, rfl⟩ := of_idePio h
    exact ⟨length_sectorBytes .., nofun, fun _ => ⟨rfl, hn⟩⟩
  | char f g => cases hb

theorem write_sectors {d : Driver} {w : Disk.World} {idx : UInt32} {x : Done} (hb : d.type = .block) (v : Disk.World)
    (h : d.write w buf count idx = .ok x) : Sectors d count v x := by
  cases d with
  | ramdisk i =>
    obtain ⟨-, hx⟩ := Kernel.of_assert h
    obtain rfl := Except.ok.inj hx
    refine ⟨?_, fun _ _ => rfl, fun hne => absurd rfl (hne i)⟩
    rw [length_ramBytes, toNat_len, Nat.mul_comm]
  | disk k =>
    obtain ⟨hn, rfl⟩ := of_idePio h
    exact ⟨length_sectorBytes .., nofun, fun _ => ⟨rfl, hn⟩⟩
  | part p =>
    obtain ⟨hn, rfl⟩ := of_idePio h
    exact ⟨length_sectorBytes .., nofun, fun _ => ⟨rfl, hn⟩⟩
  | char f g => cases hb

/-- The number of bytes carried is the answer only where both are 0. -/
theorem Sectors.counts {d : Driver} {w : Disk.World} {x : Done} (h : Sectors d count w x) :
    x.ret = (cellBytes w x.touched).length ↔ (∃ i, d = .ramdisk i) ∧ count.toNat % 256 = 0 := by
  have hc : count.toUInt8.toNat = count.toNat % 256 := UInt32.toNat_toUInt8 count
  rw [h.length]
  by_cases hd : ∃ i, d = .ramdisk i
  · obtain ⟨i, hi⟩ := hd
    rw [h.ramdisk i hi, ← hc]
    constructor
    · exact fun e => ⟨⟨i, hi⟩, by omega⟩
    · exact fun ⟨_, e⟩ => by omega
  · obtain ⟨hret, hn⟩ := h.disk fun i hi => hd ⟨i, hi⟩
    rw [hret]
    constructor
    · exact fun e => by omega
    · exact fun ⟨hi, _⟩ => absurd hi hd

end Counted

end Yuios.Rw
