/-
  File:      Yuios/Cache/Model.lean
  Subject:   THE BUFFER CACHE AMONG TASKS: `kernel/buffer.c`, with the parts of `kernel/mutex.c`
             and `kernel/task.c` it sleeps and wakes with.

  Any number of tasks call `getblk`, `bread`, `bwrite` and `brelse`. The kernel runs with
  interrupts off, so a task runs from one blocking point to the next without interruption; where
  it stands in between is its program point (`Pc`). One step of the machine (`Step`) starts a
  call or resumes a task, and runs it to its next blocking point or to its return.

  * A `buffer_t` is named by its address, a list by the sequence of what is linked into it, head
    first. The list node of a task records the list it is in (`node`, `none` when both pointers
    are NULL); `rnode` and `hnode` of a buffer are in the free list and in one hash chain.
  * The tasks asleep on `wait_list` or on a buffer's lock run again only after `task_unblock`
    has made them ready. A task inside `device_request` is woken by the disk, at any time.
  * A block is two sectors. The driver moves them one after the other and lets other tasks run in
    between, before the first and behind the last; only then are the flags set.
  * Where the sectors of a block are is computed as `device_request` does it: in 32 bits, and for a
    partition on the disk above it. Two pairs of a device and a block can name the same sectors.
  * A failed assertion ends the run: `assertion_failure` spins with interrupts off.
-/
import Mathlib.Data.Fintype.Basic
import Yuios.Disk.Drivers

namespace Yuios.BufferCache

open Kernel

/-! ## 1. The state -/

def HASH_COUNT : Nat := 31
def KERNEL_BUFFER_MEM : Nat := 0x800000
def KERNEL_BUFFER_SIZE : Nat := 0x400000

/-- `sizeof(buffer_t)`. -/
def sizeofBuffer : Nat := 64

/-- `BLOCK_SIZE / SECTOR_SIZE`. -/
abbrev BLOCK_SECS : Nat := 2

/-- What a block holds, sector by sector. -/
abbrev Sectors (α : Type) := Fin BLOCK_SECS → α

/-- What moves sectors: a RAM disk, or the disk at an IDE controller. -/
inductive Drive where
  | ramdisk (i : Fin Disk.RAMDISK_NR)
  | disk (d : Nat)
  deriving DecidableEq

/-- What a driver is asked for: the `BLOCK_SECS` sectors from `lba` on. -/
structure Request where
  drive : Drive
  lba : UInt32
  deriving DecidableEq

/-- A `lock_t`: its holder, its depth, the value of the mutex and the tasks waiting for it. -/
structure Lock where
  holder : Option Nat
  depth : Nat
  value : Bool
  waiters : List Nat

/-- A `buffer_t`; `dataPtr` is the address of its data block, `data` what the block holds. -/
structure Buffer (α : Type) where
  dataPtr : Nat
  data : Sectors α
  dev : Int
  block : Nat
  count : Int
  lock : Lock
  dirty : Bool
  valid : Bool

/-- The lists a task's node can be linked into. -/
inductive Queue where
  | waitList
  | waiters (bf : Nat)
  deriving DecidableEq

/-- Where a task stands. -/
inductive Pc where
  /-- in no call of the cache -/
  | out
  /-- `get_free_buffer`: asleep on `wait_list`, called for this block by `getblk` or `bread` -/
  | asleep (dev : Int) (block : Nat) (read : Bool)
  /-- `bread`: asleep on the lock of `bf` -/
  | locking (bf : Nat)
  /-- `bread`: the request for the data of `bf` waits, and `done` of its sectors have been read -/
  | reading (bf : Nat) (r : Request) (done : Nat)
  /-- `bread`: `mutex_unlock` has woken a task and yielded -/
  | yielding (bf : Nat)
  /-- `bwrite`: the request waits, and the disk has `done` of the sectors; `release` when `brelse`
      called -/
  | writing (bf : Nat) (r : Request) (done : Nat) (release : Bool)
  deriving DecidableEq

structure State (α : Type) where
  bufferPtr : Nat
  bufferData : Nat
  bufferCount : Nat
  buf : Nat → Buffer α
  freeList : List Nat
  waitList : List Nat
  hashTable : Nat → List Nat
  devices : Disk.Table
  disk : Disk.Cell → α
  pc : Nat → Pc
  node : Nat → Option Queue
  ready : Nat → Bool
  ret : Nat → Option Nat

/-- After `buffer_init`; the devices, the memory and the tasks are as they are. -/
def init {α : Type} (buf : Nat → Buffer α) (devices : Disk.Table) (disk : Disk.Cell → α) :
    State α where
  bufferPtr := KERNEL_BUFFER_MEM
  bufferData := KERNEL_BUFFER_MEM + KERNEL_BUFFER_SIZE - BLOCK_SIZE
  bufferCount := 0
  buf := buf
  freeList := []
  waitList := []
  hashTable := fun _ => []
  devices := devices
  disk := disk
  pc := fun _ => .out
  node := fun _ => none
  ready := fun _ => true
  ret := fun _ => none

variable {α : Type}

namespace State

def setBuf (s : State α) (bf : Nat) (b : Buffer α) : State α :=
  { s with buf := Function.update s.buf bf b }

def setLock (s : State α) (bf : Nat) (l : Lock) : State α :=
  s.setBuf bf { s.buf bf with lock := l }

def setPc (s : State α) (t : Nat) (p : Pc) : State α :=
  { s with pc := Function.update s.pc t p }

/-- The buffers made so far. -/
def Made (s : State α) (bf : Nat) : Prop :=
  ∃ i < s.bufferCount, bf = KERNEL_BUFFER_MEM + sizeofBuffer * i

/-- The call returns `r`. -/
def leave (s : State α) (t : Nat) (r : Option Nat) : State α :=
  { s.setPc t .out with ret := Function.update s.ret t r }

end State

/-! ## 2. Where a block is -/

/-- `device_get`: the comparison is signed, and a negative number is looked up before the table. -/
def deviceGet (devices : Disk.Table) (dev : Int) : Except Stop Disk.Installed :=
  if dev < 0 then .error .outOfBuffer else devices.get dev.toNat

/-- `device->read` and `device->write` up to the drive; a character device moves no sectors. -/
def driverRequest (driver : Disk.Driver) (idx : UInt32) : Except Stop Request :=
  match driver with
  | .ramdisk i => .ok ⟨.ramdisk i, idx⟩
  | .disk d => .ok ⟨.disk d, idx⟩
  | .part p => .ok ⟨.disk p.disk, p.start + idx⟩
  | .char _ _ => .error .fault

/-- `device_request` for a block, up to the driver: `block * BLOCK_SECS` and the start of the device
    are added in 32 bits, and a partition's request goes to the disk above it. -/
def deviceRequest (devices : Disk.Table) (dev : Int) (block : Nat) : Except Stop Request := do
  let device ← deviceGet devices dev
  assert (device.driver.type == .block)
  let offset := UInt32.ofNat block * UInt32.ofNat BLOCK_SECS + device.driver.sectorStart
  let device ← if device.parent = 0 then .ok device else devices.get device.parent
  driverRequest device.driver offset

namespace Request

/-- The address that `ramdisk_read` and `ramdisk_write` compute. -/
def addr (r : Request) (i : Fin Disk.RAMDISK_NR) : UInt32 := Disk.ramdiskStart i + r.lba * Disk.SECTOR_SIZE

/-- The check of a RAM disk. It lets the memory around the RAM disks pass, which is none of its
    business. -/
def check (r : Request) : Except Stop Unit :=
  match r.drive with
  | .ramdisk i => do
    let len := UInt32.ofNat BLOCK_SECS * Disk.SECTOR_SIZE
    assert (r.addr i + len < Disk.KERNEL_RAMDISK_MEM + Disk.KERNEL_MEMORY_SIZE)
    if Disk.KERNEL_RAMDISK_MEM ≤ r.addr i ∧
        r.addr i + len ≤ Disk.KERNEL_RAMDISK_MEM + Disk.KERNEL_RAMDISK_SIZE then .ok ()
    else .error .outOfBuffer
  | .disk _ => .ok ()

/-- Where sector `k` is; a sector of a RAM disk is named by the address of its first byte. -/
def cell (r : Request) (k : Fin BLOCK_SECS) : Disk.Cell :=
  match r.drive with
  | .ramdisk i => .ram (r.addr i + UInt32.ofNat k * Disk.SECTOR_SIZE)
  | .disk d => .sector d (Disk.ideSelectSector r.lba + k)

end Request

/-! ## 3. Sleeping and waking -/

/-- `task_block(task, list, TASK_BLOCKED)` by the running task. -/
def taskBlock (s : State α) (t : Nat) (q : Queue) : Except Stop (State α) := do
  assert (s.node t).isNone
  let s := { s with node := Function.update s.node t (some q)
                    ready := Function.update s.ready t false }
  match q with
  | .waitList => return { s with waitList := t :: s.waitList }
  | .waiters bf =>
    let l := (s.buf bf).lock
    return s.setLock bf { l with waiters := t :: l.waiters }

/-- `list_remove(&task->node)`. -/
def listRemove (s : State α) (t : Nat) : Except Stop (State α) :=
  match s.node t with
  | none => .error .assertion
  | some q =>
    let s := { s with node := Function.update s.node t none }
    match q with
    | .waitList => .ok { s with waitList := s.waitList.erase t }
    | .waiters bf =>
      let l := (s.buf bf).lock
      .ok (s.setLock bf { l with waiters := l.waiters.erase t })

/-- `task_unblock`. -/
def taskUnblock (s : State α) (t : Nat) : Except Stop (State α) := do
  let s ← listRemove s t
  return { s with ready := Function.update s.ready t true }

/-! ## 4. The hash table and the free list -/

/-- `hash`. -/
def hash (dev : Int) (block : Nat) : Nat :=
  (BitVec.ofInt 32 dev ^^^ BitVec.ofNat 32 block).toNat % HASH_COUNT

/-- `ptr->dev == dev && ptr->block == block`. -/
def State.holds (s : State α) (dev : Int) (block : Nat) (bf : Nat) : Bool :=
  (s.buf bf).dev == dev && (s.buf bf).block == block

/-- `get_from_hash_table`: the buffer, taken off the free list if it is there. -/
def getFromHashTable (s : State α) (dev : Int) (block : Nat) : Option (Nat × State α) :=
  match (s.hashTable (hash dev block)).find? (s.holds dev block) with
  | none => none
  | some bf =>
    if bf ∈ s.freeList then some (bf, { s with freeList := s.freeList.erase bf })
    else some (bf, s)

/-- `hash_locate`. -/
def hashLocate (s : State α) (bf : Nat) : Except Stop (State α) := do
  let i := hash (s.buf bf).dev (s.buf bf).block
  assert (bf ∉ s.hashTable i)
  return { s with hashTable := Function.update s.hashTable i (bf :: s.hashTable i) }

/-- `hash_remove`. -/
def hashRemove (s : State α) (bf : Nat) : Except Stop (State α) := do
  let i := hash (s.buf bf).dev (s.buf bf).block
  assert (bf ∈ s.hashTable i)
  return { s with hashTable := Function.update s.hashTable i ((s.hashTable i).erase bf) }

/-- `get_new_buffer`: headers grow from below, data blocks from above. -/
def getNewBuffer (s : State α) : Option (Nat × State α) :=
  if s.bufferPtr + sizeofBuffer < s.bufferData then
    let bf := s.bufferPtr
    let b : Buffer α :=
      { s.buf bf with
        dataPtr := s.bufferData, dev := devEOF, block := 0, count := 0, dirty := false
        valid := false, lock := ⟨none, 0, false, []⟩ }
    some (bf, { s.setBuf bf b with
      bufferCount := s.bufferCount + 1
      bufferPtr := s.bufferPtr + sizeofBuffer
      bufferData := s.bufferData - BLOCK_SIZE })
  else
    none

/-- One round of `get_free_buffer`: a new buffer, or the one released longest ago; `none` where
    the task has to sleep. -/
def getFreeBuffer (s : State α) : Except Stop (Option (Nat × State α)) :=
  match getNewBuffer s with
  | some r => .ok (some r)
  | none =>
    match s.freeList.getLast? with
    | none => .ok none
    | some bf => do
      let s := { s with freeList := s.freeList.erase bf }
      let s ← hashRemove s bf
      return some (bf, s.setBuf bf { s.buf bf with valid := false })

/-! ## 5. The calls, from one blocking point to the next -/

/-- `mutex_unlock` at the end of `bread`, and the return when nobody waits for the lock. -/
def mutexUnlock (s : State α) (t bf : Nat) : Except Stop (State α) := do
  let l := (s.buf bf).lock
  assert l.value
  let s := s.setLock bf { l with value := false }
  match l.waiters.getLast? with
  | none => return s.leave t bf
  | some w =>
    let s ← taskUnblock s w
    return s.setPc t (.yielding bf)

/-- `lock_release` at the end of `bread`, and the return. -/
def lockRelease (s : State α) (t bf : Nat) : Except Stop (State α) := do
  let l := (s.buf bf).lock
  assert (l.holder == some t)
  if l.depth > 1 then
    return (s.setLock bf { l with depth := l.depth - 1 }).leave t bf
  else
    assert (l.depth == 1)
    mutexUnlock (s.setLock bf { l with holder := none, depth := 0 }) t bf

/-- `bread` with the lock held: ask the disk unless the buffer is valid by now. -/
def breadLocked (s : State α) (t bf : Nat) : Except Stop (State α) :=
  let b := s.buf bf
  if b.valid then lockRelease s t bf
  else do
    let r ← deviceRequest s.devices b.dev b.block
    return s.setPc t (.reading bf r 0)

/-- `mutex_lock` and the rest of `lock_acquire`: sleep while the value is true. -/
def lockTake (s : State α) (t bf : Nat) : Except Stop (State α) := do
  let l := (s.buf bf).lock
  if l.value then
    let s ← taskBlock s t (.waiters bf)
    return s.setPc t (.locking bf)
  else
    assert (l.depth == 0)
    breadLocked (s.setLock bf { l with value := true, holder := some t, depth := 1 }) t bf

/-- What follows `getblk` in `bread`, or the return of `getblk`. -/
def gotBlock (s : State α) (t bf : Nat) (read : Bool) : Except Stop (State α) :=
  let b := s.buf bf
  if !read || b.valid then .ok (s.leave t bf)
  else if b.lock.holder = some t then
    breadLocked (s.setLock bf { b.lock with depth := b.lock.depth + 1 }) t bf
  else lockTake s t bf

/-- `getblk` from the call of `get_free_buffer` on. -/
def takeFree (s : State α) (t : Nat) (dev : Int) (block : Nat) (read : Bool) :
    Except Stop (State α) := do
  match ← getFreeBuffer s with
  | none =>
    let s ← taskBlock s t .waitList
    return s.setPc t (.asleep dev block read)
  | some (bf, s) =>
    let b := s.buf bf
    assert (b.count == 0)
    assert (!b.dirty)
    let s ← hashLocate (s.setBuf bf { b with count := 1, dev := dev, block := block }) bf
    gotBlock s t bf read

/-- `getblk` and `bread` up to the first blocking point. -/
def getBlock (s : State α) (t : Nat) (dev : Int) (block : Nat) (read : Bool) :
    Except Stop (State α) :=
  match getFromHashTable s dev block with
  | some (bf, s) =>
    let b := s.buf bf
    gotBlock (s.setBuf bf { b with count := b.count + 1 }) t bf read
  | none => takeFree s t dev block read

/-- `brelse` once the data is written: give the reference back, and wake the task that has
    waited longest when the buffer is free now. -/
def release (s : State α) (t bf : Nat) : Except Stop (State α) := do
  let b := s.buf bf
  let s := s.setBuf bf { b with count := b.count - 1 }
  assert (0 ≤ b.count - 1)
  if b.count - 1 ≠ 0 then
    return s.leave t none
  else
    assert (bf ∉ s.freeList)
    let s := { s with freeList := bf :: s.freeList }
    match s.waitList.getLast? with
    | none => return s.leave t none
    | some w =>
      -- `list_popback` unlinks the node, `task_unblock` unlinks it once more
      let s ← listRemove s w
      let s ← taskUnblock s w
      return s.leave t none

/-- The end of `bwrite`, in `brelse` (`rel`) or on its own. -/
def written (s : State α) (t bf : Nat) (rel : Bool) : Except Stop (State α) :=
  if rel then release s t bf else .ok (s.leave t none)

/-- `bwrite` up to the first blocking point. -/
def write (s : State α) (t bf : Nat) (rel : Bool) : Except Stop (State α) :=
  let b := s.buf bf
  if b.dirty then do
    let r ← deviceRequest s.devices b.dev b.block
    return s.setPc t (.writing bf r 0 rel)
  else written s t bf rel

/-- What a task can call; `touch` is the caller's own change of the data and `dirty = true`. -/
inductive Call (α : Type) where
  | getblk (dev : Int) (block : Nat)
  | bread (dev : Int) (block : Nat)
  | touch (bf : Nat) (data : Sectors α)
  | bwrite (bf : Nat)
  | brelse (bf : Nat)

/-- The buffer a call names. -/
def Call.target : Call α → Option Nat
  | .getblk _ _ => none
  | .bread _ _ => none
  | .touch bf _ => some bf
  | .bwrite bf => some bf
  | .brelse bf => some bf

/-- A call, up to its first blocking point. -/
def start (s : State α) (t : Nat) : Call α → Except Stop (State α)
  | .getblk dev block => getBlock s t dev block false
  | .bread dev block => getBlock s t dev block true
  | .touch bf data => .ok (s.setBuf bf { s.buf bf with data := data, dirty := true })
  | .bwrite bf => write s t bf false
  | .brelse bf => write s t bf true

/-- May the scheduler run the task, which stands inside a call? -/
def runnable (s : State α) (t : Nat) : Bool :=
  match s.pc t with
  | .out => false
  | .asleep _ _ _ => s.ready t
  | .locking _ => s.ready t
  | .reading _ _ _ => true
  | .yielding _ => true
  | .writing _ _ _ _ => true

/-- A task runs on from where it stands to its next blocking point. -/
def resume (s : State α) (t : Nat) : Except Stop (State α) :=
  match s.pc t with
  | .out => .ok s
  | .asleep dev block read => takeFree s t dev block read
  | .locking bf => lockTake s t bf
  | .reading bf r done =>
    let b := s.buf bf
    if h : done < BLOCK_SECS then do
      r.check
      let data := Function.update b.data ⟨done, h⟩ (s.disk (r.cell ⟨done, h⟩))
      return (s.setBuf bf { b with data := data }).setPc t (.reading bf r (done + 1))
    else lockRelease (s.setBuf bf { b with dirty := false, valid := true }) t bf
  | .yielding bf => .ok (s.leave t bf)
  | .writing bf r done rel =>
    let b := s.buf bf
    if h : done < BLOCK_SECS then do
      r.check
      let disk := Function.update s.disk (r.cell ⟨done, h⟩) (b.data ⟨done, h⟩)
      return { s with disk := disk }.setPc t (.writing bf r (done + 1) rel)
    else written (s.setBuf bf { b with dirty := false, valid := true }) t bf rel

/-- **One step**: a task outside the cache makes a call on a buffer that exists, or a task inside
    a call runs on. -/
inductive Step : State α → State α → Prop where
  | call {s s' : State α} (t : Nat) (c : Call α) (hpc : s.pc t = .out)
      (hbf : ∀ bf ∈ c.target, s.Made bf) (h : start s t c = .ok s') : Step s s'
  | resume {s s' : State α} (t : Nat) (hrun : runnable s t = true)
      (h : resume s t = .ok s') : Step s s'

/-- The states the cache reaches. -/
inductive Reachable : State α → Prop where
  | init (buf : Nat → Buffer α) (devices : Disk.Table) (disk : Disk.Cell → α) :
      Reachable (init buf devices disk)
  | step {s s' : State α} (h : Reachable s) (hs : Step s s') : Reachable s'

end Yuios.BufferCache
