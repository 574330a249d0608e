/-
  File:      Yuios/Fs/Super.lean
  Subject:   MOUNTING AND UNMOUNTING: `fs/super.c`.

  * `System` -- the kernel with what only these calls and the calls on processes touch: the
    reference counts of the super blocks, the root's super block, the state and the program file
    of each process.
  * `Call` -- code over a `System`. Kernel code is code on its `kernel`.
  * A super block pointer is an index into `super_table`. `sb->buf` is the buffer of block 1,
    `sb->imaps[i]` and `sb->zmaps[i]` are those of the blocks after it.
-/
import Yuios.Fs.File

namespace Yuios

open Lib Code

/-! ## 1. The system -/

def NR_TASKS : Nat := 64
def MINIX1_MAGIC : Nat := 0x137f

/-- `task->state`, as far as it matters here, and a free slot of `task_table`. -/
inductive TaskState where
  | free
  | alive
  | died
  deriving DecidableEq, Repr

/-- The kernel, `sb->count`, `root`, and `task->state` and `task->iexec`. -/
structure System where
  kernel : Kernel
  superCount : Nat → Nat
  root : Nat
  state : Nat → TaskState
  iexec : Nat → Option Nat

/-- Code over a system. -/
abbrev Call := Prog Stop System (List Frame)

/-- Kernel code, on the kernel of the system. -/
def onKernel {α : Type} : Code α → Call α :=
  Prog.zoom System.kernel fun k S => { S with kernel := k }

instance : MonadLift Code Call := ⟨onKernel⟩

/-- `sb->count`. -/
def superCount (i : Nat) : Call Nat := Prog.reads fun S => S.superCount i

/-- `sb->count = n`. -/
def setSuperCount (i n : Nat) : Call Unit :=
  Prog.modify fun S => { S with superCount := Function.update S.superCount i n }

/-- The super block `i`. -/
def superAt (i : Nat) : Code SuperBlock := Prog.reads fun s => s.tab.superTable i

/-- Change the super block `i`. -/
def onSuper (i : Nat) (f : SuperBlock → SuperBlock) : Code Unit :=
  onTables fun t => t.setSuper i (f (t.superTable i))

/-! ## 2. Super blocks -/

/-- The buffers a super block holds: its own, and those of its bitmaps. -/
def SuperBlock.bufs (sb : SuperBlock) : List Key :=
  (List.range sb.imapBlocks).map (⟨sb.dev, 2 + ·⟩) ++
    (List.range sb.zmapBlocks).map (⟨sb.dev, 2 + sb.imapBlocks + ·⟩) ++ [⟨sb.dev, 1⟩]

/-- `put_super`. The pointers of the super block outlive `sb->dev = EOF`. -/
def putSuper : Option Nat → Call Unit
  | none => return ()
  | some i => do
    let n ← superCount i
    assert (n > 0)
    setSuperCount i (n - 1)
    let n ← superCount i
    if n ≠ 0 then
      return ()
    else
      let sb ← superAt i
      onSuper i fun sb => { sb with dev := devEOF }
      iput? sb.imount
      iput? sb.iroot
      sb.bufs.forM fun k => onKernel (brelse k)

/-- `get_free_super`. -/
def getFreeSuper : Code Nat := do
  let t ← Prog.reads Kernel.tab
  Prog.need .panic ((List.range SUPER_NR).find? fun i => (t.superTable i).dev == devEOF)

/-- `sb->desc`, read from the bytes of block 1. -/
def SuperBlock.read (sb : SuperBlock) (dev : Int) (b : Bytes) : SuperBlock :=
  { sb with
    dev := dev
    inodes := fetch b 0 2
    zones := fetch b 2 2
    imapBlocks := fetch b 4 2
    zmapBlocks := fetch b 6 2
    firstdatazone := fetch b 8 2 }

/-- `read_super`: the pointers `iroot` and `imount` of a free super block are left as they are. -/
def readSuper (dev : Int) : Call Nat := do
  let t ← Prog.reads fun S => S.kernel.tab
  match t.getSuper dev with
  | some i =>
    let n ← superCount i
    setSuperCount i (n + 1)
    return i
  | none =>
    let i ← getFreeSuper
    let buf ← bread dev 1
    let b ← bytesOf buf
    onSuper i fun sb => sb.read dev b
    setSuperCount i 1
    assert (fetch b 16 2 = MINIX1_MAGIC)
    let sb ← superAt i
    (List.range sb.imapBlocks).forM fun j => onKernel do
      assert (j < IMAP_NR)
      let _ ← bread dev (2 + j)
    (List.range sb.zmapBlocks).forM fun j => onKernel do
      assert (j < ZMAP_NR)
      let _ ← bread dev (2 + sb.imapBlocks + j)
    return i

/-! ## 3. The calls -/

/-- `rollback` of `sys_mount` and `sys_umount`. -/
def superRollback {α : Type} (sb inode : Option Nat) (ret : α) : Call α := do
  putSuper sb
  iput? inode
  return ret

/-- What `sys_mount` does once both paths lead where they should. -/
def mountOn (devinode dirinode : Nat) (dev : Int) : Call Bool := do
  let i ← readSuper dev
  let sb ← superAt i
  if sb.imount.isSome then
    superRollback (some i) (some devinode) ()
    iput dirinode
    return false
  else
    let root ← iget dev 1
    onSuper i fun sb => { sb with iroot := some root, imount := some dirinode }
    onInode dirinode fun d => { d with mount := dev }
    iput devinode
    return true

/-- `sys_mount`. -/
def sysMount (devname dirname : List UInt8) : Call Bool := do
  match ← namei devname with
  | none => return false
  | some devinode =>
    let mode ← descGet devinode .mode
    if !ISBLK mode then
      superRollback none (some devinode) false
    else
      let dev ← descGet devinode (.zone 0)
      match ← namei dirname with
      | none => superRollback none (some devinode) false
      | some dirinode =>
        let dmode ← descGet dirinode .mode
        let d ← inodeAt dirinode
        if !ISDIR dmode ∨ d.count ≠ 1 ∨ d.mount ≠ 0 then
          superRollback none (some devinode) ()
          iput dirinode
          return false
        else
          mountOn devinode dirinode dev

/-- Where `sys_umount` gets to with the inode of its target: straight to `rollback`, or through
    `sb = get_super(dev)`. -/
inductive UmountStart where
  | rollback (inode : Option Nat)
  | super (inode : Nat) (sb : Option Nat)
  deriving DecidableEq

/-- `sys_umount` up to `sb = get_super(dev)`. -/
def umountStart (target : List UInt8) : Call UmountStart := do
  match ← namei target with
  | none => return .rollback none
  | some inode =>
    let mode ← descGet inode .mode
    let ino ← inodeAt inode
    let S ← Prog.read
    if (!ISBLK mode ∧ ino.nr ≠ 1) ∨ (S.kernel.tab.superTable S.root).imount = some inode then
      return .rollback (some inode)
    else
      let zone ← descGet inode (.zone 0)
      let dev : Int := if ISBLK mode then zone else ino.dev
      return .super inode (S.kernel.tab.getSuper dev)

/-- What `sys_umount` does with the super block. -/
def umountSuper (inode i : Nat) : Call Bool := do
  let sb ← superAt i
  match sb.imount with
  | none => superRollback (some i) (some inode) false
  | some mnt =>
    if sb.inodeList.length > 1 then
      superRollback (some i) (some inode) false
    else
      iput? sb.iroot
      onSuper i fun sb => { sb with iroot := none }
      onInode mnt fun d => { d with mount := 0 }
      iput mnt
      onSuper i fun sb => { sb with imount := none }
      superRollback (some i) (some inode) true

/-- `sys_umount`: `sb->imount` is read without a test of `sb`. -/
def sysUmount (target : List UInt8) : Call Bool := do
  match ← umountStart target with
  | .rollback inode => superRollback none inode false
  | .super inode sb =>
    let i ← Prog.need .fault sb
    umountSuper inode i

end Yuios
