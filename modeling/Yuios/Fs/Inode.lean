/-
  File:      Yuios/Fs/Inode.lean
  Subject:   BLOCK MAPS AND INODES: `bmap` of `fs/bmap.c`, and `fs/inode.c`.

  The slots of an inode's block map are pairs of bytes: `desc->zone[i]` in the inode's buffer,
  entry `i` of an index block in the buffer of that block. `bmapReckon` walks from slot to slot
  as the loop of `bmap` does, with the loop's variables as its arguments.
-/
import Yuios.Fs.Bitmap

namespace Yuios

open Lib Code

/-! ## 1. `bmap` -/

/-- `if (!array[index] && create)`: the slot at byte `slot` of `buf` gets a new zone. -/
def bmapFill (x : Nat) (create : Bool) (buf : Key) (slot : Nat) : Code Unit := do
  let b ← bytesOf buf
  if fetch b slot 2 = 0 ∧ create = true then
    let i ← inodeAt x
    let bit ← balloc i.dev
    poke buf fun b => store b slot 2 bit
    setDirty buf
  else
    return ()

/-- The work of `bmap` on one slot: fill it where it is empty, and give the buffer back. -/
def bmapSlot (x : Nat) (create : Bool) (level : Nat) (buf : Key) (slot : Nat) : Code Unit :=
  within (.bmap x buf slot level) do
    bmapFill x create buf slot
    brelse buf

/-- The loop of `bmap` at level `level`, its array at byte `array` of `buf`. -/
def bmapReckon (x : Nat) (create : Bool) :
    (level : Nat) → (buf : Key) → (array index block divider : Nat) → Code Nat
  | level, buf, array, index, block, divider => do
    bmapSlot x create level buf (array + 2 * index)
    let b ← bytesOf buf
    let zone := fetch b (array + 2 * index) 2
    match level with
    | 0 => return zone
    | level + 1 =>
      if zone = 0 then
        return zone
      else
        let i ← inodeAt x
        let buf ← bread i.dev zone
        bmapReckon x create level buf 0 (block / divider) (block % divider)
          (divider / BLOCK_INDEXES)

/-- `bmap`: the zone of block `block` of the inode, 0 if there is none. -/
def bmap (x : Nat) (block : Nat) (create : Bool) : Code Nat := do
  assert (block < TOTAL_BLOCK)
  let i ← inodeAt x
  onCache (·.addCount i.buf 1)
  let array := i.desc + (Field.zone 0).off
  if block < DIRECT_BLOCK then
    bmapReckon x create 0 i.buf array block block 1
  else if block - DIRECT_BLOCK < INDIRECT1_BLOCK then
    bmapReckon x create 1 i.buf array DIRECT_BLOCK (block - DIRECT_BLOCK) 1
  else
    let block := block - DIRECT_BLOCK - INDIRECT1_BLOCK
    assert (block < INDIRECT2_BLOCK)
    bmapReckon x create 2 i.buf array (DIRECT_BLOCK + 1) block BLOCK_INDEXES

/-! ## 2. The inode table -/

/-- `get_free_inode`. -/
def getFreeInode : Code Nat := do
  let t ← Prog.reads Kernel.tab
  Prog.need .panic ((List.range INODE_NR).find? fun x => (t.inodeTable x).dev == devEOF)

/-- `put_free_inode`. -/
def putFreeInode (x : Nat) : Code Unit := do
  assert (x ≠ 0)
  let i ← inodeAt x
  assert (i.count = 0)
  onInode x fun i => { i with dev := devEOF }

/-- `inode_block`. -/
def inodeBlock (sb : SuperBlock) (nr : Nat) : Nat :=
  2 + sb.imapBlocks + sb.zmapBlocks + (nr - 1) / BLOCK_INODES

/-- `find_inode`: the first inode of the super block's list with that number. -/
def findInode (dev : Int) (nr : Nat) : Code (Option Nat) := do
  let sb ← superOf dev
  let t ← Prog.reads Kernel.tab
  return sb.inodeList.find? fun x => (t.inodeTable x).nr == nr

/-- `put_pipe_inode`: the pipe's two pieces of memory belong to the kernel allocators. -/
def putPipeInode (x : Nat) : Code Unit := do
  onInode x fun i => { i with count := i.count - 1 }
  let i ← inodeAt x
  if i.count ≠ 0 then
    return ()
  else
    onInode x fun i => { i with pipe := false }
    putFreeInode x

/-- `list_remove(&inode->node)`: the node leaves the one list it is linked into. -/
def listRemoveInode (x : Nat) : Code Unit := do
  let t ← Prog.reads Kernel.tab
  let i ← Prog.need .assertion
    ((List.range SUPER_NR).find? fun i => (t.superTable i).inodeList.contains x)
  onTables fun t =>
    t.setSuper i { t.superTable i with inodeList := (t.superTable i).inodeList.erase x }

/-- `list_push(&sb->inode_list, &inode->node)`. -/
def listPushInode (dev : Int) (x : Nat) : Code Unit := do
  let t ← Prog.reads Kernel.tab
  let i ← Prog.need .assertion (t.getSuper dev)
  assert (x ∉ (t.superTable i).inodeList)
  onTables fun t =>
    t.setSuper i { t.superTable i with inodeList := x :: (t.superTable i).inodeList }

/-- `iput`. -/
def iput (x : Nat) : Code Unit := do
  let i ← inodeAt x
  if i.pipe then
    putPipeInode x
  else
    bwrite i.buf
    onInode x fun i => { i with count := i.count - 1 }
    let i ← inodeAt x
    if i.count ≠ 0 then
      return ()
    else
      brelse i.buf
      listRemoveInode x
      putFreeInode x

/-- `iput` of a pointer that may be NULL. -/
def iput? : Option Nat → Code Unit
  | none => return ()
  | some x => iput x

/-- `fit_inode`: from a covered directory to the root of what is mounted there. -/
def fitInode (x : Nat) : Code Nat := do
  let i ← inodeAt x
  if i.mount = 0 then
    return x
  else
    let sb ← superOf i.mount
    iput x
    let y ← Prog.need .fault sb.iroot
    onInode y fun i => { i with count := i.count + 1 }
    return y

/-- `iget`. The slot is filled in two steps: device, number and count before the block is read,
    buffer and descriptor after. -/
def iget (dev : Int) (nr : Nat) : Code Nat := do
  match ← findInode dev nr with
  | some x =>
    onInode x fun i => { i with count := i.count + 1 }
    fitInode x
  | none =>
    let sb ← superOf dev
    assert (nr ≤ sb.inodes)
    let x ← getFreeInode
    onInode x fun i => { i with dev := dev, nr := nr, count := i.count + 1 }
    listPushInode dev x
    let buf ← bread dev (inodeBlock sb nr)
    onInode x fun i => { i with buf := buf, desc := 32 * ((nr - 1) % BLOCK_INODES) }
    return x

/-- `new_inode`: every field of the descriptor but `zone[]` is set. -/
def newInode (dev : Int) (nr : Nat) : Code Nat := do
  let task ← runningTask
  let x ← iget dev nr
  inodeDirty x
  descSet x .mode (0o777 &&& (0o777 ^^^ (task.umask &&& 0o777)))
  descSet x .uid task.uid
  descSet x .size 0
  let now ← time
  descSet x .mtime now
  descSet x .gid task.gid
  descSet x .nlinks 1
  return x

/-! ## 3. Reading and writing -/

/-- The loop of `inode_read`: `left` bytes from `offset` on go to `buf + done`. -/
def inodeReadLoop (x : Nat) : (fuel left offset done : Nat) → (buf : Bytes) → Code (Nat × Bytes)
  | 0, _, offset, _, buf => return (offset, buf)
  | fuel + 1, left, offset, done, buf => do
    if left = 0 then
      return (offset, buf)
    else
      let nr ← bmap x (offset / BLOCK_SIZE) false
      assert (nr ≠ 0)
      let i ← inodeAt x
      let bf ← bread i.dev nr
      let start := offset % BLOCK_SIZE
      let chars := min (BLOCK_SIZE - start) left
      let data ← bytesOf bf
      let buf := copyIn buf done (fun j => data (start + j)) chars
      brelse bf
      inodeReadLoop x fuel (left - chars) (offset + chars) (done + chars) buf

/-- `inode_read`: the bytes read and their number, `none` for `EOF`. -/
def inodeRead (x : Nat) (buf : Bytes) (len offset : Nat) : Code (Option Nat × Bytes) := do
  let mode ← descGet x .mode
  assert (ISFILE mode || ISDIR mode)
  let size ← descGet x .size
  if offset ≥ size then
    return (none, buf)
  else
    let left := min len (size - offset)
    let (offset', buf) ← inodeReadLoop x left left offset 0 buf
    return (some (offset' - offset), buf)

/-- `if (offset > inode->desc->size)`: the file ends at `offset` now. -/
def growSize (x offset : Nat) : Code Unit := do
  let size ← descGet x .size
  if offset > size then
    descSet x .size offset
    inodeDirty x
  else
    return ()

/-- One round of the loop of `inode_write`: `left` bytes of `buf` still go to `offset`; the
    number of bytes this round has written. -/
def inodeWriteRound (x : Nat) (left offset : Nat) (buf : Bytes) : Code Nat := do
  let nr ← bmap x (offset / BLOCK_SIZE) true
  assert (nr ≠ 0)
  let i ← inodeAt x
  let bf ← bread i.dev nr
  setDirty bf
  let start := offset % BLOCK_SIZE
  let chars := min (BLOCK_SIZE - start) left
  growSize x (offset + chars)
  poke bf fun b => copyIn b start buf chars
  within (.inodeWrite x) (brelse bf)
  return chars

/-- The loop of `inode_write`; every round writes at least one byte, so `left` rounds do. -/
def inodeWriteLoop (x : Nat) : (fuel left offset : Nat) → (buf : Bytes) → Code Nat
  | 0, _, offset, _ => return offset
  | fuel + 1, left, offset, buf => do
    if left = 0 then
      return offset
    else
      let chars ← inodeWriteRound x left offset buf
      inodeWriteLoop x fuel (left - chars) (offset + chars) fun j => buf (chars + j)

/-- `inode_write`. -/
def inodeWrite (x : Nat) (buf : Bytes) (len offset : Nat) : Code Nat := do
  let mode ← descGet x .mode
  assert (ISFILE mode)
  let offset' ← inodeWriteLoop x len len offset buf
  let now ← time
  descSet x .mtime now
  let i ← inodeAt x
  bwrite i.buf
  return offset' - offset

/-! ## 4. Freeing an inode's blocks -/

/-- `inode_bfree`: the zone in the slot at byte `slot` of `buf`, and below an index block every
    zone it names, before the block itself. -/
def inodeBfree (dev : Int) : (level : Nat) → (buf : Key) → (slot : Nat) → Code Unit
  | level, buf, slot => do
    let b ← bytesOf buf
    let zone := fetch b slot 2
    if zone = 0 then
      return ()
    else
      match level with
      | 0 => bfree dev zone
      | level + 1 =>
        let sub ← bread dev zone
        (List.range BLOCK_INDEXES).forM fun i => inodeBfree dev level sub (2 * i)
        brelse sub
        let b ← bytesOf buf
        bfree dev (fetch b slot 2)

/-- Free the blocks under `desc->zone[i]` and clear the entry. -/
def truncateZone (x : Nat) (level i : Nat) : Code Unit := do
  let ino ← inodeAt x
  inodeBfree ino.dev level ino.buf (ino.desc + (Field.zone i).off)
  descSet x (.zone i) 0

/-- `inode_truncate`. -/
def inodeTruncate (x : Nat) : Code Unit := do
  let mode ← descGet x .mode
  if !ISFILE mode && !ISDIR mode then
    return ()
  else
    (List.range DIRECT_BLOCK).forM fun i => truncateZone x 0 i
    truncateZone x 1 DIRECT_BLOCK
    truncateZone x 2 (DIRECT_BLOCK + 1)
    descSet x .size 0
    inodeDirty x
    let now ← time
    descSet x .mtime now
    let ino ← inodeAt x
    bwrite ino.buf

end Yuios
