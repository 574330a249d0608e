/-
  File:      Yuios/Fs/State.lean
  Subject:   THE STATE THE FILE SYSTEM RUNS ON, and the buffer calls it is written with.

  * `Cache` -- the block devices and the buffer cache in front of them. The file system only
    ever reaches a buffer through the (dev, block) pair it asked for, so a buffer is named by
    that pair here (`Key`); `Buffer.data` is `none` while the buffer is not valid. Recycling a
    buffer for another block is not a step of this model: `Yuios/Cache/` has the hash table,
    the free list and the recycling.
  * `Cache.view` -- the bytes a block shows through the cache: the buffer's when it is valid,
    the device's otherwise.
  * `Tables` -- the in-memory tables: inodes, super blocks, tasks, open files. A pointer into a
    table is its index.
  * `Code` -- kernel code over `Kernel`. A failed assertion, a panic, a dereferenced NULL and an
    access outside a buffer stop it (`Stop`). It blocks where a task waits for the disk; the
    label of a blocking point is the stack of `Frame`s that stand there, innermost first.
-/
import Mathlib.Logic.Function.Basic
import Yuios.Lib.Bytes
import Yuios.Lib.Prog
import Yuios.Base

namespace Yuios

open Lib

/-! ## 1. Constants and records -/

def BLOCK_BITS : Nat := BLOCK_SIZE * 8
def BLOCK_INODES : Nat := 32
def BLOCK_DENTRIES : Nat := 64
def BLOCK_INDEXES : Nat := 512
def DIRECT_BLOCK : Nat := 7
def INDIRECT1_BLOCK : Nat := BLOCK_INDEXES
def INDIRECT2_BLOCK : Nat := INDIRECT1_BLOCK * INDIRECT1_BLOCK
def TOTAL_BLOCK : Nat := DIRECT_BLOCK + INDIRECT1_BLOCK + INDIRECT2_BLOCK
def IMAP_NR : Nat := 8
def ZMAP_NR : Nat := 8
def NAME_LEN : Nat := 14
def INODE_NR : Nat := 64
def SUPER_NR : Nat := 16
def FILE_NR : Nat := 128
def TASK_FILE_NR : Nat := 16

/-- Block `block` of device `dev`, and the buffer that holds it. -/
structure Key where
  dev : Int
  block : Nat
  deriving DecidableEq, Repr

/-- A `buffer_t`: its bytes once valid, the dirty flag and the reference count. -/
structure Buffer where
  data : Option Bytes
  dirty : Bool
  count : Int

/-- The devices' blocks and the buffers in front of them. -/
structure Cache where
  disk : Key → Bytes
  buf : Key → Buffer

/-- The bytes a block shows. -/
def Cache.view (c : Cache) (k : Key) : Bytes := (c.buf k).data.getD (c.disk k)

/-- An `inode_t`: `desc` is the offset of its descriptor in the buffer `buf`. -/
structure Inode where
  dev : Int
  nr : Nat
  buf : Key
  desc : Nat
  count : Nat
  mount : Int
  pipe : Bool

/-- A `super_block_t` with the fields of its `super_desc_t`. -/
structure SuperBlock where
  dev : Int
  inodes : Nat
  zones : Nat
  imapBlocks : Nat
  zmapBlocks : Nat
  firstdatazone : Nat
  inodeList : List Nat
  iroot : Option Nat
  imount : Option Nat

/-- `sb->imaps[i]`: the inode bitmap's blocks follow the super block. -/
def SuperBlock.imap (sb : SuperBlock) (i : Nat) : Option Key :=
  if i < sb.imapBlocks then some ⟨sb.dev, 2 + i⟩ else none

/-- `sb->zmaps[i]`: the zone bitmap's blocks follow the inode bitmap. -/
def SuperBlock.zmap (sb : SuperBlock) (i : Nat) : Option Key :=
  if i < sb.zmapBlocks then some ⟨sb.dev, 2 + sb.imapBlocks + i⟩ else none

/-- The fields of a `task_t` the file system reads. -/
structure Task where
  uid : Nat
  gid : Nat
  umask : Nat
  ipwd : Nat
  iroot : Nat
  files : Nat → Option Nat

/-- A `file_t`. -/
structure File where
  inode : Option Nat
  count : Nat
  offset : Nat
  flags : Nat
  mode : Nat

/-- The in-memory tables. -/
structure Tables where
  inodeTable : Nat → Inode
  superTable : Nat → SuperBlock
  task : Nat → Task
  running : Nat
  fileTable : Nat → File

/-- The machine: `clock i` is what the `i`th call of `time` answers. -/
structure Kernel where
  cache : Cache
  tab : Tables
  clock : Nat → Nat
  tick : Nat

/-- The bytes a block shows. -/
abbrev Kernel.view (s : Kernel) (k : Key) : Bytes := s.cache.view k

/-- What stands on the stack of a task that waits for the disk: the buffer call itself, an
    allocator with the bit it has taken or given back, `bmap` at a slot (inode, buffer, offset,
    level), `inode_write` giving a block back, a creating call with the entry it will name. -/
inductive Frame where
  | bread (k : Key)
  | bwrite (k : Key)
  | balloc (dev : Int) (bit : Nat)
  | bfree (dev : Int) (bit : Nat)
  | ialloc (dev : Int) (bit : Nat)
  | ifree (dev : Int) (bit : Nat)
  | bmap (x : Nat) (buf : Key) (off level : Nat)
  | inodeWrite (x : Nat)
  | create (buf : Key) (off : Nat)
  deriving DecidableEq, Repr

/-- Kernel code. -/
abbrev Code := Prog Stop Kernel (List Frame)

namespace Code

/-- Stop unless `c` holds. -/
def assert (c : Bool) : Code Unit := Prog.check c .assertion

/-- Run `p` with the frame `f` on the stack. -/
def within {α : Type} (f : Frame) (p : Code α) : Code α := Prog.mapLabel (· ++ [f]) p

/-- A computation that may stop. -/
def lift {α : Type} : Except Stop α → Code α
  | .ok a => pure a
  | .error e => Prog.stop e

end Code

open Code

/-! ## 2. Buffers -/

/-- Change the buffer of `k`. -/
def Cache.setBuf (c : Cache) (k : Key) (b : Buffer) : Cache :=
  { c with buf := Function.update c.buf k b }

/-- Change the reference count. -/
def Cache.addCount (c : Cache) (k : Key) (n : Int) : Cache :=
  c.setBuf k { c.buf k with count := (c.buf k).count + n }

/-- The device's bytes arrive in a buffer that is not valid. -/
def Cache.load (c : Cache) (k : Key) : Cache :=
  match (c.buf k).data with
  | some _ => c
  | none => c.setBuf k { c.buf k with data := some (c.disk k), dirty := false }

/-- Hand the bytes to the device. -/
def Cache.flush (c : Cache) (k : Key) : Cache :=
  { c with disk := Function.update c.disk k (c.view k) }

/-- The device has the bytes. -/
def Cache.flushed (c : Cache) (k : Key) : Cache :=
  c.setBuf k { c.buf k with data := some (c.view k), dirty := false }

/-- `bf->dirty = true`. -/
def Cache.setDirty (c : Cache) (k : Key) : Cache :=
  c.setBuf k { c.buf k with dirty := true }

/-- Write through a pointer into the buffer's data. -/
def Cache.poke (c : Cache) (k : Key) (f : Bytes → Bytes) : Cache :=
  c.setBuf k { c.buf k with data := some (f (c.view k)) }

/-- Change the cache. -/
def onCache (f : Cache → Cache) : Code Unit :=
  Prog.modify fun s => { s with cache := f s.cache }

/-- Change the tables. -/
def onTables (f : Tables → Tables) : Code Unit :=
  Prog.modify fun s => { s with tab := f s.tab }

/-- `bread`: the buffer of the block, read from the device unless it is valid. A task that had
    to wait looks at `valid` again: another one may have read the block in between. -/
def bread (dev : Int) (block : Nat) : Code Key := do
  let k : Key := ⟨dev, block⟩
  onCache (·.addCount k 1)
  let b ← Prog.reads fun s => s.cache.buf k
  if b.data.isSome then
    return k
  else
    Prog.sleep [.bread k]
    onCache (·.load k)
    return k

/-- `bwrite`: the bytes go to the device at once, the flag is cleared when the write is done. -/
def bwrite (k : Key) : Code Unit := do
  let b ← Prog.reads fun s => s.cache.buf k
  if b.dirty then
    onCache (·.flush k)
    Prog.sleep [.bwrite k]
    onCache (·.flushed k)
  else
    return ()

/-- `brelse`. -/
def brelse (k : Key) : Code Unit := do
  bwrite k
  onCache (·.addCount k (-1))
  let b ← Prog.reads fun s => s.cache.buf k
  assert (0 ≤ b.count)

/-- `brelse` of a pointer that may be NULL. -/
def brelse? : Option Key → Code Unit
  | none => return ()
  | some k => brelse k

/-- `bf->dirty = true`. -/
def setDirty (k : Key) : Code Unit := onCache (·.setDirty k)

/-- The bytes of a buffer. -/
def bytesOf (k : Key) : Code Bytes := Prog.reads fun s => s.view k

/-- Write through a pointer into a buffer. -/
def poke (k : Key) (f : Bytes → Bytes) : Code Unit := onCache (·.poke k f)

/-- `time()`. -/
def time : Code Nat := do
  let s ← Prog.read
  Prog.modify fun s => { s with tick := s.tick + 1 }
  return s.clock s.tick

/-! ## 3. Tables -/

/-- The in-memory inode `x` points to. -/
def inodeAt (x : Nat) : Code Inode := Prog.reads fun s => s.tab.inodeTable x

def Tables.setInode (t : Tables) (x : Nat) (i : Inode) : Tables :=
  { t with inodeTable := Function.update t.inodeTable x i }

/-- Change the in-memory inode `x` points to. -/
def onInode (x : Nat) (f : Inode → Inode) : Code Unit :=
  onTables fun t => t.setInode x (f (t.inodeTable x))

def Tables.setSuper (t : Tables) (i : Nat) (sb : SuperBlock) : Tables :=
  { t with superTable := Function.update t.superTable i sb }

/-- `get_super`: the first slot of the table with that device. -/
def Tables.getSuper (t : Tables) (dev : Int) : Option Nat :=
  (List.range SUPER_NR).find? fun i => (t.superTable i).dev == dev

/-- `sb = get_super(dev); assert(sb);` -/
def superOf (dev : Int) : Code SuperBlock := do
  let t ← Prog.reads Kernel.tab
  let i ← Prog.need .assertion (t.getSuper dev)
  return t.superTable i

/-- `running_task`. -/
def runningTask : Code Task := Prog.reads fun s => s.tab.task s.tab.running

/-! ## 4. Inode descriptors -/

/-- A field of `inode_desc_t`: its offset and width in bytes. -/
structure Field where
  off : Nat
  width : Nat

namespace Field

def mode : Field := ⟨0, 2⟩
def uid : Field := ⟨2, 2⟩
def size : Field := ⟨4, 4⟩
def mtime : Field := ⟨8, 4⟩
def gid : Field := ⟨12, 1⟩
def nlinks : Field := ⟨13, 1⟩
def zone (i : Nat) : Field := ⟨14 + 2 * i, 2⟩

end Field

/-- `inode->desc->f`. -/
def descGet (x : Nat) (f : Field) : Code Nat := do
  let i ← inodeAt x
  let b ← bytesOf i.buf
  return fetch b (i.desc + f.off) f.width

/-- `inode->desc->f = v`. -/
def descSet (x : Nat) (f : Field) (v : Nat) : Code Unit := do
  let i ← inodeAt x
  poke i.buf fun b => store b (i.desc + f.off) f.width v

/-- `inode->buf->dirty = true`. -/
def inodeDirty (x : Nat) : Code Unit := do
  let i ← inodeAt x
  setDirty i.buf

/-! ## 5. File types -/

def IFMT : Nat := 0o170000
def IFREG : Nat := 0o100000
def IFBLK : Nat := 0o060000
def IFDIR : Nat := 0o040000
def IFCHR : Nat := 0o020000
def ISVTX : Nat := 0o001000

def ISFILE (m : Nat) : Bool := m &&& IFMT == IFREG
def ISDIR (m : Nat) : Bool := m &&& IFMT == IFDIR
def ISCHR (m : Nat) : Bool := m &&& IFMT == IFCHR
def ISBLK (m : Nat) : Bool := m &&& IFMT == IFBLK

end Yuios
