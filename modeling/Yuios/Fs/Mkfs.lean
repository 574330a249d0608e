/-
  File:      Yuios/Fs/Mkfs.lean
  Subject:   MAKING A FILE SYSTEM: `devmkfs` and `sys_mkfs` of `fs/super.c`.

  `device_ioctl` answers how many sectors the device has; the number of its blocks is an argument here. What
  `devmkfs` does between taking a super block and giving it back is kernel code of its own (`format`), in the
  pieces its comments name: the super block, the bitmaps, the padding behind their last valid bits, the
  root directory.
-/
import Mathlib.Algebra.Group.Int.Defs
import Mathlib.Algebra.Group.Nat.Defs
import Yuios.Fs.Super
import Yuios.Kernel.Paging

namespace Yuios

open Lib Code

open Paging (divRoundUp)

/-! ## 1. Sizes -/

/-- The numbers `devmkfs` works out; those of the super block's descriptor have 16 bits, `zcount` is an
    `int`. -/
structure Sizes where
  inodes : Nat
  zones : Nat
  imapBlocks : Nat
  zmapBlocks : Nat
  firstdatazone : Nat
  zcount : Int
  deriving DecidableEq, Repr

def sizes (totalBlock icount : Nat) : Sizes :=
  let inodeBlocks : Nat := divRoundUp (icount * 32 % 2 ^ 32) BLOCK_SIZE
  let imapBlocks : Nat := divRoundUp icount BLOCK_BITS % 2 ^ 16
  let zcount : Int := (totalBlock : Int) - imapBlocks - inodeBlocks - 2
  let zmapBlocks : Nat := divRoundUp (zcount % 2 ^ 32).toNat BLOCK_BITS % 2 ^ 16
  { inodes := icount % 2 ^ 16
    zones := totalBlock % 2 ^ 16
    imapBlocks := imapBlocks
    zmapBlocks := zmapBlocks
    firstdatazone := (2 + imapBlocks + zmapBlocks + inodeBlocks) % 2 ^ 16
    zcount := zcount }

/-- The number of inodes: 0 stands for a third of the blocks. -/
def inodeCount (totalBlock icount : Nat) : Nat := if icount = 0 then totalBlock / 3 else icount

namespace Sizes

variable (z : Sizes)

/-- The descriptor in block 1: the fields of the sizes, `log_zone_size`, `max_size` and `magic`. -/
def descriptor (b : Bytes) : Bytes :=
  let b := store b 0 2 z.inodes
  let b := store b 2 2 z.zones
  let b := store b 4 2 z.imapBlocks
  let b := store b 6 2 z.zmapBlocks
  let b := store b 8 2 z.firstdatazone
  let b := store b 10 2 0
  let b := store b 12 4 (BLOCK_SIZE * TOTAL_BLOCK)
  store b 16 2 MINIX1_MAGIC

/-- `sb->desc` points into block 1. -/
def superBlock (sb : SuperBlock) : SuperBlock :=
  { sb with
    inodes := z.inodes
    zones := z.zones
    imapBlocks := z.imapBlocks
    zmapBlocks := z.zmapBlocks
    firstdatazone := z.firstdatazone }

end Sizes

/-! ## 2. The pieces -/

/-- The super block's descriptor. -/
def formatSuper (dev : Int) (i : Nat) (z : Sizes) : Code Unit := do
  let buf ← bread dev 1
  setDirty buf
  poke buf z.descriptor
  onSuper i z.superBlock

/-- The loop that reads `n` bitmap blocks from `base` on and clears them; `sb->imaps` and `sb->zmaps` have
    `limit` elements. -/
def clearMaps (dev : Int) (base limit n : Nat) : Code Unit :=
  (List.range n).forM fun j => do
    Prog.check (j < limit) .outOfBuffer
    let buf ← bread dev (base + j)
    poke buf fun b => copyIn b 0 (fun _ => 0) BLOCK_SIZE
    setDirty buf

/-- `while (remain--) { data |= bits; bits >>= 1; }`. -/
def padLoop : (remain : Nat) → (bits data : UInt8) → UInt8
  | 0, _, data => data
  | remain + 1, bits, data => padLoop remain (bits >>> 1) (data ||| bits)

/-- The bits of a bitmap's last block from `count` on are set: the bytes behind the byte of bit `count`, and
    that byte is written as a whole. -/
def padMap (map : Key) (count : Nat) : Code Unit := do
  setDirty map
  let offset := count % BLOCK_BITS
  let first := offset / 8
  poke map fun b => copyIn b (first + 1) (fun _ => 0xff) (BLOCK_SIZE - first - 1)
  poke map fun b => store b first 1 (padLoop (8 - offset % 8) 0x80 0).toNat

/-- `maps[n - 1]`. -/
def lastMap (maps : Nat → Option Key) (n : Nat) : Code Key :=
  Prog.need .fault (if n = 0 then none else maps (n - 1))

/-- The bitmaps: bit 0 of both and inode 1 are taken, then the last blocks are padded. A `zcount` below 0
    does not come this far. -/
def formatMaps (dev : Int) (i icount : Nat) (z : Sizes) : Code Unit := do
  clearMaps dev 2 IMAP_NR z.imapBlocks
  clearMaps dev (2 + z.imapBlocks) ZMAP_NR z.zmapBlocks
  let _ ← balloc dev
  let _ ← ialloc dev
  let _ ← ialloc dev
  let sb ← superAt i
  let imap ← lastMap sb.imap z.imapBlocks
  let zmap ← lastMap sb.zmap z.zmapBlocks
  padMap imap (icount + 1)
  padMap zmap z.zcount.toNat

/-- The root directory's block: the entries `.` and `..`. -/
def formatEntries (dev : Int) (iroot zone : Nat) : Code Unit := do
  let buf ← bread dev zone
  setDirty buf
  poke buf fun b => copyIn b 0 (fun _ => 0) BLOCK_SIZE
  let ino ← inodeAt iroot
  setDentry buf 0 DOT ino.nr
  setDentry buf 16 DOTDOT ino.nr
  brelse buf

/-- The root directory. -/
def formatRoot (dev : Int) (i : Nat) : Code Unit := do
  let task ← runningTask
  let iroot ← newInode dev 1
  onSuper i fun sb => { sb with iroot := some iroot }
  descSet iroot .mode ((0o777 &&& (0o777 ^^^ (task.umask &&& 0o777))) ||| IFDIR)
  descSet iroot .size 32
  descSet iroot .nlinks 2
  let zone ← bmap iroot 0 true
  formatEntries dev iroot zone

/-- What `devmkfs` does with the super block it has taken. -/
def format (dev : Int) (i totalBlock icount : Nat) : Code Unit := do
  let z := sizes totalBlock icount
  formatSuper dev i z
  formatMaps dev i icount z
  formatRoot dev i

/-! ## 3. The calls -/

/-- `devmkfs`. -/
def devmkfs (dev : Int) (totalBlock icount : Nat) : Call Bool := do
  onKernel (assert (totalBlock ≠ 0))
  onKernel (assert (icount < totalBlock))
  let i ← getFreeSuper
  onSuper i fun sb => { sb with dev := dev }
  setSuperCount i 1
  onKernel (format dev i totalBlock (inodeCount totalBlock icount))
  putSuper (some i)
  return true

/-- `sys_mkfs`; `totalBlock` says how many blocks a device has. -/
def sysMkfs (totalBlock : Nat → Nat) (devname : List UInt8) (icount : Nat) : Call Bool := do
  match ← namei devname with
  | none => return false
  | some inode =>
    let mode ← descGet inode .mode
    if !ISBLK mode then
      iput inode
      return false
    else
      let dev ← descGet inode (.zone 0)
      onKernel (assert (dev ≠ 0))
      let ret ← devmkfs dev (totalBlock dev) icount
      iput inode
      return ret

end Yuios
