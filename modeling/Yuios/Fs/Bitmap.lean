/-
  File:      Yuios/Fs/Bitmap.lean
  Subject:   BITMAPS AND THE ALLOCATORS: `lib/bitmap.c` and the first half of `fs/bmap.c`.

  A `bitmap_t` points at bytes it does not own: `Bitmap.room` is the number of bytes from the
  pointer on that belong to the buffer behind it. An access at or past `room` lands in whatever
  memory follows and stops the model (`Stop.outOfBuffer`); `length`, the bound the code itself
  checks in `bitmap_test`, may be larger than `room`.
-/
import Yuios.Fs.State

namespace Yuios

open Lib Code

/-- A `bitmap_t` over `room` bytes of real memory. -/
structure Bitmap where
  bits : Bytes
  length : Nat
  offset : Nat
  room : Nat

/-- `bitmap_test`. -/
def bitmapTest (map : Bitmap) (index : Nat) : Except Stop Bool :=
  if index < map.offset then .error .assertion
  else if map.length ≤ (index - map.offset) / 8 then .error .assertion
  else if map.room ≤ (index - map.offset) / 8 then .error .outOfBuffer
  else .ok (getBit map.bits (index - map.offset))

/-- `bitmap_set`: the length is not checked here. -/
def bitmapSet (map : Bitmap) (index : Nat) (value : Bool) : Except Stop Bitmap :=
  if index < map.offset then .error .assertion
  else if map.room ≤ (index - map.offset) / 8 then .error .outOfBuffer
  else .ok { map with bits := setBit map.bits (index - map.offset) value }

/-- The search loop of `bitmap_scan`: the start of the first run of `count` clear bits. -/
def scanLoop (map : Bitmap) (count : Nat) : (bitsLeft nextBit counter : Nat) → Except Stop (Option Nat)
  | 0, _, _ => .ok none
  | bitsLeft + 1, nextBit, counter => do
    let set ← bitmapTest map (map.offset + nextBit)
    let counter := if set then 0 else counter + 1
    if counter = count then
      return some (nextBit + 1 - count)
    else
      scanLoop map count bitsLeft (nextBit + 1) counter

/-- The marking loop of `bitmap_scan`. -/
def markLoop : (map : Bitmap) → (bitsLeft nextBit : Nat) → Except Stop Bitmap
  | map, 0, _ => .ok map
  | map, bitsLeft + 1, nextBit => do
    let map ← bitmapSet map (map.offset + nextBit) true
    markLoop map bitsLeft (nextBit + 1)

/-- `bitmap_scan`: the number of the first bit of the run and the bitmap with the run set. -/
def bitmapScan (map : Bitmap) (count : Nat) : Except Stop (Option (Nat × Bitmap)) := do
  match ← scanLoop map count (map.length * 8) 0 0 with
  | none => return none
  | some start =>
    let map' ← markLoop map count start
    return some (start + map.offset, map')

/-- A bitmap over the data of a buffer. -/
def bitmapMake (k : Key) (length offset : Nat) : Code Bitmap := do
  let b ← bytesOf k
  return ⟨b, length, offset, BLOCK_SIZE⟩

/-! ## The allocators

  `balloc` and `ialloc` differ in the bitmap, the length and the offset they give it, and the
  limit they check; so do `bfree` and `ifree`. -/

/-- The loop of the allocators over the bitmap's blocks: the block last looked at and the bit
    taken (`EOF` if none). -/
def allocLoop (maps : Nat → Option Key) (length : Nat) (offset : Nat → Nat) (limit : Nat) :
    (n i : Nat) → Option Key → Code (Option Key × Nat)
  | 0, _, buf => return (buf, EOF)
  | n + 1, i, _ => do
    let buf ← Prog.need .assertion (maps i)
    let map ← bitmapMake buf length (offset i)
    match ← lift (bitmapScan map 1) with
    | none => allocLoop maps length offset limit n (i + 1) (some buf)
    | some (bit, map) =>
      poke buf fun _ => map.bits
      assert (bit < limit)
      setDirty buf
      return (some buf, bit)

/-- The loop of the freeing calls: the first bitmap block `idx > BLOCK_BITS * (i + 1)` does not
    skip. -/
def freeLoop (maps : Nat → Option Key) (length : Nat) (offset : Nat → Nat) (idx : Nat) :
    (n i : Nat) → Code Key
  | 0, _ => Prog.stop .fault
  | n + 1, i => do
    if idx > BLOCK_BITS * (i + 1) then
      freeLoop maps length offset idx n (i + 1)
    else
      let buf ← Prog.need .assertion (maps i)
      let map ← bitmapMake buf length (offset i)
      let set ← lift (bitmapTest map idx)
      assert set
      let map ← lift (bitmapSet map idx false)
      poke buf fun _ => map.bits
      setDirty buf
      return buf

/-- The first zone of the zone bitmap's block `i`. -/
def SuperBlock.zmapOffset (sb : SuperBlock) (i : Nat) : Nat :=
  i * BLOCK_BITS + sb.firstdatazone - 1

/-- `balloc`. -/
def balloc (dev : Int) : Code Nat := do
  let sb ← superOf dev
  let (buf, bit) ← allocLoop sb.zmap BLOCK_SIZE sb.zmapOffset sb.zones ZMAP_NR 0 none
  let buf ← Prog.need .assertion buf
  within (.balloc dev bit) (bwrite buf)
  return bit

/-- `bfree`. -/
def bfree (dev : Int) (idx : Nat) : Code Unit := do
  let sb ← superOf dev
  assert (idx < sb.zones)
  let buf ← freeLoop sb.zmap BLOCK_SIZE sb.zmapOffset idx ZMAP_NR 0
  within (.bfree dev idx) (bwrite buf)

/-- `ialloc`: the bitmap's length is given as `BLOCK_BITS` bytes here and in `ifree`. -/
def ialloc (dev : Int) : Code Nat := do
  let sb ← superOf dev
  let (buf, bit) ← allocLoop sb.imap BLOCK_BITS (· * BLOCK_BITS) sb.inodes IMAP_NR 0 none
  let buf ← Prog.need .assertion buf
  within (.ialloc dev bit) (bwrite buf)
  return bit

/-- `ifree`. -/
def ifree (dev : Int) (idx : Nat) : Code Unit := do
  let sb ← superOf dev
  assert (idx < sb.inodes)
  let buf ← freeLoop sb.imap BLOCK_BITS (· * BLOCK_BITS) idx IMAP_NR 0
  within (.ifree dev idx) (bwrite buf)

end Yuios
