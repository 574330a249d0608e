/-
  File:      Yuios/Fs/Format.lean
  Subject:   WHAT `devmkfs` LEAVES ON A DEVICE, whatever was on it.
-/
import Yuios.Fs.Mkfs
import Yuios.Fs.Picture

namespace Yuios

open Lib Prog Code

open Paging (divRoundUp)

/-! ## 1. Numbers -/

/-- The blocks of the inode table. -/
def Sizes.tableBlocks (z : Sizes) : Nat := z.firstdatazone - (2 + z.imapBlocks + z.zmapBlocks)

/-- The sizes for `icount` inodes on `totalBlock` blocks, at least one of them a data zone: each bitmap has
    the blocks that its bits need and no more, the inode table ends where the data area begins. `zcount`
    counts the data zones and the zone bitmap's own blocks. -/
structure Sizes.Fit (z : Sizes) (totalBlock icount : Nat) : Prop where
  inodes : z.inodes = icount
  zones : z.zones = totalBlock
  small : totalBlock ≤ 65535
  two : 2 ≤ icount
  lt : icount < totalBlock
  imapEnough : icount ≤ z.imapBlocks * BLOCK_BITS
  imapSpare : z.imapBlocks * BLOCK_BITS < icount + BLOCK_BITS
  zmapEnough : z.zcount.toNat ≤ z.zmapBlocks * BLOCK_BITS
  zmapSpare : z.zmapBlocks * BLOCK_BITS < z.zcount.toNat + BLOCK_BITS
  table : icount ≤ z.tableBlocks * BLOCK_INODES
  tableSpare : z.tableBlocks * BLOCK_INODES < icount + BLOCK_INODES
  first : 2 + z.imapBlocks + z.zmapBlocks + z.tableBlocks = z.firstdatazone
  total : 2 + z.imapBlocks + z.tableBlocks + z.zcount.toNat = totalBlock
  room : z.firstdatazone < totalBlock

/-- `div_round_up` where the sum does not wrap. -/
theorem divRoundUp_spec {num size : Nat} (h : num + size ≤ 2 ^ 32) (hsize : 0 < size) :
    num ≤ divRoundUp num size * size ∧ divRoundUp num size * size < num + size := by
  rw [divRoundUp, Nat.mod_eq_of_lt (by omega)]
  have := Nat.div_add_mod' (num + size - 1) size
  have := Nat.mod_lt (num + size - 1) hsize
  omega

/-- The sizes where no number wraps. -/
theorem sizes_eq {totalBlock n : Nat} (hsmall : totalBlock ≤ 65535) (hlt : n < totalBlock)
    (hz : 2 ≤ (sizes totalBlock n).zcount) :
    ∃ imap zmap table zc : Nat,
      sizes totalBlock n = ⟨n, totalBlock, imap, zmap, 2 + imap + zmap + table, zc⟩ ∧
      (n ≤ imap * 8192 ∧ imap * 8192 < n + 8192) ∧ (zc ≤ zmap * 8192 ∧ zmap * 8192 < zc + 8192) ∧
      (n * 32 ≤ table * 1024 ∧ table * 1024 < n * 32 + 1024) ∧ 2 + imap + table + zc = totalBlock := by
  have himap : n ≤ divRoundUp n 8192 * 8192 ∧ divRoundUp n 8192 * 8192 < n + 8192 :=
    divRoundUp_spec (by omega) (by decide)
  have htable : n * 32 ≤ divRoundUp (n * 32 % 2 ^ 32) 1024 * 1024 ∧
      divRoundUp (n * 32 % 2 ^ 32) 1024 * 1024 < n * 32 + 1024 := by
    rw [Nat.mod_eq_of_lt (by omega)]
    exact divRoundUp_spec (by omega) (by decide)
  have hs : sizes totalBlock n = ⟨n % 2 ^ 16, totalBlock % 2 ^ 16, divRoundUp n 8192 % 2 ^ 16,
      divRoundUp (((totalBlock : Int) - (divRoundUp n 8192 % 2 ^ 16 : Nat) -
        (divRoundUp (n * 32 % 2 ^ 32) 1024 : Nat) - 2) % 2 ^ 32).toNat 8192 % 2 ^ 16,
      (2 + divRoundUp n 8192 % 2 ^ 16 +
        divRoundUp (((totalBlock : Int) - (divRoundUp n 8192 % 2 ^ 16 : Nat) -
          (divRoundUp (n * 32 % 2 ^ 32) 1024 : Nat) - 2) % 2 ^ 32).toNat 8192 % 2 ^ 16 +
        divRoundUp (n * 32 % 2 ^ 32) 1024) % 2 ^ 16,
      (totalBlock : Int) - (divRoundUp n 8192 % 2 ^ 16 : Nat) - (divRoundUp (n * 32 % 2 ^ 32) 1024 : Nat) - 2⟩ := rfl
  rw [hs] at hz ⊢
  generalize divRoundUp n 8192 = imap at himap hz ⊢
  generalize divRoundUp (n * 32 % 2 ^ 32) 1024 = table at htable hz ⊢
  rw [Nat.mod_eq_of_lt (show imap < 2 ^ 16 by omega)] at hz ⊢
  have hle : imap + table + 4 ≤ totalBlock := by
    change (2 : Int) ≤ totalBlock - imap - table - 2 at hz
    omega
  obtain ⟨zc, hzc⟩ := Nat.exists_eq_add_of_le (show imap + table + 2 ≤ totalBlock by omega)
  have hcount : (totalBlock : Int) - imap - table - 2 = zc := by omega
  have hmod : ((zc : Int) % 2 ^ 32).toNat = zc := by omega
  rw [hcount, hmod]
  have hzmap : zc ≤ divRoundUp zc 8192 * 8192 ∧ divRoundUp zc 8192 * 8192 < zc + 8192 :=
    divRoundUp_spec (by omega) (by decide)
  generalize divRoundUp zc 8192 = zmap at hzmap ⊢
  refine ⟨imap, zmap, table, zc, ?_, himap, hzmap, htable, by omega⟩
  rw [Sizes.mk.injEq]
  refine ⟨?_, ?_, rfl, ?_, ?_, rfl⟩ <;> omega

theorem sizes_fit {totalBlock n : Nat} (hsmall : totalBlock ≤ 65535) (hn : 2 ≤ n) (hlt : n < totalBlock)
    (hz : 2 ≤ (sizes totalBlock n).zcount) : (sizes totalBlock n).Fit totalBlock n := by
  obtain ⟨imap, zmap, table, zc, he, ⟨h₁, h₂⟩, ⟨h₃, h₄⟩, ⟨h₅, h₆⟩, h₇⟩ := sizes_eq hsmall hlt hz
  rw [he] at hz ⊢
  dsimp only at hz
  have htable : 2 + imap + zmap + table - (2 + imap + zmap) = table := by omega
  exact ⟨rfl, rfl, hsmall, hn, hlt, h₁, h₂, h₃, h₄,
    show n ≤ (2 + imap + zmap + table - (2 + imap + zmap)) * 32 by omega,
    show (2 + imap + zmap + table - (2 + imap + zmap)) * 32 < n + 32 by omega,
    show 2 + imap + zmap + (2 + imap + zmap + table - (2 + imap + zmap)) = 2 + imap + zmap + table by omega,
    show 2 + imap + (2 + imap + zmap + table - (2 + imap + zmap)) + zc = totalBlock by omega,
    show 2 + imap + zmap + table < totalBlock by omega⟩

namespace Sizes.Fit

variable {z : Sizes} {totalBlock n : Nat} (h : z.Fit totalBlock n)

include h

theorem zcount_lt : z.zmapBlocks < z.zcount.toNat := by
  have := h.first
  have := h.total
  have := h.room
  omega

theorem imap_pos : 0 < z.imapBlocks := by
  have := h.two
  have henough := h.imapEnough
  rw [show BLOCK_BITS = 8192 from rfl] at henough
  omega

theorem zmap_pos : 0 < z.zmapBlocks := by
  have := h.zcount_lt
  have henough := h.zmapEnough
  rw [show BLOCK_BITS = 8192 from rfl] at henough
  omega

theorem imap_le : z.imapBlocks ≤ IMAP_NR := by
  have := h.small
  have := h.lt
  have hspare := h.imapSpare
  rw [show BLOCK_BITS = 8192 from rfl] at hspare
  rw [show IMAP_NR = 8 from rfl]
  omega

theorem zmap_le : z.zmapBlocks ≤ ZMAP_NR := by
  have := h.small
  have := h.total
  have hspare := h.zmapSpare
  rw [show BLOCK_BITS = 8192 from rfl] at hspare
  rw [show ZMAP_NR = 8 from rfl]
  omega

theorem table_pos : 0 < z.tableBlocks := by
  have := h.two
  have htable := h.table
  rw [show BLOCK_INODES = 32 from rfl] at htable
  omega

end Sizes.Fit

/-! ## 2. The padding of a bitmap -/

/-- What `padMap` makes of the last block. -/
def padded (count : Nat) (b : Bytes) : Bytes :=
  store (copyIn b (count % BLOCK_BITS / 8 + 1) (fun _ => 0xff) (BLOCK_SIZE - count % BLOCK_BITS / 8 - 1))
    (count % BLOCK_BITS / 8) 1 (padLoop (8 - count % BLOCK_BITS % 8) 0x80 0).toNat

/-- The byte that is written as a whole. -/
theorem testBit_padLoop : ∀ r < 8, ∀ j < 8, (padLoop (8 - r) 0x80 0).toNat.testBit j = decide (r ≤ j) := by
  decide

/-- **The bits of the last block**: those in the bytes before stay, the others say whether they are behind. -/
theorem getBit_padded (b : Bytes) {count q : Nat} (hq : q < BLOCK_BITS) :
    getBit (padded count b) q =
      if q / 8 < count % BLOCK_BITS / 8 then getBit b q else decide (count % BLOCK_BITS ≤ q) := by
  have hoff : count % BLOCK_BITS < BLOCK_BITS := Nat.mod_lt _ (by decide)
  unfold padded getBit
  generalize count % BLOCK_BITS = off at hoff
  have hbits : BLOCK_BITS = 8192 := rfl
  have hsize : BLOCK_SIZE = 1024 := rfl
  by_cases hlt : q / 8 < off / 8
  · rw [if_pos hlt, store_of_ne (.inl hlt), copyIn_of_ne (.inl (by omega))]
  · rw [if_neg hlt]
    by_cases he : q / 8 = off / 8
    · have hbyte : store (copyIn b (off / 8 + 1) (fun _ => 0xff) (BLOCK_SIZE - off / 8 - 1)) (off / 8) 1
          (padLoop (8 - off % 8) 0x80 0).toNat (q / 8) = padLoop (8 - off % 8) 0x80 0 := by
        rw [he, store, if_pos (by omega), Nat.sub_self, Nat.pow_zero, Nat.div_one, UInt8.ofNat_toNat]
      rw [hbyte, testBit_padLoop _ (Nat.mod_lt _ (by decide)) _ (Nat.mod_lt _ (by decide))]
      congr 1
      rw [eq_iff_iff]
      omega
    · have hall : ∀ j < 8, (0xff : UInt8).toNat.testBit j = true := by decide
      rw [store_of_ne (.inr (by omega)), copyIn_of_mem (by omega) (by omega), hall _ (Nat.mod_lt _ (by decide)),
        eq_comm, decide_eq_true_iff]
      omega

/-! ## 3. The bitmaps -/

/-- The blocks of a bitmap. -/
def mapKeys (dev : Int) (base n : Nat) : List Key := (List.range n).map fun j => ⟨dev, base + j⟩

theorem mem_mapKeys {dev : Int} {base n : Nat} {k : Key} :
    k ∈ mapKeys dev base n ↔ k.dev = dev ∧ base ≤ k.block ∧ k.block < base + n := by
  rw [mapKeys, List.mem_map]
  constructor
  · rintro ⟨j, hj, rfl⟩
    have := List.mem_range.mp hj
    exact ⟨rfl, by dsimp only; omega, by dsimp only; omega⟩
  · rintro ⟨hd, h₁, h₂⟩
    refine ⟨k.block - base, List.mem_range.mpr (by omega), ?_⟩
    obtain ⟨d, b⟩ := k
    dsimp only at hd h₁ ⊢
    rw [hd, Nat.add_sub_cancel' h₁]

theorem mapKeys_mem {dev : Int} {base n j : Nat} (h : j < n) : (⟨dev, base + j⟩ : Key) ∈ mapKeys dev base n :=
  mem_mapKeys.mpr ⟨rfl, Nat.le_add_right _ _, Nat.add_lt_add_left h base⟩

theorem mapKeys_succ (dev : Int) (base n : Nat) :
    mapKeys dev base (n + 1) = mapKeys dev base n ++ [⟨dev, base + n⟩] := by
  rw [mapKeys, List.range_succ, List.map_append]
  rfl

section Bits

variable (w : View) (dev : Int) (base : Nat)

/-- The blocks from `base` on, cleared. -/
def cleared (n : Nat) : View := fun k =>
  if k.dev = dev ∧ base ≤ k.block ∧ k.block < base + n then copyIn (w k) 0 (fun _ => 0) BLOCK_SIZE else w k

/-- The bitmap whose block `last` has been padded. -/
def padBits (last count : Nat) : View :=
  Function.update w ⟨dev, base + last⟩ (padded count (w ⟨dev, base + last⟩))

/-- Bit `q` of it, which was `b`. -/
def padBit (last count q : Nat) (b : Bool) : Bool :=
  if q / BLOCK_BITS = last ∧ count % BLOCK_BITS / 8 ≤ q % BLOCK_BITS / 8 then
    decide (count % BLOCK_BITS ≤ q % BLOCK_BITS)
  else b

variable {w dev base}

theorem cleared_zero : cleared w dev base 0 = w := by
  funext k
  rw [cleared, if_neg (by omega)]

theorem cleared_of_ne {n : Nat} {k : Key} (h : k ∉ mapKeys dev base n) : cleared w dev base n k = w k :=
  if_neg (mt mem_mapKeys.mpr h)

theorem cleared_succ (n : Nat) : cleared w dev base (n + 1) = Function.update (cleared w dev base n)
    ⟨dev, base + n⟩ (copyIn (cleared w dev base n ⟨dev, base + n⟩) 0 (fun _ => 0) BLOCK_SIZE) := by
  funext k
  by_cases e : k = ⟨dev, base + n⟩
  · rw [e, Function.update_self]
    unfold cleared
    rw [if_pos ⟨rfl, by dsimp only; omega, by dsimp only; omega⟩, if_neg (by dsimp only; omega)]
  · rw [Function.update_of_ne e]
    unfold cleared
    have hk : k.dev = dev → k.block ≠ base + n := fun hd hb => e (by cases k; subst hd hb; rfl)
    by_cases hd : k.dev = dev
    · have := hk hd
      congr 1
      rw [eq_iff_iff]
      omega
    · rw [if_neg fun h => hd h.1, if_neg fun h => hd h.1]

theorem bitOf_cleared {n q : Nat} (h : q / BLOCK_BITS < n) : bitOf (cleared w dev base n) dev base q = false := by
  have hmod : q % BLOCK_BITS / 8 < BLOCK_SIZE := by
    have := Nat.mod_lt q (show BLOCK_BITS > 0 by decide)
    unfold BLOCK_BITS BLOCK_SIZE at *
    omega
  rw [bitOf, getBit, cleared, if_pos (mem_mapKeys.mp (mapKeys_mem h)),
    copyIn_of_mem (Nat.zero_le _) (Nat.lt_of_lt_of_eq hmod (Nat.zero_add _).symm)]
  exact Nat.zero_testBit _

theorem bitOf_padBits {last count q : Nat} :
    bitOf (padBits w dev base last count) dev base q = padBit last count q (bitOf w dev base q) := by
  unfold bitOf padBits padBit
  by_cases hl : q / BLOCK_BITS = last
  · rw [hl, Function.update_self, getBit_padded _ (Nat.mod_lt _ (by decide))]
    by_cases hlt : q % BLOCK_BITS / 8 < count % BLOCK_BITS / 8
    · rw [if_pos hlt, if_neg fun h => by omega]
    · rw [if_neg hlt, if_pos ⟨rfl, by omega⟩]
  · rw [if_neg fun h => hl h.1, Function.update_of_ne fun e => hl (by
      have := congrArg Key.block e
      dsimp only at this
      omega)]

/-- A bit written in another bitmap. -/
theorem bitOf_withBit_of_ne {base' q q' : Nat} {b : Bool} (h : base' + q' / BLOCK_BITS ≠ base + q / BLOCK_BITS) :
    bitOf (withBit w dev base' q' b) dev base q = bitOf w dev base q :=
  bitOf_congr (withBit_of_ne fun e => h (congrArg Key.block e).symm)

theorem bitOf_padBits_of_ne {base' last count q : Nat} (h : base' + last ≠ base + q / BLOCK_BITS) :
    bitOf (padBits w dev base' last count) dev base q = bitOf w dev base q :=
  bitOf_congr (Function.update_of_ne (fun e => h (congrArg Key.block e).symm) ..)

theorem bitOf_cleared_of_lt {base' n q : Nat} (h : base + q / BLOCK_BITS < base') :
    bitOf (cleared w dev base' n) dev base q = bitOf w dev base q :=
  bitOf_congr (cleared_of_ne fun hm => absurd (mem_mapKeys.mp hm).2.1 (Nat.not_le_of_lt h))

/-- A bit of the first block written. -/
theorem withBit_first {q : Nat} {b : Bool} (h : q < BLOCK_BITS) :
    withBit w dev base q b = Function.update w ⟨dev, base⟩ (setBit (w ⟨dev, base⟩) q b) := by
  rw [withBit, Nat.div_eq_of_lt h, Nat.mod_eq_of_lt h, Nat.add_zero]

end Bits

namespace Sizes

variable (z : Sizes) (w : View) (dev : Int)

/-- Both bitmaps are cleared. -/
def bare : View := cleared (cleared w dev 2 z.imapBlocks) dev (2 + z.imapBlocks) z.zmapBlocks

/-- The first bit of each is taken, and inode 1. -/
def taken : View :=
  withBit (withBit (withBit (z.bare w dev) dev (2 + z.imapBlocks) 0 true) dev 2 0 true) dev 2 1 true

/-- The bitmaps as they are before the root directory is made. -/
def bitmaps (n : Nat) : View :=
  padBits (padBits (z.taken w dev) dev 2 (z.imapBlocks - 1) (n + 1)) dev (2 + z.imapBlocks) (z.zmapBlocks - 1)
    z.zcount.toNat

variable {z w dev}

theorem imapBit_bitmaps {n q : Nat} (hq : q / BLOCK_BITS < z.imapBlocks) :
    bitOf (z.bitmaps w dev n) dev 2 q = padBit (z.imapBlocks - 1) (n + 1) q (decide (q < 2)) := by
  have htaken : bitOf (z.taken w dev) dev 2 q = decide (q < 2) := by
    rw [taken, bitOf_withBit, bitOf_withBit, bitOf_withBit_of_ne (by rw [Nat.zero_div]; omega), bare,
      bitOf_cleared_of_lt (Nat.add_lt_add_left hq 2), bitOf_cleared hq]
    by_cases h₁ : q = 1
    · simp [h₁]
    · by_cases h₀ : q = 0
      · simp [h₀]
      · rw [if_neg h₁, if_neg h₀, eq_comm, decide_eq_false_iff_not]
        omega
  rw [bitmaps, bitOf_padBits_of_ne (by omega), bitOf_padBits, htaken]

/-- The first bits of the zone bitmap are not in the byte that the padding writes. -/
theorem Fit.padBit_low {totalBlock n q : Nat} {b : Bool} (h : z.Fit totalBlock n) (height : 8 ≤ z.zcount.toNat)
    (hne : z.zcount.toNat ≠ BLOCK_BITS) (hq : q < 8) : padBit (z.zmapBlocks - 1) z.zcount.toNat q b = b := by
  have hq' : q < BLOCK_BITS := Nat.lt_trans hq (by decide)
  have hzmap := h.zmap_pos
  refine if_neg ?_
  rintro ⟨hlast, hbyte⟩
  have henough := h.zmapEnough
  rw [Nat.div_eq_of_lt hq'] at hlast
  rw [Nat.mod_eq_of_lt hq'] at hbyte
  rw [show z.zmapBlocks = 1 by omega, Nat.one_mul] at henough
  rw [Nat.mod_eq_of_lt (Nat.lt_of_le_of_ne henough hne)] at hbyte
  omega

theorem zmapBit_bitmaps {n q : Nat} (hi : 0 < z.imapBlocks) (hq : q / BLOCK_BITS < z.zmapBlocks) :
    bitOf (z.bitmaps w dev n) dev (2 + z.imapBlocks) q =
      padBit (z.zmapBlocks - 1) z.zcount.toNat q (decide (q = 0)) := by
  -- no block of the one bitmap is a block of the other
  have hle : 2 + z.imapBlocks ≤ 2 + z.imapBlocks + q / BLOCK_BITS := Nat.le_add_right _ _
  have hfirst : ∀ r < BLOCK_BITS, 2 + r / BLOCK_BITS ≠ 2 + z.imapBlocks + q / BLOCK_BITS := fun r hr => by
    rw [Nat.div_eq_of_lt hr]
    exact Nat.ne_of_lt (Nat.lt_of_lt_of_le (show 2 < 2 + z.imapBlocks by omega) hle)
  have hlast : 2 + (z.imapBlocks - 1) ≠ 2 + z.imapBlocks + q / BLOCK_BITS :=
    Nat.ne_of_lt (Nat.lt_of_lt_of_le (show 2 + (z.imapBlocks - 1) < 2 + z.imapBlocks by omega) hle)
  have htaken : bitOf (z.taken w dev) dev (2 + z.imapBlocks) q = decide (q = 0) := by
    rw [taken, bitOf_withBit_of_ne (hfirst 1 (by decide)),
      bitOf_withBit_of_ne (hfirst 0 (by decide)), bitOf_withBit, bare, bitOf_cleared hq]
    by_cases h₀ : q = 0
    · simp [h₀]
    · simp [h₀]
  rw [bitmaps, bitOf_padBits, bitOf_padBits_of_ne hlast, htaken]

/-- The other blocks stay. -/
theorem bitmaps_of_ne {n : Nat} {k : Key} (hi : 0 < z.imapBlocks) (hz : 0 < z.zmapBlocks)
    (hk : k ∉ mapKeys dev 2 z.imapBlocks) (hk' : k ∉ mapKeys dev (2 + z.imapBlocks) z.zmapBlocks) :
    z.bitmaps w dev n k = w k := by
  have hne : ∀ j < z.imapBlocks, k ≠ ⟨dev, 2 + j⟩ := fun j hj e => hk (by rw [e]; exact mapKeys_mem hj)
  have hne' : ∀ j < z.zmapBlocks, k ≠ ⟨dev, 2 + z.imapBlocks + j⟩ := fun j hj e =>
    hk' (by rw [e]; exact mapKeys_mem hj)
  rw [bitmaps, padBits, Function.update_of_ne (hne' _ (Nat.sub_one_lt (Nat.ne_of_gt hz))), padBits,
    Function.update_of_ne (hne _ (Nat.sub_one_lt (Nat.ne_of_gt hi))), taken, withBit_of_ne (hne 0 hi),
    withBit_of_ne (hne 0 hi), withBit_of_ne (hne' 0 hz), bare, cleared_of_ne hk', cleared_of_ne hk]

end Sizes

/-! ## 4. The root directory -/

/-- The descriptor of inode 1: what `new_inode` writes to it, and what `devmkfs` does then. -/
def rootDesc (task : Task) (now : Nat) (b : Bytes) : Bytes :=
  let perm := 0o777 &&& (0o777 ^^^ (task.umask &&& 0o777))
  let b := store b 0 2 perm
  let b := store b 2 2 task.uid
  let b := store b 4 4 0
  let b := store b 8 4 now
  let b := store b 12 1 task.gid
  let b := store b 13 1 1
  let b := store b 0 2 (perm ||| IFDIR)
  let b := store b 4 4 32
  store b 13 1 2

/-- The block of the root directory. -/
def rootDir (b : Bytes) : Bytes :=
  let b := copyIn b 0 (fun _ => 0) BLOCK_SIZE
  let b := copyIn b 2 (ofString DOT) 2
  let b := store b 0 2 1
  let b := copyIn b 18 (ofString DOTDOT) 3
  store b 16 2 1

/-- `zone[]` stays. -/
theorem fetch_rootDesc {task : Task} {now : Nat} {b : Bytes} {off n : Nat} (h : 14 ≤ off) :
    fetch (rootDesc task now b) off n = fetch b off n := by
  unfold rootDesc
  simp (disch := omega) only [fetch_store_ne]

namespace Sizes

variable (z : Sizes) (w : View) (dev : Int)

/-- The block of inode 1. -/
def rootKey : Key := ⟨dev, 2 + z.imapBlocks + z.zmapBlocks⟩

/-- `zone[0]` of inode 1. -/
def rootWord : Nat := fetch (w (z.rootKey dev)) 14 2

/-- The root directory's zone: `zone[0]` is not cleared, and what it held before is taken for a zone. -/
def rootZone : Nat := if z.rootWord w dev = 0 then z.firstdatazone else z.rootWord w dev

/-- The root directory has a zone. -/
def rooted : View :=
  if z.rootWord w dev = 0 then
    Function.update (withBit w dev (2 + z.imapBlocks) 1 true) (z.rootKey dev)
      (store (w (z.rootKey dev)) 14 2 z.firstdatazone)
  else w

/-- The root directory is made. -/
def withRoot (task : Task) (now : Nat) : View :=
  let w := Function.update w (z.rootKey dev) (rootDesc task now (w (z.rootKey dev)))
  Function.update (z.rooted w dev) ⟨dev, z.rootZone w dev⟩ (rootDir (z.rooted w dev ⟨dev, z.rootZone w dev⟩))

/-- **What the blocks show when `devmkfs` is done**, `w` before. -/
def made (n : Nat) (task : Task) (now : Nat) : View :=
  z.withRoot (z.bitmaps (Function.update w ⟨dev, 1⟩ (z.descriptor (w ⟨dev, 1⟩))) dev n) dev task now

variable {z w dev}

/-- `zone[0]` was empty. -/
theorem rootZone_blank (h : z.rootWord w dev = 0) : z.rootZone w dev = z.firstdatazone := if_pos h

theorem rootZone_congr {w' : View} (h : w' (z.rootKey dev) = w (z.rootKey dev)) :
    z.rootZone w' dev = z.rootZone w dev := by
  unfold rootZone rootWord
  rw [h]

theorem bitmaps_super {n : Nat} (hi : 0 < z.imapBlocks) (hz : 0 < z.zmapBlocks) :
    z.bitmaps w dev n ⟨dev, 1⟩ = w ⟨dev, 1⟩ := by
  refine bitmaps_of_ne hi hz (fun hm => ?_) fun hm => ?_
  · exact absurd (mem_mapKeys.mp hm).2.1 (show ¬ 2 ≤ 1 by decide)
  · have : 2 + z.imapBlocks ≤ 1 := (mem_mapKeys.mp hm).2.1
    omega

/-- The block of inode 1 is none of those before it. -/
theorem bitmaps_rootKey {n : Nat} {b : Bytes} (hi : 0 < z.imapBlocks) (hz : 0 < z.zmapBlocks) :
    z.bitmaps (Function.update w ⟨dev, 1⟩ b) dev n (z.rootKey dev) = w (z.rootKey dev) := by
  have hblock : (z.rootKey dev).block = 2 + z.imapBlocks + z.zmapBlocks := rfl
  rw [bitmaps_of_ne hi hz, Function.update_of_ne fun e => ?_]
  · have : 2 + z.imapBlocks + z.zmapBlocks = 1 := congrArg Key.block e
    omega
  · intro hm
    have := (mem_mapKeys.mp hm).2.2
    omega
  · intro hm
    have := (mem_mapKeys.mp hm).2.2
    omega

end Sizes

end Yuios
