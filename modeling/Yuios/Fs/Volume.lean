/-
  File:      Yuios/Fs/Volume.lean
  Subject:   THE VOLUME: what the bytes of a device's blocks mean as a file system, and when they
             are consistent.

  * `Volume` -- the numbers of a super block that say where everything lies, with what `devmkfs`
    makes true of them: the bitmaps are long enough and the inode table ends before the first
    data zone.
  * `View` -- the bytes the blocks show. A volume is read from a view, so the same words serve
    for the disk, the cache in front of it and a state in the middle of a call.
  * `Volume.forest` -- the block maps of all files and directories as a forest: `zone[]` entries
    are the roots, the entries of index blocks the slots inside.
  * `Consistent` -- every zone a reachable slot names is a data zone marked in the zone bitmap,
    and no zone is named by two reachable slots.
-/
import Yuios.Lib.Forest
import Yuios.Fs.Alloc

namespace Yuios

open Lib Prog Code

/-- What the blocks show. -/
abbrev View := Key → Bytes

/-- A block and a byte in it. -/
abbrev Place := Key × Nat

/-! ## 1. Bits of a bitmap that spans blocks -/

/-- Bit `i` of the bitmap that begins in block `base`. -/
def bitOf (w : View) (dev : Int) (base i : Nat) : Bool :=
  getBit (w ⟨dev, base + i / BLOCK_BITS⟩) (i % BLOCK_BITS)

/-- That bit written. -/
def withBit (w : View) (dev : Int) (base i : Nat) (b : Bool) : View :=
  Function.update w ⟨dev, base + i / BLOCK_BITS⟩
    (setBit (w ⟨dev, base + i / BLOCK_BITS⟩) (i % BLOCK_BITS) b)

section Bits

variable {w : View} {dev : Int} {base i j : Nat} {b : Bool}

theorem withBit_of_ne {k : Key} (h : k ≠ ⟨dev, base + i / BLOCK_BITS⟩) :
    withBit w dev base i b k = w k := Function.update_of_ne h ..

theorem bitOf_withBit :
    bitOf (withBit w dev base i b) dev base j = if j = i then b else bitOf w dev base j := by
  unfold bitOf
  by_cases hk : (⟨dev, base + j / BLOCK_BITS⟩ : Key) = ⟨dev, base + i / BLOCK_BITS⟩
  · have hdiv : j / BLOCK_BITS = i / BLOCK_BITS := by
      have := congrArg Key.block hk
      dsimp only at this
      omega
    rw [hk, withBit, Function.update_self, getBit_setBit]
    by_cases hm : j % BLOCK_BITS = i % BLOCK_BITS
    · have e : j = i := by
        rw [← Nat.div_add_mod j BLOCK_BITS, ← Nat.div_add_mod i BLOCK_BITS, hdiv, hm]
      rw [if_pos hm, if_pos e]
    · rw [if_neg hm, if_neg (mt (congrArg (· % BLOCK_BITS)) hm)]
  · have hne : j ≠ i := fun e => hk (by rw [e])
    rw [withBit_of_ne hk, if_neg hne]

theorem withBit_undo (h : bitOf w dev base i = false) :
    withBit (withBit w dev base i true) dev base i false = w := by
  unfold withBit
  rw [Function.update_self, setBit_undo h, Function.update_idem, Function.update_eq_self]

theorem bitOf_congr {w' : View} (h : w' ⟨dev, base + i / BLOCK_BITS⟩ = w ⟨dev, base + i / BLOCK_BITS⟩) :
    bitOf w' dev base i = bitOf w dev base i := by
  unfold bitOf
  rw [h]

end Bits

/-! ## 2. Where everything lies -/

/-- The layout of a volume. -/
structure Volume where
  dev : Int
  inodes : Nat
  zones : Nat
  imapBlocks : Nat
  zmapBlocks : Nat
  firstdatazone : Nat
  /-- The inode bitmap has a bit for every inode. -/
  imap : inodes ≤ imapBlocks * BLOCK_BITS
  /-- The zone bitmap has a bit for every data zone, and one before. -/
  zmap : zones + 1 ≤ firstdatazone + zmapBlocks * BLOCK_BITS
  /-- The super block, the bitmaps and the inode table come before the data. -/
  room : 2 + imapBlocks + zmapBlocks + (inodes + 31) / 32 ≤ firstdatazone
  /-- The first data zone is one of the device's. -/
  data : firstdatazone < zones
  /-- A zone's number fits in 16 bits, and is not `EOF` there. -/
  small : zones ≤ 65535

namespace Volume

variable (v : Volume)

/-- The super block says what the layout is. -/
structure Describes (sb : SuperBlock) : Prop where
  dev : sb.dev = v.dev
  inodes : sb.inodes = v.inodes
  zones : sb.zones = v.zones
  imapBlocks : sb.imapBlocks = v.imapBlocks
  zmapBlocks : sb.zmapBlocks = v.zmapBlocks
  firstdatazone : sb.firstdatazone = v.firstdatazone

/-- The block of inode `nr`'s descriptor. -/
def inodeKey (nr : Nat) : Key :=
  ⟨v.dev, 2 + v.imapBlocks + v.zmapBlocks + (nr - 1) / BLOCK_INODES⟩

/-- Its place in the block. -/
def descOff (nr : Nat) : Nat := 32 * ((nr - 1) % BLOCK_INODES)

/-- A field of inode `nr`'s descriptor. -/
def desc (w : View) (nr : Nat) (f : Field) : Nat :=
  fetch (w (v.inodeKey nr)) (descOff nr + f.off) f.width

/-- Inode `nr`'s bit. -/
def inodeSet (w : View) (nr : Nat) : Bool := bitOf w v.dev 2 nr

/-- The place of a zone's bit in the zone bitmap: bit 0 belongs to the zone before the first. -/
def zoneBit (z : Nat) : Nat := z + 1 - v.firstdatazone

/-- Zone `z`'s bit. -/
def zoneSet (w : View) (z : Nat) : Bool := bitOf w v.dev (2 + v.imapBlocks) (v.zoneBit z)

/-- Zone `z`'s bit written. -/
def setZone (w : View) (z : Nat) (b : Bool) : View :=
  withBit w v.dev (2 + v.imapBlocks) (v.zoneBit z) b

/-- Inode `nr` is in use as a file or a directory: its `zone[]` names blocks. -/
structure Owns (w : View) (nr : Nat) : Prop where
  pos : 0 < nr
  lt : nr < v.inodes
  set : v.inodeSet w nr = true
  mode : (ISFILE (v.desc w nr .mode) || ISDIR (v.desc w nr .mode)) = true

/-! ## 3. The block maps -/

/-- Index blocks between `zone[i]` and the data. -/
def zoneLevel (i : Nat) : Nat := if i < DIRECT_BLOCK then 0 else i + 1 - DIRECT_BLOCK

/-- `desc->zone[i]`. -/
def zonePlace (nr i : Nat) : Place := (v.inodeKey nr, descOff nr + (Field.zone i).off)

/-- Entry `j` of index block `z`. -/
def indexPlace (z j : Nat) : Place := (⟨v.dev, z⟩, 2 * j)

/-- The number in a slot. -/
def word (w : View) (p : Place) : Nat := fetch (w p.1) p.2 2

/-- **The block maps of a view.** -/
def forest (w : View) : Forest Place Nat where
  root l p := ∃ nr i, v.Owns w nr ∧ i < 9 ∧ l = zoneLevel i ∧ p = v.zonePlace nr i
  inside z p := ∃ j < BLOCK_INDEXES, p = v.indexPlace z j
  val p := if word w p = 0 then none else some (word w p)

/-- `z` is a data zone in use. -/
structure Used (w : View) (z : Nat) : Prop where
  first : v.firstdatazone ≤ z
  lt : z < v.zones
  set : v.zoneSet w z = true

/-- **A consistent volume.** `devmkfs` marks the bit before the first zone's. -/
structure Consistent (w : View) : Prop where
  owned : (v.forest w).Owned (v.Used w)
  reserved : v.zoneSet w (v.firstdatazone - 1) = true

variable {v} {w w' : View}

theorem val_eq {p : Place} {z : Nat} : (v.forest w).val p = some z ↔ word w p = z ∧ z ≠ 0 := by
  show (if word w p = 0 then none else some (word w p)) = some z ↔ _
  by_cases h : word w p = 0
  · rw [if_pos h]
    constructor
    · intro e
      cases e
    · intro e
      exact absurd (e.1.symm.trans h) e.2
  · rw [if_neg h]
    constructor
    · intro e
      cases e
      exact ⟨rfl, h⟩
    · intro e
      rw [e.1]

theorem val_none {p : Place} : (v.forest w).val p = none ↔ word w p = 0 := by
  show (if word w p = 0 then none else some (word w p)) = none ↔ _
  by_cases h : word w p = 0 <;> simp [h]

theorem val_congr {p : Place} (h : word w' p = word w p) :
    (v.forest w').val p = (v.forest w).val p := by
  show (if word w' p = 0 then none else some (word w' p)) = _
  rw [h]
  rfl

theorem firstdatazone_pos (v : Volume) : 0 < v.firstdatazone := by
  have := v.room
  omega

/-- The inode table lies behind the bitmaps and before the data. -/
theorem inodeKey_block {nr : Nat} (h : 0 < nr) (h' : nr < v.inodes) :
    2 + v.imapBlocks + v.zmapBlocks ≤ (v.inodeKey nr).block ∧
      (v.inodeKey nr).block < v.firstdatazone := by
  have := v.room
  unfold inodeKey BLOCK_INODES
  dsimp only
  omega

/-- The zone bitmap lies between the inode bitmap and the inode table. -/
theorem zoneBit_block {z : Nat} (h : z < v.zones) (h' : v.firstdatazone ≤ z + 1) :
    v.zoneBit z / BLOCK_BITS < v.zmapBlocks := by
  have h1 := v.zmap
  have h2 : v.zoneBit z < v.zmapBlocks * BLOCK_BITS := by
    unfold zoneBit
    omega
  exact Nat.div_lt_of_lt_mul (Nat.mul_comm .. ▸ h2)

theorem inodeBit_block {nr : Nat} (h : nr < v.inodes) : nr / BLOCK_BITS < v.imapBlocks :=
  Nat.div_lt_of_lt_mul (Nat.mul_comm .. ▸ Nat.lt_of_lt_of_le h v.imap)

/-- The slots of the block maps do not meet. -/
theorem forest_laid (v : Volume) (w : View) :
    (v.forest w).Laid (v.firstdatazone ≤ ·) where
  level := by
    rintro l l' p ⟨nr, i, -, hi, rfl, rfl⟩ ⟨nr', i', -, hi', rfl, e⟩
    have ho := congrArg Prod.snd e
    have : i = i' := by
      simp only [zonePlace, descOff, Field.zone] at ho
      omega
    rw [this]
  outside := by
    rintro z l p hz ⟨j, hj, rfl⟩ ⟨nr, i, ho, hi, -, e⟩
    have hb := (inodeKey_block ho.pos ho.lt).2
    have hk : z = (v.inodeKey nr).block := congrArg (fun q : Place => q.1.block) e
    omega
  one := by
    rintro z z' p ⟨j, hj, rfl⟩ ⟨j', hj', e⟩
    exact congrArg (fun q : Place => q.1.block) e

theorem used_node (z : Nat) (h : v.Used w z) : v.firstdatazone ≤ z := h.first

/-! ## 4. Zone bits -/

theorem zoneSet_setZone {z z' : Nat} {b : Bool} (h : v.firstdatazone ≤ z + 1)
    (h' : v.firstdatazone ≤ z' + 1) :
    v.zoneSet (v.setZone w z b) z' = if z' = z then b else v.zoneSet w z' := by
  unfold zoneSet setZone
  rw [bitOf_withBit]
  by_cases e : z' = z
  · rw [if_pos e, if_pos (e ▸ rfl)]
  · refine (if_neg fun e' => e ?_).trans (if_neg e).symm
    unfold zoneBit at e'
    omega

/-- Only a block of the zone bitmap changes. -/
theorem setZone_of_ne {z : Nat} {b : Bool} (hz : z < v.zones) (hz' : v.firstdatazone ≤ z + 1)
    {k : Key} (h : k.block < 2 + v.imapBlocks ∨ 2 + v.imapBlocks + v.zmapBlocks ≤ k.block) :
    v.setZone w z b k = w k := by
  refine withBit_of_ne fun e => ?_
  have hb := zoneBit_block hz hz'
  have hk := congrArg Key.block e
  generalize v.zoneBit z / BLOCK_BITS = q at hb hk
  dsimp only at hk
  omega

/-! ## 5. Where slots lie -/

/-- A reachable slot is a `zone[]` entry of a file or directory, or an entry of a data zone that a
    slot one level up names. -/
theorem slot_cases (h : v.Consistent w) {l : Nat} {p : Place} (hp : (v.forest w).Slot l p) :
    (∃ nr i, v.Owns w nr ∧ i < 9 ∧ l = zoneLevel i ∧ p = v.zonePlace nr i) ∨
    ∃ q z j, (v.forest w).Slot (l + 1) q ∧ (v.forest w).val q = some z ∧ v.Used w z ∧
      j < BLOCK_INDEXES ∧ p = v.indexPlace z j := by
  cases hp with
  | root h => exact .inl h
  | inside hq hv hi =>
    obtain ⟨j, hj, rfl⟩ := hi
    exact .inr ⟨_, _, j, hq, hv, h.owned.used hq hv, hj, rfl⟩

/-- A slot's block is behind the bitmaps, and its place is even. -/
theorem slot_place (h : v.Consistent w) {l : Nat} {p : Place} (hp : (v.forest w).Slot l p) :
    2 + v.imapBlocks + v.zmapBlocks ≤ p.1.block ∧ p.2 % 2 = 0 := by
  rcases slot_cases h hp with ⟨nr, i, ho, hi, -, rfl⟩ | ⟨q, z, j, -, -, hz, -, rfl⟩
  · refine ⟨(inodeKey_block ho.pos ho.lt).1, ?_⟩
    unfold zonePlace descOff Field.zone
    dsimp only
    omega
  · have := v.room
    have := hz.first
    unfold indexPlace
    dsimp only
    omega

/-- Changes the block maps do not see. -/
theorem Consistent.congr (h : v.Consistent w) (howns : ∀ nr, v.Owns w' nr → v.Owns w nr)
    (hword : ∀ l p, (v.forest w).Slot l p → word w' p = word w p)
    (hbit : ∀ z, v.firstdatazone ≤ z + 1 → z < v.zones → v.zoneSet w z = true →
      v.zoneSet w' z = true) : v.Consistent w' where
  owned := by
    refine h.owned.congr ?_ (fun _ _ hi => hi) (fun l p hp => val_congr (hword l p hp)) ?_
    · rintro l p ⟨nr, i, ho, hi⟩
      exact ⟨nr, i, howns nr ho, hi⟩
    · intro z hz
      exact ⟨hz.first, hz.lt, hbit z (Nat.le_succ_of_le hz.first) hz.lt hz.set⟩
  reserved := by
    have := v.data
    exact hbit _ (by omega) (by omega) h.reserved

/-! ## 6. Writing a slot -/

/-- A number written to a slot. -/
def putWord (w : View) (p : Place) (n : Nat) : View :=
  Function.update w p.1 (store (w p.1) p.2 2 n)

theorem putWord_of_ne {p : Place} {n : Nat} {k : Key} (h : k ≠ p.1) : putWord w p n k = w k :=
  Function.update_of_ne h ..

theorem putWord_self {p : Place} {n : Nat} : putWord w p n p.1 = store (w p.1) p.2 2 n :=
  Function.update_self ..

theorem word_putWord_self {p : Place} {n : Nat} (h : n < 65536) : word (putWord w p n) p = n := by
  unfold word
  rw [putWord_self, fetch_store_self]
  exact Nat.mod_eq_of_lt h

/-- A slot stored through its buffer. -/
theorem view_poke_word (s : Kernel) (buf : Key) (slot n : Nat) :
    (s.poke buf fun b => store b slot 2 n).view = putWord s.view (buf, slot) n := by
  funext k
  rw [Kernel.view_poke, putWord]
  by_cases e : k = buf
  · rw [if_pos e, e, Function.update_self]
  · rw [if_neg e, Function.update_of_ne e]

/-- Slots are two bytes wide and lie at even places, so another slot is not touched. -/
theorem word_putWord_of_ne {p q : Place} {n : Nat} (hp : p.2 % 2 = 0) (hq : q.2 % 2 = 0)
    (h : q ≠ p) : word (putWord w p n) q = word w q := by
  unfold word
  by_cases hk : q.1 = p.1
  · have ho : q.2 ≠ p.2 := fun e => h (Prod.ext hk e)
    rw [hk, putWord_self]
    exact fetch_store_ne (by omega)
  · rw [putWord_of_ne hk]

theorem word_congr {p : Place} (h : w' p.1 = w p.1) : word w' p = word w p := by
  unfold word
  rw [h]

/-- The descriptor's mode and the inode's bit are all that `Owns` reads. -/
theorem Owns.congr {nr : Nat} (hset : v.inodeSet w' nr = v.inodeSet w nr)
    (hmode : v.desc w' nr .mode = v.desc w nr .mode) (h : v.Owns w' nr) : v.Owns w nr :=
  ⟨h.pos, h.lt, hset ▸ h.set, hmode ▸ h.mode⟩

/-- What a change behind the bitmaps leaves of the inode bitmap. -/
theorem inodeSet_congr {nr : Nat} (hnr : nr < v.inodes)
    (h : ∀ k : Key, k.block < 2 + v.imapBlocks → w' k = w k) :
    v.inodeSet w' nr = v.inodeSet w nr := by
  have := inodeBit_block hnr
  exact bitOf_congr (h _ (Nat.add_lt_add_left this 2))

/-- What a change before the bitmap or behind it leaves of the zone bitmap. -/
theorem zoneSet_congr {z : Nat} (hz : z < v.zones) (hz' : v.firstdatazone ≤ z + 1)
    (h : ∀ k : Key, 2 + v.imapBlocks ≤ k.block → k.block < 2 + v.imapBlocks + v.zmapBlocks →
      w' k = w k) : v.zoneSet w' z = v.zoneSet w z := by
  have := zoneBit_block hz hz'
  exact bitOf_congr (h _ (Nat.le_add_right ..) (Nat.add_lt_add_left this _))

theorem desc_congr {nr : Nat} {f : Field} (h : w' (v.inodeKey nr) = w (v.inodeKey nr)) :
    v.desc w' nr f = v.desc w nr f := by
  unfold desc
  rw [h]

/-- A slot written leaves the head of every descriptor, the part before `zone[]`. -/
theorem desc_putWord (h : v.Consistent w) {l : Nat} {p : Place} (hp : (v.forest w).Slot l p)
    {n nr : Nat} {f : Field} (hpos : 0 < nr) (hlt : nr < v.inodes) (hf : f.off + f.width ≤ 14)
    (w' : View) : v.desc (putWord w' p n) nr f = v.desc w' nr f := by
  by_cases hk : v.inodeKey nr = p.1
  · unfold desc
    rw [hk, putWord_self]
    refine fetch_store_ne ?_
    rcases slot_cases h hp with ⟨nr', i, ho, hi, -, rfl⟩ | ⟨q, z, j, -, -, hz, -, rfl⟩
    · unfold zonePlace descOff Field.zone
      dsimp only
      omega
    · have := (inodeKey_block hpos hlt).2
      have := congrArg Key.block hk
      have := hz.first
      unfold indexPlace at *
      dsimp only at *
      omega
  · exact desc_congr (putWord_of_ne hk)

/-- The block of a data zone holds no slot. -/
theorem data_ne_slot (h : v.Consistent w) {l z : Nat} {p q : Place} (hq : (v.forest w).Slot 0 q)
    (hv : (v.forest w).val q = some z) (hp : (v.forest w).Slot l p) : p.1 ≠ ⟨v.dev, z⟩ := by
  intro hk
  have hz := h.owned.used hq hv
  rcases slot_cases h hp with ⟨nr, i, ho, hi, -, rfl⟩ | ⟨q', z', j, hq', hv', hz', -, rfl⟩
  · have := (inodeKey_block ho.pos ho.lt).2
    have : (v.inodeKey nr).block = z := congrArg Key.block hk
    have := hz.first
    omega
  · have e : z' = z := congrArg Key.block hk
    subst e
    cases (h.owned.one hq hq' hv hv').2

/-- No reachable slot names the zone. -/
def Unnamed (v : Volume) (w : View) (z : Nat) : Prop :=
  ∀ l p, (v.forest w).Slot l p → (v.forest w).val p ≠ some z

/-- The block of a zone that is not named holds no slot. -/
theorem unnamed_ne_slot (h : v.Consistent w) {l z : Nat} {p : Place} (hp : (v.forest w).Slot l p)
    (hz : v.firstdatazone ≤ z) (hfree : v.Unnamed w z) : p.1 ≠ ⟨v.dev, z⟩ := by
  intro hk
  rcases slot_cases h hp with ⟨nr, i, ho, hi, -, rfl⟩ | ⟨q', z', j, hq', hv', hz', -, rfl⟩
  · have := (inodeKey_block ho.pos ho.lt).2
    have : (v.inodeKey nr).block = z := congrArg Key.block hk
    omega
  · have e : z' = z := congrArg Key.block hk
    exact hfree _ _ hq' (e ▸ hv')

/-- A zone that is not marked is not named. -/
theorem unnamed_of_free (h : v.Consistent w) {z : Nat} (hfree : v.zoneSet w z = false) :
    v.Unnamed w z := fun l p hp hv => by
  rw [(h.owned.used hp hv).set] at hfree
  cases hfree

end Volume

end Yuios
