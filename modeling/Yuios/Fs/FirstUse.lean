/-
  File:      Yuios/Fs/FirstUse.lean
  Subject:   A NEW VOLUME IN USE.

  * **`devmkfs_laidOut`** -- which bits the bitmaps should have, and when they do.
  * **`devmkfs_again`** -- what a second `devmkfs` makes of the volume.
  * **`devmkfs_consistent`** -- the block maps are consistent.
  * **`devmkfs_settled`** -- the references in memory are counted, but for one pointer that is left behind.
-/
import Yuios.Fs.NewVolume

namespace Yuios

open Lib Prog Code

/-! ## 1. The bitmaps -/

/-- A padded bitmap in which the bits 0 and 1 are taken, when bit `c` is in its last block and not in the first
    byte. -/
theorem padBit_clear {m c q : Nat} (hm : m = c / BLOCK_BITS + 1) (hc : 8 ≤ c) :
    (q / BLOCK_BITS < m ∧ padBit (m - 1) c q (decide (q < 2)) = false) ↔ 2 ≤ q ∧ q < c := by
  unfold padBit
  rw [show BLOCK_BITS = 8192 from rfl] at hm ⊢
  by_cases hlast : q / 8192 = m - 1 ∧ c % 8192 / 8 ≤ q % 8192 / 8
  · rw [if_pos hlast, decide_eq_false_iff_not]
    omega
  · rw [if_neg hlast, decide_eq_false_iff_not]
    omega

/-- **The bitmaps of a volume on `totalBlock` blocks**: of the inodes 2 to `n` are free, and of the zones those
    behind the root directory's that the device has. -/
structure LaidOut (dev : Int) (n totalBlock : Nat) (z : Sizes) (w : View) : Prop where
  inodes : ∀ q, (q / BLOCK_BITS < z.imapBlocks ∧ bitOf w dev 2 q = false) ↔ 2 ≤ q ∧ q ≤ n
  zones : ∀ q, (q / BLOCK_BITS < z.zmapBlocks ∧ bitOf w dev (2 + z.imapBlocks) q = false) ↔
    2 ≤ q ∧ q + z.firstdatazone - 1 < totalBlock

/-- A bit that the padding writes is clear before the bitmap's end. -/
theorem padBit_written {last c q : Nat} {b : Bool}
    (h : q / BLOCK_BITS = last ∧ c % BLOCK_BITS / 8 ≤ q % BLOCK_BITS / 8) :
    padBit last c q b = false ↔ q % BLOCK_BITS < c % BLOCK_BITS := by
  rw [padBit, if_pos h, decide_eq_false_iff_not, Nat.not_le]

section LaidOut

variable {z : Sizes} {totalBlock n : Nat} {w w' : View} {dev : Int} {task : Task} {now : Nat}

theorem laidOut_of (hfit : z.Fit totalBlock n) (hw : Formatted dev n z task now w w') (hblank : z.rootWord w dev = 0)
    (hn : 7 ≤ n) (hzero : n % BLOCK_BITS ≠ 0) (hlast : n % BLOCK_BITS ≠ BLOCK_BITS - 1)
    (height : 8 ≤ z.zcount.toNat) (hone : z.zcount.toNat < BLOCK_BITS) : LaidOut dev n totalBlock z w' := by
  have hinodes : z.imapBlocks = (n + 1) / BLOCK_BITS + 1 := by
    have henough := hfit.imapEnough
    have hspare := hfit.imapSpare
    rw [show BLOCK_BITS = 8192 from rfl] at henough hspare hzero hlast ⊢
    omega
  have hmap : z.zmapBlocks = 1 := by
    have hpos := hfit.zmap_pos
    have hspare := hfit.zmapSpare
    rw [show BLOCK_BITS = 8192 from rfl] at hspare hone
    omega
  have hzones : z.zmapBlocks = z.zcount.toNat / BLOCK_BITS + 1 := by rw [Nat.div_eq_of_lt hone, hmap]
  have hfirst := hfit.first
  have htotal := hfit.total
  refine ⟨fun q => ?_, fun q => ?_⟩
  · rw [and_congr_right fun hq => by rw [hw.inodeBits q hq], padBit_clear hinodes (by omega), Nat.lt_succ_iff]
  · rw [and_congr_right fun hq => by rw [hw.zoneBits q hq]]
    have htwo : decide (q = 0 ∨ q = 1 ∧ z.rootWord w dev = 0) = decide (q < 2) := by
      rw [decide_eq_decide]
      omega
    rw [htwo, padBit_clear hzones height]
    omega

/-- Where it goes wrong: bit 0, the last inode, the inodes of the last block, the zones behind the end of the
    device or those of the last block. -/
theorem of_laidOut (hfit : z.Fit totalBlock n) (hw : Formatted dev n z task now w w')
    (hne : z.zcount.toNat ≠ BLOCK_BITS) (h : LaidOut dev n totalBlock z w') :
    7 ≤ n ∧ n % BLOCK_BITS ≠ 0 ∧ n % BLOCK_BITS ≠ BLOCK_BITS - 1 ∧ z.zcount.toNat < BLOCK_BITS := by
  have hpos := hfit.imap_pos
  have hinodes := hfit.imapEnough
  have hinodes' := hfit.imapSpare
  have hzones := hfit.zmapEnough
  have hzones' := hfit.zmapSpare
  have htwo := hfit.two
  rw [show BLOCK_BITS = 8192 from rfl] at hinodes hinodes' hzones hzones' hne ⊢
  refine ⟨?_, fun hzero => ?_, fun hlast => ?_, ?_⟩
  · by_contra hn
    have hbit : bitOf w' dev 2 0 = false := by
      rw [hw.inodeBits 0 hpos, padBit_written (by rw [show BLOCK_BITS = 8192 from rfl]; omega),
        show BLOCK_BITS = 8192 from rfl]
      omega
    exact absurd ((h.inodes 0).mp ⟨hpos, hbit⟩).1 (by decide)
  · have hlt := ((h.inodes n).mpr ⟨htwo, Nat.le_refl n⟩).1
    rw [show BLOCK_BITS = 8192 from rfl] at hlt
    omega
  · obtain ⟨hlt, hbit⟩ := (h.inodes n).mpr ⟨htwo, Nat.le_refl n⟩
    rw [hw.inodeBits n hlt, padBit_written (by rw [show BLOCK_BITS = 8192 from rfl]; omega),
      show BLOCK_BITS = 8192 from rfl] at hbit
    omega
  · by_contra hge
    have hfirst := hfit.first
    have htotal := hfit.total
    have hsmall := hfit.small
    by_cases hzero : z.zcount.toNat % 8192 = 0
    · obtain ⟨hlt, hbit⟩ := (h.zones (z.zcount.toNat - 8192)).mpr ⟨by omega, by omega⟩
      rw [hw.zoneBits _ hlt, padBit_written (by rw [show BLOCK_BITS = 8192 from rfl]; omega),
        show BLOCK_BITS = 8192 from rfl] at hbit
      omega
    · have hlt : (z.zcount.toNat - 1) / BLOCK_BITS < z.zmapBlocks := by
        rw [show BLOCK_BITS = 8192 from rfl]
        omega
      have hbit : bitOf w' dev (2 + z.imapBlocks) (z.zcount.toNat - 1) = false := by
        rw [hw.zoneBits _ hlt]
        unfold padBit
        rw [show BLOCK_BITS = 8192 from rfl]
        split
        · rw [decide_eq_false_iff_not]
          omega
        · rw [decide_eq_false_iff_not]
          omega
      have := ((h.zones _).mp ⟨hlt, hbit⟩).2
      omega

end LaidOut

/-- **The bitmaps that `devmkfs` leaves** on a device it had not made a volume on before are right exactly when
    the last inode is in the middle of a block, there are seven inodes at least, and one block of the zone bitmap
    does. -/
theorem devmkfs_laidOut {S S' : System} (hS : Settled S) (hb : S.kernel.Balanced) {dev : Int}
    {i x totalBlock icount : Nat} (hr : Room S.kernel.tab dev i x) (hf : Formattable totalBlock icount)
    (hblank : (layout totalBlock icount).rootWord S.kernel.view dev = 0)
    (hrun : (devmkfs dev totalBlock icount).run S = .ok (true, S')) :
    LaidOut dev (inodeCount totalBlock icount) totalBlock (layout totalBlock icount) S'.kernel.view ↔
      7 ≤ inodeCount totalBlock icount ∧ inodeCount totalBlock icount % BLOCK_BITS ≠ 0 ∧
      inodeCount totalBlock icount % BLOCK_BITS ≠ BLOCK_BITS - 1 ∧ (layout totalBlock icount).zcount < BLOCK_BITS := by
  have hread := (made_of_run hS hb hr hf hrun).reads hf (Sizes.rootZone_blank hblank).ge
  have hcount : (layout totalBlock icount).zcount < BLOCK_BITS ↔
      (layout totalBlock icount).zcount.toNat < BLOCK_BITS := by
    have := hf.zones
    omega
  rw [hcount]
  exact ⟨fun h => of_laidOut hf.fit hread hf.not_full h,
    fun ⟨h₇, h₀, h₁, h₂⟩ => laidOut_of hf.fit hread hblank h₇ h₀ h₁ hf.eight h₂⟩

/-- The bitmaps of the second device are right. -/
theorem devmkfs_laidOut_second : ∃ S', (devmkfs 2 64 31).run Sample.system = .ok (true, S') ∧
    LaidOut 2 31 64 (layout 64 31) S'.kernel.view := by
  obtain ⟨S', hrun, -⟩ :=
    devmkfs_ends Sample.system_settled Sample.system_balanced Sample.system_room Sample.small_formattable
  exact ⟨S', hrun, (devmkfs_laidOut Sample.system_settled Sample.system_balanced Sample.system_room
    Sample.small_formattable (by decide) hrun).mpr (by decide)⟩

/-! ## 2. A second time -/

section Again

variable {z : Sizes} {totalBlock n : Nat} {w w' : View} {dev : Int} {task : Task} {now : Nat}
  (hw : Formatted dev n z task now w w') (hfit : z.Fit totalBlock n)
include hw hfit

/-- The zone that is handed out next: the root directory's own one where `zone[0]` was not empty. -/
theorem Formatted.next {sb : SuperBlock} (height : 8 ≤ z.zcount.toNat) (hne : z.zcount.toNat ≠ BLOCK_BITS)
    (hd : sb.dev = dev) :
    (z.superBlock sb).LowestFree w' (z.firstdatazone + if z.rootWord w dev = 0 then 1 else 0) := by
  refine lowestFree_low hfit hd height (by split <;> decide) fun q hq => ?_
  have hq' : q < BLOCK_BITS := Nat.lt_trans hq (by decide)
  rw [hw.zoneBits q (by rw [Nat.div_eq_of_lt hq']; exact hfit.zmap_pos), hfit.padBit_low height hne hq,
    decide_eq_decide]
  split <;> omega

/-- The root directory's zone is in the descriptor. -/
theorem Formatted.word : z.rootWord w' dev = z.rootZone w dev := by
  have hlt : z.rootZone w dev < 256 ^ 2 := by
    unfold Sizes.rootZone
    split
    · have := hfit.room
      have := hfit.small
      omega
    · exact fetch_lt ..
  have hroot := hw.root (.zone 0, z.rootZone w dev) (by simp [rootFields])
  exact hroot.trans (Nat.mod_eq_of_lt hlt)

end Again

/-- The slots are vacant again. -/
theorem Made.vacancy {S S' : System} {dev : Int} {i x n : Nat} {z : Sizes} (h : Made dev i x n z S S')
    (hv : Vacancy S.kernel.tab dev i x) : Vacancy S'.kernel.tab dev i x := by
  rw [h.tab]
  exact hv.again rfl rfl rfl rfl rfl hv.pipe

/-- **A second `devmkfs`** finds the number of the root directory's zone in the descriptor and keeps it, but the
    bitmap that it clears no longer has the zone: the next zone that is handed out is the root directory's own. -/
theorem devmkfs_again {S : System} (hS : Settled S) (hb : S.kernel.Balanced) {dev : Int} {i x totalBlock icount : Nat}
    (hr : Room S.kernel.tab dev i x) (hf : Formattable totalBlock icount)
    (hblank : (layout totalBlock icount).rootWord S.kernel.view dev = 0) {sb : SuperBlock} (hd : sb.dev = dev) :
    ∃ S₁ S₂, (devmkfs dev totalBlock icount).run S = .ok (true, S₁) ∧
      (devmkfs dev totalBlock icount).run S₁ = .ok (true, S₂) ∧
      (layout totalBlock icount).rootWord S₁.kernel.view dev = (layout totalBlock icount).firstdatazone ∧
      (layout totalBlock icount).rootWord S₂.kernel.view dev = (layout totalBlock icount).firstdatazone ∧
      ((layout totalBlock icount).superBlock sb).LowestFree S₁.kernel.view
        ((layout totalBlock icount).firstdatazone + 1) ∧
      ((layout totalBlock icount).superBlock sb).LowestFree S₂.kernel.view
        (layout totalBlock icount).firstdatazone := by
  obtain ⟨S₁, hrun₁, hmade₁⟩ := devmkfs_ends hS hb hr hf
  have hread₁ := hmade₁.reads hf (Sizes.rootZone_blank hblank).ge
  have hword₁ := (hread₁.word hf.fit).trans (Sizes.rootZone_blank hblank)
  have hpos : (layout totalBlock icount).firstdatazone ≠ 0 := by
    have := hf.fit.first
    omega
  -- the system is as it was, but for what the descriptor says
  have hb₁ : S₁.kernel.Balanced := fun k => by
    rw [hmade₁.counts k]
    exact hb k
  obtain ⟨ok, S₂, hrun₂, rfl, hmade₂⟩ :=
    devmkfs_comes hb₁ (hmade₁.vacancy (hS.vacancy hr)) hf.lt rfl hf.fit hf.eight hf.not_full
  have hzone₂ : (layout totalBlock icount).rootZone S₁.kernel.view dev = (layout totalBlock icount).firstdatazone := by
    rw [Sizes.rootZone, if_neg (by rw [hword₁]; exact hpos), hword₁]
  have hread₂ := Made.reads hmade₂ hf hzone₂.ge
  have hnext₁ := hread₁.next hf.fit hf.eight hf.not_full hd
  have hnext₂ := hread₂.next hf.fit hf.eight hf.not_full hd
  rw [if_pos hblank] at hnext₁
  rw [if_neg (by rw [hword₁]; exact hpos)] at hnext₂
  exact ⟨S₁, S₂, hrun₁, ends_iff.mp hrun₂, hword₁, (hread₂.word hf.fit).trans hzone₂, hnext₁, hnext₂⟩

theorem devmkfs_again_second : ∃ S₁ S₂, (devmkfs 2 64 31).run Sample.system = .ok (true, S₁) ∧
    (devmkfs 2 64 31).run S₁ = .ok (true, S₂) ∧
    ((layout 64 31).superBlock { Sample.superBlock with dev := 2 }).LowestFree S₂.kernel.view 5 := by
  obtain ⟨S₁, S₂, h₁, h₂, -, -, -, hnext⟩ := devmkfs_again Sample.system_settled Sample.system_balanced
    Sample.system_room Sample.small_formattable (by decide)
    (show ({ Sample.superBlock with dev := 2 } : SuperBlock).dev = 2 from rfl)
  exact ⟨S₁, S₂, h₁, h₂, hnext⟩

/-! ## 3. The block maps -/

/-- The layout of the volume. -/
def Sizes.Fit.volume {z : Sizes} {totalBlock n : Nat} (h : z.Fit totalBlock n) (dev : Int) : Volume where
  dev := dev
  inodes := n
  zones := totalBlock
  imapBlocks := z.imapBlocks
  zmapBlocks := z.zmapBlocks
  firstdatazone := z.firstdatazone
  imap := h.imapEnough
  zmap := by
    have := h.zmapEnough
    have := h.zmap_pos
    have := h.first
    have := h.total
    omega
  room := by
    have htable := h.table
    have := h.first
    rw [show BLOCK_INODES = 32 from rfl] at htable
    omega
  data := h.room
  small := h.small

section BlockMaps

variable {z : Sizes} {totalBlock n : Nat} {w w' : View} {dev : Int} {task : Task} {now : Nat}

/-- The inodes behind the first are free. -/
theorem Formatted.inode_clear (hw : Formatted dev n z task now w w') (hfit : z.Fit totalBlock n)
    (hzero : n % BLOCK_BITS ≠ 0) (hlast : n % BLOCK_BITS ≠ BLOCK_BITS - 1) {q : Nat} (h₂ : 2 ≤ q) (hq : q ≤ n) :
    bitOf w' dev 2 q = false := by
  have henough := hfit.imapEnough
  have hspare := hfit.imapSpare
  have hlt : q / BLOCK_BITS < z.imapBlocks := by
    rw [show BLOCK_BITS = 8192 from rfl] at henough hzero ⊢
    omega
  rw [hw.inodeBits q hlt, padBit]
  rw [show BLOCK_BITS = 8192 from rfl] at henough hspare hzero hlast hlt ⊢
  split
  · rw [decide_eq_false_iff_not]
    omega
  · rw [decide_eq_false_iff_not]
    omega

/-- **A consistent volume**: only inode 1 is in use, and its block map is the root directory's zone. -/
theorem Formatted.consistent (hw : Formatted dev n z task now w w') (hfit : z.Fit totalBlock n)
    (height : 8 ≤ z.zcount.toNat) (hne : z.zcount.toNat ≠ BLOCK_BITS) (hzero : n % BLOCK_BITS ≠ 0)
    (hlast : n % BLOCK_BITS ≠ BLOCK_BITS - 1)
    (hblank : ∀ i < 9, fetch (w (z.rootKey dev)) (Field.zone i).off 2 = 0) : (hfit.volume dev).Consistent w' := by
  have hword : z.rootWord w dev = 0 := hblank 0 (by decide)
  have hzone := (hw.word hfit).trans (Sizes.rootZone_blank hword)
  have hzmap := hfit.zmap_pos
  -- the first two bits of the zone bitmap
  have hbits : ∀ q < 2, bitOf w' dev (2 + z.imapBlocks) q = true := fun q hq => by
    have hq' : q < BLOCK_BITS := Nat.lt_trans hq (by decide)
    rw [hw.zoneBits q (by rw [Nat.div_eq_of_lt hq']; exact hzmap),
      hfit.padBit_low height hne (Nat.lt_trans hq (by decide)), decide_eq_true]
    omega
  have hroot : ∀ l p, ((hfit.volume dev).forest w').root l p →
      ∃ i < 9, l = Volume.zoneLevel i ∧ p = (z.rootKey dev, (Field.zone i).off) := by
    rintro l p ⟨nr, i, ho, hi, rfl, rfl⟩
    obtain rfl : nr = 1 := by
      by_contra h1
      have hpos := ho.pos
      have hset : bitOf w' dev 2 nr = true := ho.set
      rw [hw.inode_clear hfit hzero hlast (by omega) (Nat.le_of_lt ho.lt)] at hset
      cases hset
    exact ⟨i, hi, rfl, Prod.ext rfl (Nat.zero_add _)⟩
  have hval : ∀ i < 9, Volume.word w' (z.rootKey dev, (Field.zone i).off) = if i = 0 then z.firstdatazone else 0 := by
    intro i hi
    by_cases h0 : i = 0
    · rw [if_pos h0, h0]
      exact hzone
    · rw [if_neg h0]
      refine (hw.table _ 2 ?_).trans (hblank i hi)
      show 16 ≤ 14 + 2 * i
      omega
  have hflat : ∀ l p m, ((hfit.volume dev).forest w').root (l + 1) p →
      ((hfit.volume dev).forest w').val p ≠ some m := by
    intro l p m hr hv
    obtain ⟨i, hi, hl, rfl⟩ := hroot _ _ hr
    obtain ⟨rfl, hm⟩ := Volume.val_eq.mp hv
    rw [hval i hi, if_neg fun h0 => by rw [h0] at hl; cases hl] at hm
    exact hm rfl
  -- one slot is all that refers to a zone
  have hslot : ∀ {l p m}, ((hfit.volume dev).forest w').Slot l p → ((hfit.volume dev).forest w').val p = some m →
      l = 0 ∧ p = (z.rootKey dev, (Field.zone 0).off) ∧ m = z.firstdatazone := by
    intro l p m hs hv
    obtain ⟨i, hi, rfl, rfl⟩ := hroot _ _ (hs.root_of_flat hflat)
    obtain ⟨rfl, hm⟩ := Volume.val_eq.mp hv
    rw [hval i hi] at hm ⊢
    by_cases h0 : i = 0
    · rw [if_pos h0, h0]
      exact ⟨rfl, rfl, rfl⟩
    · rw [if_neg h0] at hm
      exact absurd rfl hm
  have hfirst := hfit.first
  refine ⟨⟨fun hs hv => ?_, fun hs hs' hv hv' => ?_⟩, ?_⟩
  · obtain ⟨-, -, rfl⟩ := hslot hs hv
    refine ⟨Nat.le_refl _, hfit.room, ?_⟩
    show bitOf w' dev (2 + z.imapBlocks) (z.firstdatazone + 1 - z.firstdatazone) = true
    rw [Nat.add_sub_cancel_left]
    exact hbits 1 (by decide)
  · obtain ⟨rfl, rfl, -⟩ := hslot hs hv
    obtain ⟨rfl, rfl, -⟩ := hslot hs' hv'
    exact ⟨rfl, rfl⟩
  · show bitOf w' dev (2 + z.imapBlocks) (z.firstdatazone - 1 + 1 - z.firstdatazone) = true
    rw [show z.firstdatazone - 1 + 1 - z.firstdatazone = 0 by omega]
    exact hbits 0 (by decide)

end BlockMaps

/-- **A new volume is consistent** where the last inode is in the middle of a block and the descriptor of inode 1
    named no zone: the base of every run on it. -/
theorem devmkfs_consistent {S S' : System} (hS : Settled S) (hb : S.kernel.Balanced) {dev : Int}
    {i x totalBlock icount : Nat} (hr : Room S.kernel.tab dev i x) (hf : Formattable totalBlock icount)
    (hzero : inodeCount totalBlock icount % BLOCK_BITS ≠ 0)
    (hlast : inodeCount totalBlock icount % BLOCK_BITS ≠ BLOCK_BITS - 1)
    (hblank : ∀ j < 9, fetch (S.kernel.view ((layout totalBlock icount).rootKey dev)) (Field.zone j).off 2 = 0)
    (hrun : (devmkfs dev totalBlock icount).run S = .ok (true, S')) :
    (hf.fit.volume dev).Consistent S'.kernel.view := by
  have hword : (layout totalBlock icount).rootWord S.kernel.view dev = 0 := hblank 0 (by decide)
  exact ((made_of_run hS hb hr hf hrun).reads hf (Sizes.rootZone_blank hword).ge).consistent hf.fit hf.eight
    hf.not_full hzero hlast hblank

/-- The second device is a consistent volume. -/
theorem devmkfs_consistent_second : ∃ S', (devmkfs 2 64 31).run Sample.system = .ok (true, S') ∧
    (Sample.small_formattable.fit.volume 2).Consistent S'.kernel.view := by
  obtain ⟨S', hrun, -⟩ :=
    devmkfs_ends Sample.system_settled Sample.system_balanced Sample.system_room Sample.small_formattable
  exact ⟨S', hrun, devmkfs_consistent Sample.system_settled Sample.system_balanced Sample.system_room
    Sample.small_formattable (by decide) (by decide) (by decide) hrun⟩

/-! ## 4. The books -/

/-- Only slots that are free have changed, and not in what says that they are. -/
structure Tables.Spared (T T' : Tables) : Prop where
  live : ∀ y, (T.inodeTable y).Live → T'.inodeTable y = T.inodeTable y
  dead : ∀ y, ¬ (T.inodeTable y).Live → ¬ (T'.inodeTable y).Live ∧
    (T'.inodeTable y).count = (T.inodeTable y).count ∧ (T'.inodeTable y).pipe = (T.inodeTable y).pipe ∧
    (T'.inodeTable y).mount = (T.inodeTable y).mount
  used : ∀ j, (T.superTable j).dev ≠ devEOF → T'.superTable j = T.superTable j
  free : ∀ j, (T.superTable j).dev = devEOF → (T'.superTable j).dev = devEOF ∧
    (T'.superTable j).inodeList = (T.superTable j).inodeList
  task : T'.task = T.task
  running : T'.running = T.running
  files : T'.fileTable = T.fileTable

section Spared

variable {T T' : Tables} {refs : List Nat}

theorem Tables.Spared.lists (h : T.Spared T') (j : Nat) :
    (T'.superTable j).inodeList = (T.superTable j).inodeList ∧ (T'.superTable j).dev = (T.superTable j).dev := by
  by_cases hd : (T.superTable j).dev = devEOF
  · exact ⟨(h.free j hd).2, (h.free j hd).1.trans hd.symm⟩
  · rw [h.used j hd]
    exact ⟨rfl, rfl⟩

/-- What a slot's count, `pipe` and `mount` say is the same. -/
theorem Tables.Spared.same (h : T.Spared T') (y : Nat) : (T'.inodeTable y).count = (T.inodeTable y).count ∧
    (T'.inodeTable y).pipe = (T.inodeTable y).pipe ∧ (T'.inodeTable y).mount = (T.inodeTable y).mount ∧
    ((T'.inodeTable y).Live ↔ (T.inodeTable y).Live) := by
  by_cases hl : (T.inodeTable y).Live
  · rw [h.live y hl]
    exact ⟨rfl, rfl, rfl, Iff.rfl⟩
  · obtain ⟨hl', hc, hp, hm⟩ := h.dead y hl
    exact ⟨hc, hp, hm, iff_of_false hl' hl⟩

theorem Owned.spared (ho : Owned T refs) (h : T.Spared T') : Owned T' refs := by
  have hlist := fun j => (h.lists j).1
  have hin : ∀ j, ∀ y ∈ (T'.superTable j).inodeList, y ∈ (T.superTable j).inodeList ∧
      T'.inodeTable y = T.inodeTable y := fun j y hy => by
    rw [hlist] at hy
    exact ⟨hy, h.live y (ho.lists.listed j y hy).1⟩
  have hget : ∀ d, T'.getSuper d = T.getSuper d := getSuper_congr fun j => (h.lists j).2
  refine ⟨fun y => (h.same y).1.trans (ho.count y), fun y => (h.same y).2.2.2.trans (ho.live y), ho.bound,
    fun y hy => ?_, fun y => ?_, ⟨fun j y hy => ?_, fun j => ?_, fun j k y hj hk => ?_⟩,
    ⟨fun j y hy => ?_, fun y hl hp => ?_, fun j y hy u hu e => ?_, fun j y hy => ?_⟩⟩
  · rw [(h.same y).2.1, (h.same y).2.2.1]
    exact ho.bare y hy
  · rw [(h.same y).2.2.1]
    exact ho.mount y
  · obtain ⟨hy, he⟩ := hin j y hy
    rw [he]
    exact ho.lists.listed j y hy
  · rw [hlist]
    exact ho.lists.nodup j
  · exact ho.lists.apart j k y (hin j y hj).1 (hin k y hk).1
  · obtain ⟨hy, he⟩ := hin j y hy
    rw [he, hget]
    exact ho.placed.home j y hy
  · rw [(h.same y).2.1] at hp
    obtain ⟨j, hj⟩ := ho.placed.onList y ((h.same y).2.2.2.mp hl) hp
    exact ⟨j, by rw [hlist]; exact hj⟩
  · obtain ⟨hy, he⟩ := hin j y hy
    obtain ⟨hu, he'⟩ := hin j u hu
    rw [he, he'] at e
    exact ho.placed.distinct j y hy u hu e
  · obtain ⟨hy, he⟩ := hin j y hy
    have hused : T'.superTable j = T.superTable j := h.used j fun hd => by
      have hhome := getSuper_dev (ho.placed.home j y hy)
      exact (ho.lists.listed j y hy).1 (hhome.symm.trans hd)
    rw [he, hused]
    exact ho.placed.filled j y hy

theorem Tables.Spared.mounts (h : T.Spared T') : T'.mounts = T.mounts := by
  unfold Tables.mounts SuperBlock.refs
  refine List.flatMap_congr fun j _ => ?_
  by_cases hd : (T.superTable j).dev = devEOF
  · rw [if_pos (h.free j hd).1, if_pos hd]
  · rw [h.used j hd]

theorem Mounted.spared (hm : Mounted T) (h : T.Spared T') (hlive : ∀ y ∈ T.mounts, (T.inodeTable y).Live)
    (hspare : ∀ j, (T.superTable j).dev = devEOF → (T'.superTable j).iroot = none ∧ (T'.superTable j).imount = none) :
    Mounted T' := by
  have hdev := fun j => (h.lists j).2
  have hget : ∀ d, T'.getSuper d = T.getSuper d := getSuper_congr hdev
  refine ⟨fun j hj => ?_, fun j hj => ?_, fun j hj => ?_, fun j hj => ?_, fun y hy => ?_, fun j hj m hjm hnr => ?_⟩
  · rw [hdev] at hj
    exact hm.bound j hj
  · rw [hdev] at hj
    obtain ⟨r, hr, hrest⟩ := hm.roots j hj
    refine ⟨r, ?_⟩
    rw [h.used j hj, h.live r (hlive r (Tables.mem_mounts (hm.bound j hj) hj (.inl hr)))]
    exact ⟨hr, hrest⟩
  · rw [hdev] at hj
    obtain ⟨m, hjm, hp⟩ := hm.covers j hj
    refine ⟨m, ?_⟩
    rw [h.used j hj, (h.same m).2.1]
    exact ⟨hjm, hp⟩
  · rw [hdev] at hj
    exact hspare j hj
  · rw [(h.same y).2.2.1] at hy
    obtain ⟨j, hj, hjm⟩ := hm.covered y hy
    refine ⟨j, ?_⟩
    rw [h.used j hj]
    exact ⟨hj, hjm⟩
  · rw [hdev] at hj
    rw [h.used j hj] at hjm
    rw [h.live m (hlive m (Tables.mem_mounts (hm.bound j hj) hj (.inr hjm)))] at hnr ⊢
    obtain ⟨k, hk, hkm⟩ := hm.rooted j hj m hjm hnr
    have hused : T'.superTable k = T.superTable k := h.used k fun hd => by
      have := (hm.spare k hd).2
      rw [hkm] at this
      cases this
    exact ⟨k, (hget _).trans hk, by rw [hused]; exact hkm⟩

end Spared

/-- The system with the super block's pointer to its root directory taken away. -/
def System.unrooted (S : System) (i : Nat) : System :=
  { S with
    kernel := { S.kernel with
      tab := S.kernel.tab.setSuper i { S.kernel.tab.superTable i with iroot := none } } }

section Books

variable {S S' : System} {dev : Int} {i x n : Nat} {z : Sizes}

theorem Made.spared (h : Made dev i x n z S S') (hv : Vacancy S.kernel.tab dev i x) :
    S.kernel.tab.Spared (S'.unrooted i).kernel.tab := by
  have hi : (S.kernel.tab.superTable i).dev = devEOF := eq_of_beq (List.find?_some hv.super :)
  have hx : (S.kernel.tab.inodeTable x).dev = devEOF := eq_of_beq (List.find?_some hv.inode :)
  unfold System.unrooted
  rw [h.tab]
  dsimp only
  rw [making_super, setSuper_making]
  refine ⟨fun y hy => ?_, fun y hy => ?_, fun j hj => ?_, fun j hj => ?_, rfl, rfl, rfl⟩
  · exact making_inode_of_ne fun e => hy (e ▸ hx)
  · by_cases e : y = x
    · rw [e, making_inode]
      exact ⟨fun hl => hl rfl, hv.count.symm, rfl, rfl⟩
    · rw [making_inode_of_ne e]
      exact ⟨hy, rfl, rfl, rfl⟩
  · exact making_super_of_ne fun e => hj (e ▸ hi)
  · by_cases e : j = i
    · rw [e, making_super]
      exact ⟨rfl, hv.inodeList.symm⟩
    · rw [making_super_of_ne e]
      exact ⟨hj, rfl⟩

/-- What the processes point to is the same. -/
theorem Settled.spared (hS : Settled S) (hst : S'.state = S.state) (hexec : S'.iexec = S.iexec)
    (h : S.kernel.tab.Spared S'.kernel.tab)
    (hcount : ∀ j, (S.kernel.tab.superTable j).dev ≠ devEOF → S'.superCount j = S.superCount j)
    (hspare : ∀ j, (S.kernel.tab.superTable j).dev = devEOF →
      (S'.kernel.tab.superTable j).iroot = none ∧ (S'.kernel.tab.superTable j).imount = none) : Settled S' := by
  have halive := System.alive_congr hst
  have hentries : S'.entries = S.entries := by
    unfold System.entries
    rw [halive, h.task]
  have hdirs : S'.directories = S.directories := by
    unfold System.directories System.held
    rw [halive, h.task, hexec]
  refine ⟨⟨?_, fun f => ?_, fun f hf => ?_⟩, fun y hy => ?_, ?_, fun j hj => ?_⟩
  · rw [hdirs, h.mounts, openFiles_congr h.files]
    exact hS.booking.owned.spared h
  · rw [h.files, hentries]
    exact hS.booking.files f
  · rw [hentries] at hf
    exact hS.booking.bound f hf
  · rw [hdirs] at hy
    rw [(h.same y).2.1]
    exact hS.plain y hy
  · refine hS.mounted.spared h (fun y hy => ?_) hspare
    exact (hS.booking.owned.live y).mpr (List.mem_append_right _ (List.mem_append_right _ hy))
  · rw [(h.lists j).2] at hj
    rw [hcount j hj]
    exact hS.supers j hj

end Books

/-- **After `devmkfs` every reference is counted**, and the file systems that are mounted are as they were; but
    the super block that it has given back still points to the root directory's slot, which is free. -/
theorem devmkfs_settled {S S' : System} (hS : Settled S) (hb : S.kernel.Balanced) {dev : Int}
    {i x totalBlock icount : Nat} (hr : Room S.kernel.tab dev i x) (hf : Formattable totalBlock icount)
    (hrun : (devmkfs dev totalBlock icount).run S = .ok (true, S')) :
    Settled (S'.unrooted i) ∧ (S'.kernel.tab.superTable i).iroot = some x ∧ ¬ Settled S' := by
  have hv := hS.vacancy hr
  have hm := made_of_run hS hb hr hf hrun
  have hi : (S.kernel.tab.superTable i).dev = devEOF := eq_of_beq (List.find?_some hv.super :)
  have hroot : (S'.kernel.tab.superTable i).iroot = some x := by
    rw [hm.tab, making_super]
  have hdev : (S'.kernel.tab.superTable i).dev = devEOF := by
    rw [hm.tab, making_super]
  refine ⟨hS.spared ?_ ?_ (hm.spared hv) (fun j hj => ?_) fun j hj => ?_, hroot, fun hS' => ?_⟩
  · show S'.state = S.state
    rw [hm.rest]
  · show S'.iexec = S.iexec
    rw [hm.rest]
  · show S'.superCount j = S.superCount j
    rw [hm.rest]
    exact Function.update_of_ne (fun e => hj (by rw [e]; exact hi)) ..
  · unfold System.unrooted
    rw [hm.tab]
    dsimp only
    rw [making_super, setSuper_making]
    by_cases e : j = i
    · rw [e, making_super]
      exact ⟨rfl, rfl⟩
    · rw [making_super_of_ne e]
      exact hS.mounted.spare j hj
  · have := (hS'.mounted.spare i hdev).1
    rw [hroot] at this
    cases this

theorem devmkfs_settled_second : ∃ S', (devmkfs 2 64 31).run Sample.system = .ok (true, S') ∧
    Settled (S'.unrooted 1) ∧ ¬ Settled S' := by
  obtain ⟨S', hrun, -⟩ :=
    devmkfs_ends Sample.system_settled Sample.system_balanced Sample.system_room Sample.small_formattable
  obtain ⟨h, -, hn⟩ := devmkfs_settled Sample.system_settled Sample.system_balanced Sample.system_room
    Sample.small_formattable hrun
  exact ⟨S', hrun, h, hn⟩

end Yuios
