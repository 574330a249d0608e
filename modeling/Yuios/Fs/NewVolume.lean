/-
  File:      Yuios/Fs/NewVolume.lean
  Subject:   A NEW VOLUME: what can be read from the blocks when `devmkfs` is done.

  * `Formatted` -- the super block, the bitmaps and the root directory, as the kernel reads them.
  * `Formattable` -- the sizes that `devmkfs` can lay out; `Room` of `Making.lean` is what it needs in memory.
  * **`devmkfs_makes`** -- the call comes to its end, and what it has made is `Formatted`.
-/
import Yuios.Fs.HolderRun
import Yuios.Fs.Making

namespace Yuios

open Lib Prog Code

/-! ## 1. The blocks -/

namespace Sizes

variable {z : Sizes} {totalBlock n : Nat} {w : View} {dev : Int} {task : Task} {now : Nat}

/-- `zone[0]` is not written with the descriptor. -/
theorem rootWord_described :
    z.rootWord (Function.update w (z.rootKey dev) (rootDesc task now (w (z.rootKey dev)))) dev = z.rootWord w dev := by
  rw [rootWord, Function.update_self]
  exact fetch_rootDesc (Nat.le_refl _)

theorem rootZone_described :
    z.rootZone (Function.update w (z.rootKey dev) (rootDesc task now (w (z.rootKey dev)))) dev = z.rootZone w dev := by
  rw [rootZone, rootWord_described]
  rfl

theorem rooted_of_ne {k : Key} (hroot : k ≠ z.rootKey dev) (hmap : k ≠ ⟨dev, 2 + z.imapBlocks⟩) :
    z.rooted w dev k = w k := by
  unfold rooted
  by_cases h : z.rootWord w dev = 0
  · rw [if_pos h, Function.update_of_ne hroot, withBit_of_ne hmap]
  · rw [if_neg h]

/-- A block that has nothing to do with the root directory. -/
theorem withRoot_of_ne {k : Key} (hroot : k ≠ z.rootKey dev) (hmap : k ≠ ⟨dev, 2 + z.imapBlocks⟩)
    (hzone : k ≠ ⟨dev, z.rootZone w dev⟩) : z.withRoot w dev task now k = w k := by
  rw [withRoot, rootZone_described, Function.update_of_ne hzone, rooted_of_ne hroot hmap, Function.update_of_ne hroot]

/-- The block of the root directory's descriptor. -/
theorem withRoot_rootKey (hzone : z.rootKey dev ≠ ⟨dev, z.rootZone w dev⟩) :
    z.withRoot w dev task now (z.rootKey dev) = if z.rootWord w dev = 0 then
      store (rootDesc task now (w (z.rootKey dev))) 14 2 z.firstdatazone
    else rootDesc task now (w (z.rootKey dev)) := by
  rw [withRoot, rootZone_described, Function.update_of_ne hzone, rooted, rootWord_described]
  by_cases h : z.rootWord w dev = 0
  · rw [if_pos h, if_pos h, Function.update_self, Function.update_self]
  · rw [if_neg h, if_neg h, Function.update_self]

/-- The block of the root directory. -/
theorem withRoot_zone {zone : Nat} (hz : z.rootZone w dev = zone) (hroot : (⟨dev, zone⟩ : Key) ≠ z.rootKey dev)
    (hmap : (⟨dev, zone⟩ : Key) ≠ ⟨dev, 2 + z.imapBlocks⟩) :
    z.withRoot w dev task now ⟨dev, zone⟩ = rootDir (w ⟨dev, zone⟩) := by
  rw [withRoot, rootZone_described, hz, Function.update_self, rooted_of_ne hroot hmap, Function.update_of_ne hroot]

/-- The zone bitmap: the root directory's zone is taken where it is a new one. -/
theorem withRoot_zmap (hz : 0 < z.zmapBlocks) (hzone : (⟨dev, 2 + z.imapBlocks⟩ : Key) ≠ ⟨dev, z.rootZone w dev⟩) :
    z.withRoot w dev task now ⟨dev, 2 + z.imapBlocks⟩ = if z.rootWord w dev = 0 then
      withBit w dev (2 + z.imapBlocks) 1 true ⟨dev, 2 + z.imapBlocks⟩ else w ⟨dev, 2 + z.imapBlocks⟩ := by
  have hroot : (⟨dev, 2 + z.imapBlocks⟩ : Key) ≠ z.rootKey dev := fun e => by
    have hblock : 2 + z.imapBlocks = 2 + z.imapBlocks + z.zmapBlocks := congrArg Key.block e
    omega
  rw [withRoot, rootZone_described, Function.update_of_ne hzone, rooted, rootWord_described]
  by_cases h : z.rootWord w dev = 0
  · rw [if_pos h, if_pos h, Function.update_of_ne hroot, withBit_first (by decide), withBit_first (by decide),
      Function.update_self, Function.update_self, Function.update_of_ne hroot]
  · rw [if_neg h, if_neg h, Function.update_of_ne hroot]

/-- The blocks that are not written. -/
theorem made_of_ne (hfit : z.Fit totalBlock n) {k : Key} (hk : k ∉ z.writes w dev) :
    z.made w dev n task now k = w k := by
  have hi := hfit.imap_pos
  have hz := hfit.zmap_pos
  simp only [writes, List.mem_cons, List.mem_append, List.not_mem_nil, or_false, not_or] at hk
  obtain ⟨hzone, hroot, hzmap, himap, hsuper⟩ := hk
  rw [made, withRoot_of_ne hroot (fun e => hzmap (by rw [e]; exact mapKeys_mem (j := 0) hz)),
    bitmaps_of_ne hi hz himap hzmap, Function.update_of_ne hsuper]
  rw [rootZone_congr (bitmaps_rootKey hi hz)]
  exact hzone

end Sizes

/-! ## 2. What can be read -/

/-- The fields of the root directory's descriptor. -/
def rootFields (task : Task) (now zone : Nat) : List (Field × Nat) :=
  [(.mode, (0o777 &&& (0o777 ^^^ (task.umask &&& 0o777))) ||| IFDIR), (.uid, task.uid), (.size, 32), (.mtime, now),
    (.gid, task.gid), (.nlinks, 2), (.zone 0, zone)]

/-- **The blocks of a new volume**, `w` before and `w'` now. -/
structure Formatted (dev : Int) (n : Nat) (z : Sizes) (task : Task) (now : Nat) (w w' : View) : Prop where
  super : ∀ sb : SuperBlock, sb.read dev (w' ⟨dev, 1⟩) = z.superBlock { sb with dev := dev }
  magic : fetch (w' ⟨dev, 1⟩) 16 2 = MINIX1_MAGIC
  inodeBits : ∀ q, q / BLOCK_BITS < z.imapBlocks →
    bitOf w' dev 2 q = padBit (z.imapBlocks - 1) (n + 1) q (decide (q < 2))
  zoneBits : ∀ q, q / BLOCK_BITS < z.zmapBlocks → bitOf w' dev (2 + z.imapBlocks) q =
    padBit (z.zmapBlocks - 1) z.zcount.toNat q (decide (q = 0 ∨ q = 1 ∧ z.rootWord w dev = 0))
  root : ∀ e ∈ rootFields task now (z.rootZone w dev),
    fetch (w' (z.rootKey dev)) e.1.off e.1.width = e.2 % 256 ^ e.1.width
  table : ∀ off m, 16 ≤ off → fetch (w' (z.rootKey dev)) off m = fetch (w (z.rootKey dev)) off m
  entries : ∀ i < BLOCK_DENTRIES, fetch (w' ⟨dev, z.rootZone w dev⟩) (16 * i) 2 = if i < 2 then 1 else 0
  dot : matchName (w' ⟨dev, z.rootZone w dev⟩) 2 DOT = some []
  dotdot : matchName (w' ⟨dev, z.rootZone w dev⟩) 18 DOTDOT = some []
  others : ∀ k ∉ z.writes w dev, w' k = w k

section Formatted

variable {z : Sizes} {totalBlock n : Nat} {w : View} {dev : Int} {task : Task} {now : Nat}

/-- The descriptor in block 1 can be read back. -/
theorem descriptor_read (hfit : z.Fit totalBlock n) (sb : SuperBlock) (b : Bytes) :
    sb.read dev (z.descriptor b) = z.superBlock { sb with dev := dev } := by
  have hsmall := hfit.small
  have hinodes : z.inodes < 256 ^ 2 := by
    have := hfit.inodes
    have := hfit.lt
    omega
  have hzones : z.zones < 256 ^ 2 := by
    have := hfit.zones
    omega
  have himap : z.imapBlocks < 256 ^ 2 := by
    have := hfit.total
    omega
  have hzmap : z.zmapBlocks < 256 ^ 2 := by
    have := hfit.first
    have := hfit.room
    omega
  have hfirst : z.firstdatazone < 256 ^ 2 := by
    have := hfit.room
    omega
  unfold SuperBlock.read Sizes.superBlock Sizes.descriptor
  simp (disch := omega) only [fetch_store_ne, fetch_store_of_lt]

theorem descriptor_magic (b : Bytes) : fetch (z.descriptor b) 16 2 = MINIX1_MAGIC := by
  unfold Sizes.descriptor
  exact fetch_store_of_lt (by decide)

theorem fetch_zero (off n : Nat) : fetch (fun _ => 0) off n = 0 := by
  induction n generalizing off with
  | zero => rfl
  | succ n ih =>
    rw [fetch, ih]
    rfl

/-- The root directory has two entries, of inode 1. -/
theorem fetch_rootDir (b : Bytes) {i : Nat} (hi : i < BLOCK_DENTRIES) :
    fetch (rootDir b) (16 * i) 2 = if i < 2 then 1 else 0 := by
  have hlt : 16 * i + 2 ≤ BLOCK_SIZE := by
    unfold BLOCK_DENTRIES at hi
    unfold BLOCK_SIZE
    omega
  unfold rootDir
  dsimp only
  by_cases h₁ : i = 1
  · rw [h₁]
    exact fetch_store_of_lt (by decide)
  · by_cases h₀ : i = 0
    · rw [h₀, fetch_store_ne (by omega), fetch_copyIn_ne (by omega)]
      exact fetch_store_of_lt (by decide)
    · rw [if_neg (by omega), fetch_store_ne (by omega), fetch_copyIn_ne (by omega), fetch_store_ne (by omega),
        fetch_copyIn_ne (by omega), ← fetch_zero (16 * i) 2]
      exact fetch_congr fun j _ hj => copyIn_of_mem (Nat.zero_le j) (by omega)

theorem matchName_rootDir (b : Bytes) :
    matchName (rootDir b) 2 DOT = some [] ∧ matchName (rootDir b) 18 DOTDOT = some [] := by
  have hbytes : rootDir b 2 = 46 ∧ rootDir b 3 = 0 ∧ rootDir b 18 = 46 ∧ rootDir b 19 = 46 ∧ rootDir b 20 = 0 :=
    ⟨rfl, rfl, rfl, rfl, rfl⟩
  obtain ⟨h₂, h₃, h₁₈, h₁₉, h₂₀⟩ := hbytes
  constructor
  · simp [matchName, DOT, h₂, h₃]
  · simp [matchName, DOTDOT, h₁₈, h₁₉, h₂₀]

/-- The fields before `zone[]` are those of `rootDesc`. -/
theorem fetch_rootFields {zone : Nat} {b b' : Bytes}
    (hsame : ∀ off m, off + m ≤ 14 → fetch b' off m = fetch (rootDesc task now b) off m)
    (hzone : fetch b' 14 2 = zone % 256 ^ 2) :
    ∀ e ∈ rootFields task now zone, fetch b' e.1.off e.1.width = e.2 % 256 ^ e.1.width := by
  intro e he
  simp only [rootFields, List.mem_cons, List.not_mem_nil, or_false] at he
  obtain rfl | rfl | rfl | rfl | rfl | rfl | rfl := he
  · show fetch b' 0 2 = _ % 256 ^ 2
    rw [hsame 0 2 (by decide)]
    simp (disch := omega) only [rootDesc, fetch_store_ne, fetch_store_self]
  · show fetch b' 2 2 = _ % 256 ^ 2
    rw [hsame 2 2 (by decide)]
    simp (disch := omega) only [rootDesc, fetch_store_ne, fetch_store_self]
  · show fetch b' 4 4 = _ % 256 ^ 4
    rw [hsame 4 4 (by decide)]
    simp (disch := omega) only [rootDesc, fetch_store_ne, fetch_store_self]
  · show fetch b' 8 4 = _ % 256 ^ 4
    rw [hsame 8 4 (by decide)]
    simp (disch := omega) only [rootDesc, fetch_store_ne, fetch_store_self]
  · show fetch b' 12 1 = _ % 256 ^ 1
    rw [hsame 12 1 (by decide)]
    simp (disch := omega) only [rootDesc, fetch_store_ne, fetch_store_self]
  · show fetch b' 13 1 = _ % 256 ^ 1
    rw [hsame 13 1 (by decide)]
    simp (disch := omega) only [rootDesc, fetch_store_self]
  · exact hzone

/-- **What `devmkfs` leaves can be read** where the root directory's zone is a data zone. -/
theorem formatted_made (hfit : z.Fit totalBlock n) (height : 8 ≤ z.zcount.toNat)
    (hne : z.zcount.toNat ≠ BLOCK_BITS) (hdata : z.firstdatazone ≤ z.rootZone w dev) :
    Formatted dev n z task now w (z.made w dev n task now) := by
  have hi := hfit.imap_pos
  have hz := hfit.zmap_pos
  have hfirst := hfit.first
  have htable := hfit.table_pos
  set w₁ : View := Function.update w ⟨dev, 1⟩ (z.descriptor (w ⟨dev, 1⟩))
  set w₂ : View := z.bitmaps w₁ dev n
  have hroot : w₂ (z.rootKey dev) = w (z.rootKey dev) := Sizes.bitmaps_rootKey hi hz
  have hword : z.rootWord w₂ dev = z.rootWord w dev := congrArg (fetch · 14 2) hroot
  have hzone : z.rootZone w₂ dev = z.rootZone w dev := Sizes.rootZone_congr hroot
  have hmade : z.made w dev n task now = z.withRoot w₂ dev task now := rfl
  -- the blocks lie one after the other
  have hlow : ∀ b, b < z.firstdatazone → (⟨dev, b⟩ : Key) ≠ ⟨dev, z.rootZone w₂ dev⟩ := fun b hb e => by
    have := congrArg Key.block e
    rw [hzone] at this
    dsimp only at this
    omega
  have hbelow : ∀ b, b < 2 + z.imapBlocks + z.zmapBlocks → (⟨dev, b⟩ : Key) ≠ z.rootKey dev := fun b hb e => by
    have : b = 2 + z.imapBlocks + z.zmapBlocks := congrArg Key.block e
    omega
  have hstay : ∀ b, b < 2 + z.imapBlocks + z.zmapBlocks → b ≠ 2 + z.imapBlocks →
      z.made w dev n task now ⟨dev, b⟩ = w₂ ⟨dev, b⟩ := fun b hb hne => by
    rw [hmade, Sizes.withRoot_of_ne (hbelow b hb) (fun e => hne (congrArg Key.block e)) (hlow b (by omega))]
  have hsuper : z.made w dev n task now ⟨dev, 1⟩ = z.descriptor (w ⟨dev, 1⟩) := by
    rw [hstay 1 (by omega) (by omega), show w₂ ⟨dev, 1⟩ = w₁ ⟨dev, 1⟩ from Sizes.bitmaps_super hi hz]
    exact Function.update_self ..
  have hzmap : ∀ j < z.zmapBlocks, z.made w dev n task now ⟨dev, 2 + z.imapBlocks + j⟩ =
      (if z.rootWord w dev = 0 then withBit w₂ dev (2 + z.imapBlocks) 1 true else w₂)
        ⟨dev, 2 + z.imapBlocks + j⟩ := fun j hj => by
    by_cases h₀ : j = 0
    · rw [h₀, Nat.add_zero, hmade, Sizes.withRoot_zmap hz (hlow _ (by omega)), hword]
      by_cases hblank : z.rootWord w dev = 0
      · rw [if_pos hblank, if_pos hblank]
      · rw [if_neg hblank, if_neg hblank]
    · rw [hstay _ (by omega) (by omega)]
      by_cases hblank : z.rootWord w dev = 0
      · rw [if_pos hblank, withBit_of_ne fun e => h₀ ?_]
        have : 2 + z.imapBlocks + j = 2 + z.imapBlocks + 1 / BLOCK_BITS := congrArg Key.block e
        exact Nat.add_left_cancel this
      · rw [if_neg hblank]
  have hdir : z.made w dev n task now ⟨dev, z.rootZone w dev⟩ = rootDir (w₂ ⟨dev, z.rootZone w dev⟩) := by
    rw [hmade, Sizes.withRoot_zone hzone (fun e => ?_) fun e => ?_]
    · have : z.rootZone w dev = 2 + z.imapBlocks + z.zmapBlocks := congrArg Key.block e
      omega
    · have : z.rootZone w dev = 2 + z.imapBlocks := congrArg Key.block e
      omega
  have hdesc : z.made w dev n task now (z.rootKey dev) = if z.rootWord w dev = 0 then
      store (rootDesc task now (w (z.rootKey dev))) 14 2 z.firstdatazone
      else rootDesc task now (w (z.rootKey dev)) := by
    rw [hmade, Sizes.withRoot_rootKey (hlow _ (by omega)), hword, hroot]
  refine ⟨fun sb => ?_, ?_, fun q hq => ?_, fun q hq => ?_, ?_, fun off m hoff => ?_, fun j hj => ?_, ?_, ?_,
    fun k hk => Sizes.made_of_ne hfit hk⟩
  · rw [hsuper]
    exact descriptor_read hfit sb _
  · rw [hsuper]
    exact descriptor_magic _
  · rw [bitOf_congr (hstay _ (by omega) (by omega))]
    exact Sizes.imapBit_bitmaps hq
  · rw [bitOf_congr (hzmap _ hq)]
    by_cases hblank : z.rootWord w dev = 0
    · rw [if_pos hblank, bitOf_withBit, show bitOf w₂ dev _ q = _ from Sizes.zmapBit_bitmaps hi hq]
      by_cases h₁ : q = 1
      · rw [if_pos h₁, h₁, hfit.padBit_low height hne (by decide)]
        simp [hblank]
      · simp [h₁]
    · rw [if_neg hblank, show bitOf w₂ dev _ q = _ from Sizes.zmapBit_bitmaps hi hq]
      simp [hblank]
  · rw [hdesc]
    by_cases hblank : z.rootWord w dev = 0
    · rw [if_pos hblank]
      refine fetch_rootFields (fun off m h => fetch_store_ne (.inl h)) ?_
      rw [fetch_store_self, Sizes.rootZone, if_pos hblank]
    · rw [if_neg hblank]
      refine fetch_rootFields (fun off m _ => rfl) ?_
      rw [fetch_rootDesc (Nat.le_refl _), Sizes.rootZone, if_neg hblank]
      exact (Nat.mod_eq_of_lt (fetch_lt (w (z.rootKey dev)) 14 2)).symm
  · rw [hdesc]
    by_cases hblank : z.rootWord w dev = 0
    · rw [if_pos hblank, fetch_store_ne (.inr hoff), fetch_rootDesc (by omega)]
    · rw [if_neg hblank, fetch_rootDesc (by omega)]
  · rw [hdir]
    exact fetch_rootDir _ hj
  · rw [hdir]
    exact (matchName_rootDir _).1
  · rw [hdir]
    exact (matchName_rootDir _).2

end Formatted

/-! ## 3. The call -/

/-- The sizes of a call of `devmkfs`. -/
abbrev layout (totalBlock icount : Nat) : Sizes := sizes totalBlock (inodeCount totalBlock icount)

/-- The devices that `devmkfs` makes a volume on: the inodes' and the zones' numbers have 16 bits, `ialloc`
    hands out inode 1, and the padding of the zone bitmap leaves its first bits. -/
structure Formattable (totalBlock icount : Nat) : Prop where
  small : totalBlock ≤ 65535
  lt : icount < totalBlock
  ne_one : icount ≠ 1
  zones : 8 ≤ (layout totalBlock icount).zcount
  ne_full : (layout totalBlock icount).zcount ≠ BLOCK_BITS

instance (totalBlock icount : Nat) : Decidable (Formattable totalBlock icount) :=
  decidable_of_iff (totalBlock ≤ 65535 ∧ icount < totalBlock ∧ icount ≠ 1 ∧
      8 ≤ (layout totalBlock icount).zcount ∧ (layout totalBlock icount).zcount ≠ BLOCK_BITS)
    ⟨fun h => ⟨h.1, h.2.1, h.2.2.1, h.2.2.2.1, h.2.2.2.2⟩, fun h => ⟨h.1, h.2, h.3, h.4, h.5⟩⟩

section Formattable

variable {totalBlock icount : Nat} (h : Formattable totalBlock icount)

include h

theorem Formattable.inodeCount_lt : inodeCount totalBlock icount < totalBlock := by
  have := h.lt
  unfold inodeCount
  by_cases h₀ : icount = 0
  · rw [if_pos h₀]
    omega
  · rwa [if_neg h₀]

theorem Formattable.fit : (layout totalBlock icount).Fit totalBlock (inodeCount totalBlock icount) := by
  have hz : 2 ≤ (layout totalBlock icount).zcount := Int.le_trans (by decide) h.zones
  refine sizes_fit h.small ?_ h.inodeCount_lt hz
  obtain ⟨_, _, _, zc, he, -, -, -, htotal⟩ := sizes_eq h.small h.inodeCount_lt hz
  have hzones := h.zones
  rw [layout, he] at hzones
  dsimp only at hzones
  have := h.ne_one
  unfold inodeCount
  by_cases h₀ : icount = 0
  · rw [if_pos h₀]
    omega
  · rw [if_neg h₀]
    omega

theorem Formattable.eight : 8 ≤ (layout totalBlock icount).zcount.toNat := by
  have := h.zones
  omega

theorem Formattable.not_full : (layout totalBlock icount).zcount.toNat ≠ BLOCK_BITS := by
  have := h.zones
  have := h.ne_full
  omega

end Formattable

/-- In a settled system the slots that the call finds are vacant. -/
theorem Settled.vacancy {S : System} (h : Settled S) {dev : Int} {i x : Nat} (hr : Room S.kernel.tab dev i x) :
    Vacancy S.kernel.tab dev i x := by
  have howned := h.booking.owned
  have hsuper : (S.kernel.tab.superTable i).dev = devEOF := eq_of_beq (List.find?_some hr.super :)
  have hinode : (S.kernel.tab.inodeTable x).dev = devEOF := eq_of_beq (List.find?_some hr.inode :)
  have hdead : ¬ (S.kernel.tab.inodeTable x).Live := fun hl => hl hinode
  have hrefs := mt (howned.live x).mpr hdead
  refine ⟨hr, ?_, (h.mounted.spare i hsuper).2, ?_, (howned.bare x hrefs).1, fun j _ hm => ?_⟩
  · -- an inode of the list would be one of a device that is in use
    refine List.eq_nil_iff_forall_not_mem.mpr fun y hy => ?_
    have hlive := (howned.lists.listed i y hy).1
    have hhome : (S.kernel.tab.superTable i).dev = (S.kernel.tab.inodeTable y).dev :=
      eq_of_beq (List.find?_some (howned.placed.home i y hy) :)
    exact hlive (hhome.symm.trans hsuper)
  · by_contra hc
    exact hrefs (howned.count_ne.mp hc)
  · exact hdead (howned.lists.listed j x hm).1

section Call

variable {S S' : System} {dev : Int} {i x totalBlock icount : Nat}

theorem devmkfs_ends (hS : Settled S) (hb : S.kernel.Balanced) (hr : Room S.kernel.tab dev i x)
    (hf : Formattable totalBlock icount) : ∃ S', (devmkfs dev totalBlock icount).run S = .ok (true, S') ∧
      Made dev i x (inodeCount totalBlock icount) (layout totalBlock icount) S S' := by
  obtain ⟨ok, S', hrun, rfl, hmade⟩ := devmkfs_comes hb (hS.vacancy hr) hf.lt rfl hf.fit hf.eight hf.not_full
  exact ⟨S', ends_iff.mp hrun, hmade⟩

theorem made_of_run (hS : Settled S) (hb : S.kernel.Balanced) (hr : Room S.kernel.tab dev i x)
    (hf : Formattable totalBlock icount) (hrun : (devmkfs dev totalBlock icount).run S = .ok (true, S')) :
    Made dev i x (inodeCount totalBlock icount) (layout totalBlock icount) S S' := by
  obtain ⟨S₁, hrun₁, hmade⟩ := devmkfs_ends hS hb hr hf
  obtain ⟨-, rfl⟩ := Prod.mk.inj (Except.ok.inj (hrun₁.symm.trans hrun))
  exact hmade

/-- What can be read from a new volume. -/
theorem Made.reads (hm : Made dev i x (inodeCount totalBlock icount) (layout totalBlock icount) S S')
    (hf : Formattable totalBlock icount)
    (hdata : (layout totalBlock icount).firstdatazone ≤ (layout totalBlock icount).rootZone S.kernel.view dev) :
    Formatted dev (inodeCount totalBlock icount) (layout totalBlock icount)
      (S.kernel.tab.task S.kernel.tab.running) (S.kernel.clock S.kernel.tick) S.kernel.view S'.kernel.view := by
  rw [hm.view]
  exact formatted_made hf.fit hf.eight hf.not_full hdata

end Call

/-- **`devmkfs`** comes to its end in every settled system that has room, and makes the volume; where the
    descriptor of inode 1 named no zone before, or one in the data area, all of it can be read. -/
theorem devmkfs_makes {S : System} (hS : Settled S) (hb : S.kernel.Balanced) {dev : Int} {i x totalBlock icount : Nat}
    (hr : Room S.kernel.tab dev i x) (hf : Formattable totalBlock icount) :
    ∃ S', (devmkfs dev totalBlock icount).run S = .ok (true, S') ∧
      Made dev i x (inodeCount totalBlock icount) (layout totalBlock icount) S S' ∧
      ((layout totalBlock icount).firstdatazone ≤ (layout totalBlock icount).rootZone S.kernel.view dev →
        Formatted dev (inodeCount totalBlock icount) (layout totalBlock icount)
          (S.kernel.tab.task S.kernel.tab.running) (S.kernel.clock S.kernel.tick) S.kernel.view S'.kernel.view) := by
  obtain ⟨S', hrun, hmade⟩ := devmkfs_ends hS hb hr hf
  exact ⟨S', hrun, hmade, hmade.reads hf⟩

namespace Sample

theorem system_balanced : system.kernel.Balanced := by
  intro k
  show (0 : Int) ≤ if k = ⟨dev, 4⟩ then 1 else 0
  split <;> decide

theorem system_room : Room system.kernel.tab 2 1 1 :=
  ⟨by decide, by decide +kernel, by decide, by decide +kernel, by decide⟩

theorem small_formattable : Formattable 64 31 := by decide

end Sample

/-- A second device, of 64 blocks, that nothing was written to. -/
theorem devmkfs_makes_second : ∃ S', (devmkfs 2 64 31).run Sample.system = .ok (true, S') ∧
    Made 2 1 1 31 (layout 64 31) Sample.system S' ∧
    Formatted 2 31 (layout 64 31) (Sample.system.kernel.tab.task 0) 1000 Sample.system.kernel.view S'.kernel.view := by
  obtain ⟨S', hrun, hmade, hread⟩ :=
    devmkfs_makes Sample.system_settled Sample.system_balanced Sample.system_room Sample.small_formattable
  exact ⟨S', hrun, hmade, hread (by decide +kernel)⟩

end Yuios
