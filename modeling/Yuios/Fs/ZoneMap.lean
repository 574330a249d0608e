/-
  File:      Yuios/Fs/ZoneMap.lean
  Subject:   `balloc` AND `bfree` ON ANY VOLUME: which bit is set, and when it can be cleared again.

  Bit `q` of the zone bitmap stands for zone `q + firstdatazone - 1`. `balloc` counts blocks of the
  bitmap with that offset, `bfree` without it:

  * `balloc_run` -- `balloc` takes the lowest clear bit and sets it;
  * `bfree_run` -- `bfree z` clears the bit of `z` when `z - 1` and the bit of `z` lie in the same
    block, and fails an assertion otherwise;
  * **`bfree_undoes_balloc`** -- so `bfree` takes back what `balloc` gave exactly where the bit is
    at least `firstdatazone - 2` bits before the end of its block.
-/
import Yuios.Fs.Scan
import Yuios.Fs.Sample

namespace Yuios

open Lib Prog Code

/-! ## 1. The zone bitmap -/

namespace SuperBlock

variable (sb : SuperBlock)

/-- The place of a zone's bit. -/
def zoneBit (z : Nat) : Nat := z + 1 - sb.firstdatazone

/-- The block the zone bitmap starts with. -/
def zmapBase : Nat := 2 + sb.imapBlocks

/-- Zone `z`'s bit. -/
def zoneSet (w : View) (z : Nat) : Bool := bitOf w sb.dev sb.zmapBase (sb.zoneBit z)

/-- Zone `z`'s bit written. -/
def setZone (w : View) (z : Nat) (b : Bool) : View := withBit w sb.dev sb.zmapBase (sb.zoneBit z) b

/-- What the format allows: as many bitmap blocks as there is room for, zone numbers of 16 bits,
    and a data area behind the boot block and the super block. -/
structure Geometry : Prop where
  zones : sb.zones ≤ 65535
  zmapBlocks : sb.zmapBlocks ≤ ZMAP_NR
  first : 2 ≤ sb.firstdatazone

/-- `z` has a bit in a block that is loaded. -/
structure Zone (z : Nat) : Prop where
  first : sb.firstdatazone ≤ z + 1
  lt : z < sb.zones
  loaded : sb.zoneBit z / BLOCK_BITS < sb.zmapBlocks

/-- `z` is free. -/
structure FreeZone (w : View) (z : Nat) : Prop extends Zone sb z where
  clear : sb.zoneSet w z = false

/-- `z` is the zone of the lowest clear bit. -/
structure LowestFree (w : View) (z : Nat) : Prop extends FreeZone sb w z where
  below : ∀ q < sb.zoneBit z, bitOf w sb.dev sb.zmapBase q = true

variable {sb}

theorem Zone.number {z : Nat} (h : sb.Zone z) (hg : sb.Geometry) :
    z = sb.zoneBit z + sb.firstdatazone - 1 := by
  have := h.first
  have := hg.first
  unfold zoneBit
  omega

theorem exists_lowestFree {w : View} (hg : sb.Geometry) (h : ∃ z, sb.FreeZone w z) :
    ∃ z, sb.LowestFree w z := by
  obtain ⟨z, hz⟩ := h
  have hclear : ∃ q, bitOf w sb.dev sb.zmapBase q = false := ⟨_, hz.clear⟩
  obtain ⟨p, hp, hlow⟩ : ∃ p, bitOf w sb.dev sb.zmapBase p = false ∧
      ∀ q < p, bitOf w sb.dev sb.zmapBase q = true :=
    ⟨Nat.find hclear, Nat.find_spec hclear, fun q hq => by simpa using Nat.find_min hclear hq⟩
  have hle : p ≤ sb.zoneBit z := by
    by_contra hn
    have := hlow _ (Nat.lt_of_not_le hn)
    rw [show bitOf w sb.dev sb.zmapBase (sb.zoneBit z) = false from hz.clear] at this
    cases this
  have hnum := hz.toZone.number hg
  have hfirst := hg.first
  have hbit : sb.zoneBit (p + sb.firstdatazone - 1) = p := by
    unfold zoneBit
    omega
  have hlt := hz.lt
  refine ⟨p + sb.firstdatazone - 1, ⟨⟨by omega, by omega, ?_⟩, ?_⟩, ?_⟩
  · rw [hbit]
    exact Nat.lt_of_le_of_lt (Nat.div_le_div_right hle) hz.loaded
  · rw [zoneSet, hbit]
    exact hp
  · rw [hbit]
    exact hlow

theorem zmap_eq {j : Nat} (h : j < sb.zmapBlocks) :
    sb.zmap j = some ⟨sb.dev, sb.zmapBase + j⟩ := if_pos h

theorem zmapOffset_eq (hg : sb.Geometry) (j : Nat) :
    sb.zmapOffset j = j * BLOCK_BITS + (sb.firstdatazone - 1) := by
  have := hg.first
  unfold zmapOffset
  omega

/-- The bits of the bitmap's block `j`. -/
theorem bitOf_block (w : View) (dev : Int) (base j : Nat) {p : Nat} (hp : p < BLOCK_BITS) :
    bitOf w dev base (j * BLOCK_BITS + p) = getBit (w ⟨dev, base + j⟩) p := by
  unfold bitOf
  rw [Nat.mul_comm, Nat.mul_add_div (by decide), Nat.div_eq_of_lt hp, Nat.mul_add_mod,
    Nat.mod_eq_of_lt hp, Nat.add_zero]

end SuperBlock

/-! ## 2. Taking a zone -/

theorem view_putBit {s : Kernel} {k : Key} {p : Nat} {b : Bool} :
    (s.putBit k p b).view = Function.update s.view k (setBit (s.view k) p b) := by
  funext k'
  show (s.putBit k p b).cache.view k' = _
  rw [Kernel.putBit, (mark_same _ _).view]
  show (s.poke k _).view k' = _
  rw [Kernel.view_poke]
  by_cases e : k' = k
  · rw [if_pos e, e, Function.update_self]
  · rw [if_neg e, Function.update_of_ne e]

/-- The write of a buffer comes to its end. -/
theorem bwrite_run (s : Kernel) (k : Key) : ∃ t, (bwrite k).run s = .ok ((), t) ∧ Same s t := by
  obtain ⟨t, ht⟩ : ∃ t, (bwrite k).run s = .ok ((), t) := by
    rw [bwrite, run_then run_reads]
    by_cases h : (s.cache.buf k).dirty = true
    · rw [if_pos h]
      exact ⟨_, rfl⟩
    · rw [if_neg h]
      exact ⟨_, rfl⟩
  exact ⟨t, ht, bwrite_same k s () t (ends_iff.mpr ht)⟩

theorem run_superOf {s : Kernel} {dev : Int} {i : Nat} (h : s.tab.getSuper dev = some i) :
    (superOf dev).run s = .ok (s.tab.superTable i, s) := by
  rw [superOf, run_then run_reads, h]
  rfl

section Zones

variable {sb : SuperBlock} {s : Kernel} {dev : Int} {z : Nat}

/-- The key of the block with the zone's bit. -/
def SuperBlock.zoneKey (sb : SuperBlock) (z : Nat) : Key :=
  ⟨sb.dev, sb.zmapBase + sb.zoneBit z / BLOCK_BITS⟩

theorem allocLoop_zone (hg : sb.Geometry) (hz : sb.LowestFree s.view z) (n i : Nat)
    (buf : Option Key) (hi : i ≤ sb.zoneBit z / BLOCK_BITS)
    (hn : sb.zoneBit z / BLOCK_BITS < i + n) :
    (allocLoop sb.zmap BLOCK_SIZE sb.zmapOffset sb.zones n i buf).run s =
      .ok ((some (sb.zoneKey z), z),
        s.putBit (sb.zoneKey z) (sb.zoneBit z % BLOCK_BITS) true) := by
  have hdiv := Nat.div_add_mod' (sb.zoneBit z) BLOCK_BITS
  have hmod := Nat.mod_lt (sb.zoneBit z) (show BLOCK_BITS > 0 by decide)
  induction n generalizing i buf with
  | zero => omega
  | succ n ih =>
    rcases Nat.eq_or_lt_of_le hi with e | hlt
    · have hlow : Lowest (s.view (sb.zoneKey z)) (sb.zoneBit z % BLOCK_BITS) := by
        refine ⟨hz.clear, fun j hj => ?_⟩
        rw [SuperBlock.zoneKey, ← SuperBlock.bitOf_block _ _ _ _ (Nat.lt_trans hj hmod)]
        exact hz.below _ (by omega)
      have hnum : sb.zoneBit z % BLOCK_BITS + sb.zmapOffset i = z := by
        have := hz.toZone.number hg
        have := hg.first
        rw [SuperBlock.zmapOffset_eq hg, e]
        omega
      have hmap : sb.zmap i = some (sb.zoneKey z) := by
        rw [e, SuperBlock.zmap_eq hz.loaded]
        rfl
      rw [allocLoop_found hmap hlow hmod (Nat.le_refl _), hnum, if_pos hz.lt]
    · have hfull : Full (s.view ⟨sb.dev, sb.zmapBase + i⟩) := fun j hj => by
        have hb : (i + 1) * BLOCK_BITS ≤ sb.zoneBit z / BLOCK_BITS * BLOCK_BITS :=
          Nat.mul_le_mul_right _ hlt
        rw [Nat.add_mul] at hb
        rw [← SuperBlock.bitOf_block _ _ _ _ hj]
        exact hz.below _ (by omega)
      rw [allocLoop_next (SuperBlock.zmap_eq (Nat.lt_trans hlt hz.loaded)) hfull]
      exact ih _ _ (by omega) (by omega)

/-- **`balloc`** answers the zone of the lowest clear bit, and sets that bit. -/
theorem balloc_run {i : Nat} (hi : s.tab.getSuper dev = some i)
    (hg : (s.tab.superTable i).Geometry) (hz : (s.tab.superTable i).LowestFree s.view z) :
    ∃ t, (balloc dev).run s = .ok (z, t) ∧ t.tab = s.tab ∧
      t.view = (s.tab.superTable i).setZone s.view z true := by
  have hloop := allocLoop_zone hg hz ZMAP_NR 0 none (Nat.zero_le _)
    (by have := hz.loaded; have := hg.zmapBlocks; omega)
  set sb := s.tab.superTable i
  set k := sb.zoneKey z
  obtain ⟨t, ht, hs⟩ := bwrite_run (s.putBit k (sb.zoneBit z % BLOCK_BITS) true) k
  refine ⟨t, ?_, hs.tab, hs.view.trans view_putBit⟩
  rw [balloc, run_then (run_superOf hi), run_then hloop, run_then rfl,
    run_then (by rw [within, run_mapLabel]; exact ht), run_pure]

/-! ## 3. Giving a zone back -/

/-- The bit of `z` is in the bitmap block that `bfree` picks. -/
def SuperBlock.Matches (sb : SuperBlock) (z : Nat) : Prop :=
  sb.zoneBit z % BLOCK_BITS + sb.firstdatazone ≤ BLOCK_BITS + 1

theorem SuperBlock.matches_iff (hg : sb.Geometry) (hz : sb.Zone z) :
    sb.Matches z ↔ (z - 1) / BLOCK_BITS = sb.zoneBit z / BLOCK_BITS := by
  have hnum := hz.number hg
  have hfirst := hg.first
  have hdiv := Nat.div_add_mod' (sb.zoneBit z) BLOCK_BITS
  have hmod := Nat.mod_lt (sb.zoneBit z) (show BLOCK_BITS > 0 by decide)
  unfold Matches
  generalize sb.zoneBit z = q at *
  unfold BLOCK_BITS BLOCK_SIZE at *
  omega

/-- Where `bfree` comes to its end, and what it does. -/
theorem bfree_run {i : Nat} (hi : s.tab.getSuper dev = some i)
    (hg : (s.tab.superTable i).Geometry) (hz : (s.tab.superTable i).Zone z)
    (hset : (s.tab.superTable i).zoneSet s.view z = true) :
    if (z - 1) / BLOCK_BITS = (s.tab.superTable i).zoneBit z / BLOCK_BITS then
      ∃ t, (bfree dev z).run s = .ok ((), t) ∧
        t.view = (s.tab.superTable i).setZone s.view z false
    else (bfree dev z).run s = .error .assertion := by
  set sb := s.tab.superTable i
  have hnum := hz.number hg
  have hfirst := hg.first
  have hdiv := Nat.div_add_mod' (sb.zoneBit z) BLOCK_BITS
  have hmod := Nat.mod_lt (sb.zoneBit z) (show BLOCK_BITS > 0 by decide)
  obtain ⟨m, hm⟩ : ∃ m, ZMAP_NR - (z - 1) / BLOCK_BITS = m + 1 := by
    refine Nat.exists_eq_succ_of_ne_zero ?_
    have := hz.lt
    have := hg.zones
    unfold BLOCK_BITS BLOCK_SIZE ZMAP_NR
    omega
  have hpick : (freeLoop sb.zmap BLOCK_SIZE sb.zmapOffset z ZMAP_NR 0).run s =
      (freeLoop sb.zmap BLOCK_SIZE sb.zmapOffset z (m + 1) ((z - 1) / BLOCK_BITS)).run s := by
    rw [freeLoop_pick rfl (by omega), hm]
  have hle : z ≤ BLOCK_BITS * ((z - 1) / BLOCK_BITS + 1) := by
    unfold BLOCK_BITS BLOCK_SIZE
    omega
  rw [bfree, run_then (run_superOf hi),
    run_then (by rw [run_assert, if_pos (decide_eq_true hz.lt)])]
  by_cases h : (z - 1) / BLOCK_BITS = sb.zoneBit z / BLOCK_BITS
  · rw [if_pos h]
    have hloop := hpick.trans (freeLoop_clears (p := sb.zoneBit z % BLOCK_BITS)
      (k := sb.zoneKey z) hle ?_ ?_ hmod (Nat.le_refl _) hset)
    · obtain ⟨t, ht, hs⟩ := bwrite_run
        (s.putBit (sb.zoneKey z) (sb.zoneBit z % BLOCK_BITS) false) (sb.zoneKey z)
      refine ⟨t, ?_, hs.view.trans view_putBit⟩
      rw [run_then hloop, within, run_mapLabel]
      exact ht
    · rw [h]
      exact SuperBlock.zmap_eq hz.loaded
    · rw [h, SuperBlock.zmapOffset_eq hg]
      omega
  · rw [if_neg h]
    refine run_stopped (hpick.trans (freeLoop_before hle ?_))
    rw [SuperBlock.zmapOffset_eq hg]
    unfold BLOCK_BITS BLOCK_SIZE at *
    omega

/-- `bfree` clears the bit that `balloc` has set for `z`, and nothing else, in every later state in
    which it is still set; at once, it restores what all blocks show. -/
structure Undone (sb : SuperBlock) (dev : Int) (s t : Kernel) (z : Nat) : Prop where
  later : ∀ u : Kernel, u.tab = s.tab → sb.zoneSet u.view z = true →
    ∃ u', (bfree dev z).run u = .ok ((), u') ∧ u'.view = sb.setZone u.view z false
  atOnce : ∃ t', (bfree dev z).run t = .ok ((), t') ∧ t'.view = s.view

theorem zoneSet_setZone {w : View} {b : Bool} : sb.zoneSet (sb.setZone w z b) z = b := by
  rw [SuperBlock.zoneSet, SuperBlock.setZone, bitOf_withBit, if_pos rfl]

theorem undone_of_matches {i : Nat} {t : Kernel} (hi : s.tab.getSuper dev = some i)
    (hg : (s.tab.superTable i).Geometry) (hz : (s.tab.superTable i).FreeZone s.view z)
    (ht : t.tab = s.tab) (hv : t.view = (s.tab.superTable i).setZone s.view z true)
    (h : (s.tab.superTable i).Matches z) : Undone (s.tab.superTable i) dev s t z := by
  have hlater : ∀ u : Kernel, u.tab = s.tab → (s.tab.superTable i).zoneSet u.view z = true →
      ∃ u', (bfree dev z).run u = .ok ((), u') ∧
        u'.view = (s.tab.superTable i).setZone u.view z false := by
    intro u hu hset
    rw [← hu] at hi hg hz h hset ⊢
    have := bfree_run hi hg hz.toZone hset
    rwa [if_pos ((SuperBlock.matches_iff hg hz.toZone).mp h)] at this
  refine ⟨hlater, ?_⟩
  obtain ⟨t', hr, hv'⟩ := hlater t ht (by rw [hv, zoneSet_setZone])
  refine ⟨t', hr, ?_⟩
  rw [hv', hv]
  exact withBit_undo hz.clear

/-- Elsewhere the freeing call stops. -/
theorem bfree_stops {i : Nat} {t : Kernel} (hi : s.tab.getSuper dev = some i)
    (hg : (s.tab.superTable i).Geometry) (hz : (s.tab.superTable i).FreeZone s.view z)
    (ht : t.tab = s.tab) (hv : t.view = (s.tab.superTable i).setZone s.view z true)
    (h : ¬ (s.tab.superTable i).Matches z) : (bfree dev z).run t = .error .assertion := by
  have hset : (s.tab.superTable i).zoneSet t.view z = true := by rw [hv, zoneSet_setZone]
  rw [← ht] at hi hg hz h hset
  have := bfree_run hi hg hz.toZone hset
  rwa [if_neg (mt (SuperBlock.matches_iff hg hz.toZone).mpr h)] at this

end Zones

/-- **`bfree` takes back what `balloc` gave** exactly where the bit is in the block of the bitmap
    that `bfree` picks. -/
theorem bfree_undoes_balloc {s : Kernel} {dev : Int} {i : Nat} (hi : s.tab.getSuper dev = some i)
    (hg : (s.tab.superTable i).Geometry) (hfree : ∃ z, (s.tab.superTable i).FreeZone s.view z) :
    ∃ z t, (s.tab.superTable i).LowestFree s.view z ∧ (balloc dev).run s = .ok (z, t) ∧
      t.view = (s.tab.superTable i).setZone s.view z true ∧
      (Undone (s.tab.superTable i) dev s t z ↔ (s.tab.superTable i).Matches z) := by
  obtain ⟨z, hz⟩ := SuperBlock.exists_lowestFree hg hfree
  obtain ⟨t, hr, ht, hv⟩ := balloc_run hi hg hz
  refine ⟨z, t, hz, hr, hv, fun h => ?_, undone_of_matches hi hg hz.toFreeZone ht hv⟩
  by_contra hn
  obtain ⟨t', hb, -⟩ := h.atOnce
  rw [bfree_stops hi hg hz.toFreeZone ht hv hn] at hb
  cases hb

theorem bfree_undoes_balloc_fresh : ∃ z t, Sample.superBlock.LowestFree Sample.fresh.view z ∧
    (balloc Sample.dev).run Sample.fresh = .ok (z, t) ∧
    t.view = Sample.superBlock.setZone Sample.fresh.view z true ∧
    (Undone Sample.superBlock Sample.dev Sample.fresh t z ↔ Sample.superBlock.Matches z) :=
  bfree_undoes_balloc (s := Sample.fresh) (i := 0) rfl ⟨by decide, by decide, by decide⟩
    ⟨6, ⟨by decide, by decide, by decide⟩, by decide⟩

/-! ### A volume with two blocks of zone bitmap -/

namespace Sample

/-- 9000 blocks and 3040 inodes: the data begins with block 100. -/
def largeBlock : SuperBlock :=
  { superBlock with inodes := 3040, zones := 9000, zmapBlocks := 2, firstdatazone := 100 }

/-- The first 8094 bits are set. -/
def ones (j : Nat) : UInt8 := if j < 1011 then 255 else if j = 1011 then 63 else 0

/-- All zones up to 8192 are in use. -/
def large : Kernel :=
  { fresh with
    cache := { disk := fun k => if k = ⟨dev, 3⟩ then ones else fun _ => 0, buf := fresh.cache.buf }
    tab := { fresh.tab with superTable := fun i => if i = 0 then largeBlock else superTable i } }

theorem getBit_ones {q : Nat} (h : q < 8094) : getBit ones q = true := by
  have h255 : ∀ k < 8, (255 : UInt8).toNat.testBit k = true := by decide
  have h63 : ∀ k < 6, (63 : UInt8).toNat.testBit k = true := by decide
  unfold getBit ones
  by_cases h1 : q / 8 < 1011
  · rw [if_pos h1]
    exact h255 _ (Nat.mod_lt _ (by decide))
  · rw [if_neg h1, if_pos (by omega)]
    exact h63 _ (by omega)

theorem large_lowestFree : largeBlock.LowestFree large.view 8193 := by
  refine ⟨⟨⟨by decide, by decide, by decide⟩, by decide⟩, fun q hq => ?_⟩
  have hq : q < 8094 := hq
  have hdiv : q / BLOCK_BITS = 0 := Nat.div_eq_of_lt (Nat.lt_trans hq (by decide))
  have hmod : q % BLOCK_BITS = q := Nat.mod_eq_of_lt (Nat.lt_trans hq (by decide))
  rw [bitOf, hdiv, hmod]
  exact getBit_ones hq

theorem largeBlock_geometry : largeBlock.Geometry := ⟨by decide, by decide, by decide⟩

end Sample

/-- Zone 8193 has its bit in the bitmap's first block, and `bfree` looks in the second. -/
theorem bfree_undoes_balloc_not_always : ¬ ∀ (s : Kernel) (dev : Int) (i : Nat),
    s.tab.getSuper dev = some i → (s.tab.superTable i).Geometry →
    (∃ z, (s.tab.superTable i).FreeZone s.view z) →
    ∃ z t, (s.tab.superTable i).LowestFree s.view z ∧ (balloc dev).run s = .ok (z, t) ∧
      t.view = (s.tab.superTable i).setZone s.view z true ∧
      Undone (s.tab.superTable i) dev s t z := by
  intro h
  have hlow := Sample.large_lowestFree
  have hgeo := Sample.largeBlock_geometry
  have hdev : Sample.large.tab.getSuper Sample.dev = some 0 := rfl
  obtain ⟨z, t, -, hr, -, hu⟩ := h Sample.large Sample.dev 0 hdev hgeo ⟨_, hlow.toFreeZone⟩
  obtain ⟨t', hr', ht, hv⟩ := balloc_run (s := Sample.large) (i := 0) hdev hgeo hlow
  cases hr.symm.trans hr'
  obtain ⟨t'', hb, -⟩ := hu.atOnce
  have hstop := bfree_stops (s := Sample.large) (i := 0) hdev hgeo hlow.toFreeZone ht hv
    (show ¬ Sample.largeBlock.Matches 8193 by unfold SuperBlock.Matches; decide)
  rw [hstop] at hb
  cases hb

end Yuios
