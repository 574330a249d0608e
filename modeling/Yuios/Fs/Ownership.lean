/-
  File:      Yuios/Fs/Ownership.lean
  Subject:   WHO OWNS A ZONE: what `bmap`, `inode_write` and `inode_truncate` do to a consistent
             volume.

  First what a change of the view does: a slot filled with a zone that was free, data written, a
  descriptor's head written, a slot cut off after the zones below it were freed. Then the same for
  the calls, under two conditions where they wait for the disk (`Fresh`, `Served`).
-/
import Yuios.Fs.Volume

namespace Yuios

open Lib Prog Code

namespace Volume

variable {v : Volume} {w w' : View}

/-! ## 1. Growth -/

/-- The volume is consistent, and has the files and the slots it had. -/
structure Extends (v : Volume) (w w' : View) : Prop where
  consistent : v.Consistent w'
  owns : ∀ {nr}, v.Owns w nr → v.Owns w' nr
  slot : ∀ {l p}, (v.forest w).Slot l p → (v.forest w').Slot l p
  val : ∀ {l p z}, (v.forest w).Slot l p → (v.forest w).val p = some z →
    (v.forest w').val p = some z

theorem Extends.refl (h : v.Consistent w) : v.Extends w w :=
  ⟨h, fun ho => ho, fun hp => hp, fun _ hv => hv⟩

theorem Extends.trans {w'' : View} (h : v.Extends w w') (h' : v.Extends w' w'') :
    v.Extends w w'' where
  consistent := h'.consistent
  owns ho := h'.owns (h.owns ho)
  slot hp := h'.slot (h.slot hp)
  val hp hv := h'.val (h.slot hp) (h.val hp hv)

/-- Changes the block maps do not see. -/
theorem Extends.of_congr (h : v.Consistent w) (howns : ∀ nr, v.Owns w' nr ↔ v.Owns w nr)
    (hword : ∀ l p, (v.forest w).Slot l p → word w' p = word w p)
    (hbit : ∀ z, v.firstdatazone ≤ z + 1 → z < v.zones → v.zoneSet w z = true →
      v.zoneSet w' z = true) : v.Extends w w' where
  consistent := h.congr (fun nr => (howns nr).mp) hword hbit
  owns ho := (howns _).mpr ho
  slot hp := by
    refine Forest.Slot.mono ?_ ?_ (fun l p z hp hv => ?_) hp
    · rintro l q ⟨nr, i, ho, hi⟩
      exact ⟨nr, i, (howns nr).mpr ho, hi⟩
    · exact fun _ _ hi => hi
    · rw [val_congr (hword l p hp), hv]
  val hp hv := by rw [val_congr (hword _ _ hp), hv]

/-- **Data is written** to the block of a data zone. -/
theorem Extends.of_data (h : v.Consistent w) {p : Place} {z : Nat} (hp : (v.forest w).Slot 0 p)
    (hv : (v.forest w).val p = some z) (hw : ∀ k : Key, k ≠ ⟨v.dev, z⟩ → w' k = w k) :
    v.Extends w w' := by
  have hz := (h.owned.used hp hv).first
  have hroom := v.room
  have hlow : ∀ k : Key, k.block < v.firstdatazone → w' k = w k := fun k hk =>
    hw k fun e => by rw [e] at hk; exact Nat.not_lt.mpr hz hk
  refine .of_congr h (fun nr => ?_) (fun l q hq => word_congr (hw _ (data_ne_slot h hp hv hq)))
    fun y h1 h2 => (zoneSet_congr h2 h1 fun k _ hk => hlow k (by omega)).trans
  have hset : nr < v.inodes → v.inodeSet w' nr = v.inodeSet w nr := fun hnr =>
    inodeSet_congr hnr fun k hk => hlow k (by omega)
  have hmode : 0 < nr → nr < v.inodes → v.desc w' nr .mode = v.desc w nr .mode := fun h1 h2 =>
    desc_congr (hlow _ (inodeKey_block h1 h2).2)
  constructor
  · intro ho
    exact ho.congr (hset ho.lt) (hmode ho.pos ho.lt)
  · intro ho
    exact ho.congr (hset ho.lt).symm (hmode ho.pos ho.lt).symm

/-- A slot is no part of a descriptor's head. -/
theorem word_of_head (h : v.Consistent w) {nr : Nat} (hpos : 0 < nr) (hlt : nr < v.inodes)
    (hk : ∀ k : Key, k ≠ v.inodeKey nr → w' k = w k)
    (hb : ∀ o, o < descOff nr + 2 ∨ descOff nr + 14 ≤ o →
      w' (v.inodeKey nr) o = w (v.inodeKey nr) o) {l : Nat} {p : Place} (hp : (v.forest w).Slot l p) :
    word w' p = word w p := by
  have hhigh := (inodeKey_block hpos hlt).2
  by_cases e : p.1 = v.inodeKey nr
  · unfold word
    rw [e]
    refine fetch_congr fun o h1 h2 => hb o ?_
    rcases slot_cases h hp with ⟨nr', i, ho, hi, -, rfl⟩ | ⟨q, z, j, -, -, hz, -, rfl⟩
    · unfold zonePlace descOff Field.zone at *
      dsimp only at *
      omega
    · have := congrArg Key.block e
      have := hz.first
      unfold indexPlace at *
      dsimp only at *
      omega
  · exact word_congr (hk _ e)

/-- **A descriptor's head is written**, behind the mode and before `zone[]`. -/
theorem Extends.of_head (h : v.Consistent w) {nr : Nat} (hpos : 0 < nr) (hlt : nr < v.inodes)
    (hk : ∀ k : Key, k ≠ v.inodeKey nr → w' k = w k)
    (hb : ∀ o, o < descOff nr + 2 ∨ descOff nr + 14 ≤ o →
      w' (v.inodeKey nr) o = w (v.inodeKey nr) o) : v.Extends w w' := by
  obtain ⟨hlow, hhigh⟩ := inodeKey_block hpos hlt
  have hmap : ∀ k : Key, k.block < 2 + v.imapBlocks + v.zmapBlocks → w' k = w k := fun k hk' =>
    hk k fun e => by rw [e] at hk'; exact Nat.not_lt.mpr hlow hk'
  have hword : ∀ l p, (v.forest w).Slot l p → word w' p = word w p := fun l p hp =>
    word_of_head h hpos hlt hk hb hp
  refine .of_congr h (fun nr' => ?_) hword
    fun y h1 h2 => (zoneSet_congr h2 h1 fun k _ hk' => hmap k (by omega)).trans
  have hset : nr' < v.inodes → v.inodeSet w' nr' = v.inodeSet w nr' := fun hnr =>
    inodeSet_congr hnr fun k hk' => hmap k (by omega)
  have hmode : v.desc w' nr' .mode = v.desc w nr' .mode := by
    by_cases e : v.inodeKey nr' = v.inodeKey nr
    · unfold desc
      rw [e]
      refine fetch_congr fun o h1 h2 => hb o ?_
      unfold descOff Field.mode at *
      dsimp only at *
      omega
    · exact desc_congr (hk _ e)
  constructor
  · intro ho
    exact ho.congr (hset ho.lt) hmode
  · intro ho
    exact ho.congr (hset ho.lt).symm hmode.symm

/-! ## 2. A slot is filled -/

/-- **The volume has grown**: besides, the data zones have the data they had, and the inodes and
    the heads of their descriptors are the same. -/
structure Grows (v : Volume) (w w' : View) : Prop extends Extends v w w' where
  data : ∀ {p z}, (v.forest w).Slot 0 p → (v.forest w).val p = some z →
    w' ⟨v.dev, z⟩ = w ⟨v.dev, z⟩
  inode : ∀ {nr}, nr < v.inodes → v.inodeSet w' nr = v.inodeSet w nr
  head : ∀ {nr} {f : Field}, 0 < nr → nr < v.inodes → f.off + f.width ≤ 14 →
    v.desc w' nr f = v.desc w nr f

theorem Grows.refl (h : v.Consistent w) : v.Grows w w :=
  ⟨.refl h, fun _ _ => rfl, fun _ => rfl, fun _ _ _ => rfl⟩

theorem Grows.trans {w'' : View} (h : v.Grows w w') (h' : v.Grows w' w'') : v.Grows w w'' where
  toExtends := h.toExtends.trans h'.toExtends
  data hp hv := (h'.data (h.slot hp) (h.val hp hv)).trans (h.data hp hv)
  inode hnr := (h'.inode hnr).trans (h.inode hnr)
  head hpos hlt hf := (h'.head hpos hlt hf).trans (h.head hpos hlt hf)

/-- Marking a zone touches no descriptor. -/
theorem desc_setZone {z nr : Nat} {b : Bool} {f : Field} (hlt : z < v.zones)
    (hz : v.firstdatazone ≤ z + 1) :
    v.desc (v.setZone w z b) nr f = v.desc w nr f := by
  exact desc_congr (setZone_of_ne hlt hz (.inr (Nat.le_add_right ..)))

section Mark

variable {z : Nat}

theorem owns_setZone (hz : v.firstdatazone ≤ z + 1) (hlt : z < v.zones) {nr : Nat} {b : Bool} :
    v.Owns (v.setZone w z b) nr ↔ v.Owns w nr := by
  have hset : nr < v.inodes → v.inodeSet (v.setZone w z b) nr = v.inodeSet w nr := fun hnr =>
    inodeSet_congr hnr fun k hk => setZone_of_ne hlt hz (.inl (by omega))
  constructor
  · intro ho
    exact ho.congr (hset ho.lt) (desc_setZone hlt hz)
  · intro ho
    exact ho.congr (hset ho.lt).symm (desc_setZone hlt hz).symm

theorem word_setZone (h : v.Consistent w) (hz : v.firstdatazone ≤ z + 1) (hlt : z < v.zones)
    {l : Nat} {p : Place} {b : Bool} (hp : (v.forest w).Slot l p) :
    word (v.setZone w z b) p = word w p :=
  word_congr (setZone_of_ne hlt hz (.inr (slot_place h hp).1))

/-- **A zone is marked.** -/
theorem Grows.mark (h : v.Consistent w) (hz : v.firstdatazone ≤ z + 1) (hlt : z < v.zones) :
    v.Grows w (v.setZone w z true) := by
  refine ⟨.of_congr h (fun nr => owns_setZone hz hlt) (fun l p hp => word_setZone h hz hlt hp)
    fun y h1 _ hy => ?_, fun {p y} hp hv => ?_, fun hnr => ?_, fun _ _ _ => desc_setZone hlt hz⟩
  · rw [zoneSet_setZone hz h1, hy]
    exact ite_self _
  · have := (h.owned.used hp hv).first
    have := v.room
    exact setZone_of_ne hlt hz (.inr (by dsimp only; omega))
  · exact inodeSet_congr hnr fun k hk => setZone_of_ne hlt hz (.inl (by omega))

/-- Marking names no zone. -/
theorem mark_val (h : v.Consistent w) (hz : v.firstdatazone ≤ z + 1) (hlt : z < v.zones)
    {m y : Nat} {q : Place} (hq : (v.forest (v.setZone w z true)).Slot m q)
    (hv : (v.forest (v.setZone w z true)).val q = some y) :
    (v.forest w).Slot m q ∧ (v.forest w).val q = some y := by
  have hq' : (v.forest w).Slot m q := by
    refine Forest.Slot.of_congr ?_ ?_ (fun l p hp => val_congr (word_setZone h hz hlt hp)) hq
    · rintro l p ⟨nr, i, ho, hi⟩
      exact ⟨nr, i, (owns_setZone hz hlt).mp ho, hi⟩
    · exact fun _ _ hi => hi
  exact ⟨hq', (val_congr (word_setZone h hz hlt hq')).symm.trans hv⟩

end Mark

/-- A zone that has been marked for a slot and is not named yet; for an index block its block is
    blank. -/
structure Spare (v : Volume) (w : View) (l z : Nat) : Prop extends Used v w z where
  unnamed : v.Unnamed w z
  blank : 0 < l → ∀ j < BLOCK_INDEXES, word w (v.indexPlace z j) = 0

/-- A free zone that has been marked is spare. -/
theorem spare_of_mark (h : v.Consistent w) {l z : Nat} (hz : v.firstdatazone ≤ z + 1)
    (hlt : z < v.zones) (hfree : v.zoneSet w z = false)
    (hblank : 0 < l → ∀ j < BLOCK_INDEXES, word (v.setZone w z true) (v.indexPlace z j) = 0) :
    v.Spare (v.setZone w z true) l z := by
  have hne : z ≠ v.firstdatazone - 1 := fun e => by
    rw [e, h.reserved] at hfree
    cases hfree
  refine ⟨⟨by omega, hlt, ?_⟩, fun m q hq hv => ?_, hblank⟩
  · rw [zoneSet_setZone hz hz, if_pos rfl]
  · obtain ⟨hq', hv'⟩ := mark_val h hz hlt hq hv
    exact unnamed_of_free h hfree m q hq' hv'

section Fill

variable {l z : Nat} {p : Place}

theorem zoneSet_putWord (h : v.Consistent w) (hp : (v.forest w).Slot l p) {n y : Nat}
    (h1 : v.firstdatazone ≤ y + 1) (h2 : y < v.zones) :
    v.zoneSet (putWord w p n) y = v.zoneSet w y :=
  zoneSet_congr h2 h1 fun k _ hk => putWord_of_ne fun e => by
    have := (slot_place h hp).1
    rw [e] at hk
    omega

theorem owns_putWord (h : v.Consistent w) (hp : (v.forest w).Slot l p) {n nr : Nat} :
    v.Owns (putWord w p n) nr ↔ v.Owns w nr := by
  have hset : nr < v.inodes → v.inodeSet (putWord w p n) nr = v.inodeSet w nr := fun hnr =>
    inodeSet_congr hnr fun k hk => putWord_of_ne fun e => by
      have := (slot_place h hp).1
      rw [e] at hk
      omega
  constructor
  · intro ho
    exact ho.congr (hset ho.lt) (desc_putWord h hp ho.pos ho.lt (by decide) w)
  · intro ho
    exact ho.congr (hset ho.lt).symm (desc_putWord h hp ho.pos ho.lt (by decide) w).symm

theorem filled (h : v.Consistent w) (hp : (v.forest w).Slot l p) (hempty : word w p = 0)
    (hz : v.Spare w l z) :
    (v.forest w).Filled (v.forest (putWord w p z)) (v.firstdatazone ≤ ·)
      (fun y => v.Used w y ∧ y ≠ z) l p z := by
  have hroom := v.room
  have hsmall := v.small
  have hfirst := hz.first
  have hlt := hz.lt
  refine ⟨?_, fun _ _ hi => hi, hp, val_none.mpr hempty, val_eq.mpr ⟨?_, by omega⟩, ?_, hz.first,
    fun hu => hu.2 rfl, ?_⟩
  · rintro l q ⟨nr, i, ho, hi⟩
    exact ⟨nr, i, (owns_putWord h hp).mp ho, hi⟩
  · exact word_putWord_self (by omega)
  · intro l q hq hne
    exact val_congr (word_putWord_of_ne (slot_place h hp).2 (slot_place h hq).2 hne)
  · rintro hl q ⟨j, hj, rfl⟩
    have hne : v.indexPlace z j ≠ p := fun e =>
      unnamed_ne_slot h hp hz.first hz.unnamed (congrArg Prod.fst e).symm
    refine val_none.mpr ((word_putWord_of_ne (slot_place h hp).2 ?_ hne).trans (hz.blank hl j hj))
    exact Nat.mul_mod_right 2 j

/-- **A slot is filled** with a zone that has been marked for it. -/
theorem Grows.fill (h : v.Consistent w) (hp : (v.forest w).Slot l p) (hempty : word w p = 0)
    (hz : v.Spare w l z) :
    v.Grows w (putWord w p z) ∧ (v.forest (putWord w p z)).val p = some z := by
  have hf := filled h hp hempty hz
  have hkeep : ∀ l q y, (v.forest w).Slot l q → (v.forest w).val q = some y →
      (v.forest (putWord w p z)).val q = some y := fun l q y hq hv => by
    have hne : q ≠ p := fun e => by
      rw [e, hf.empty] at hv
      cases hv
    rw [hf.other l q hq hne, hv]
  have hused : ∀ y, v.Used w y → v.Used (putWord w p z) y := fun y hy =>
    ⟨hy.first, hy.lt, (zoneSet_putWord h hp (Nat.le_succ_of_le hy.first) hy.lt).trans hy.set⟩
  refine ⟨⟨⟨⟨?_, ?_⟩, (owns_putWord h hp).mpr, ?_, hkeep _ _ _⟩, ?_, ?_, ?_⟩, hf.full⟩
  · exact (h.owned.without hz.unnamed).fill (forest_laid v w) (fun y hy => hy.1.first) hf
      (hused z hz.toUsed) fun y hy => hused y hy.1
  · have := v.data
    exact (zoneSet_putWord h hp (by omega) (by omega)).trans h.reserved
  · refine fun hq => Forest.Slot.mono ?_ ?_ hkeep hq
    · rintro l q ⟨nr, i, ho, hi⟩
      exact ⟨nr, i, (owns_putWord h hp).mpr ho, hi⟩
    · exact fun _ _ hi => hi
  · exact fun hq hv => putWord_of_ne (data_ne_slot h hq hv hp).symm
  · refine fun hnr => inodeSet_congr hnr fun k hk => putWord_of_ne fun e => ?_
    have := (slot_place h hp).1
    rw [e] at hk
    omega
  · exact fun hpos hnr hf => desc_putWord h hp hpos hnr hf w

/-- What slots name after that: the new zone from the filled slot, and what was named before. -/
theorem fill_val (h : v.Consistent w) (hp : (v.forest w).Slot l p) (hempty : word w p = 0)
    (hz : v.Spare w l z) {m y : Nat} {q : Place} (hq : (v.forest (putWord w p z)).Slot m q)
    (hv : (v.forest (putWord w p z)).val q = some y) :
    (q = p ∧ y = z) ∨ ((v.forest w).Slot m q ∧ (v.forest w).val q = some y) := by
  rcases (filled h hp hempty hz).val_cases (h.owned.without hz.unnamed) (forest_laid v w)
    (fun y hy => hy.1.first) hq hv with ⟨e, -, e'⟩ | ⟨hq', hv', -⟩
  · exact .inl ⟨e, e'⟩
  · exact .inr ⟨hq', hv'⟩

end Fill

/-! ## 3. `balloc` and `bfree` -/

/-- The super block in memory is this volume's. -/
def Mounted (v : Volume) (t : Tables) : Prop :=
  ∀ i, t.getSuper v.dev = some i → v.Describes (t.superTable i)

theorem runs_superOf_mounted {C : List Frame → Kernel → Prop} {s t : Kernel} {sb : SuperBlock}
    (hm : v.Mounted s.tab) (h : Runs C (superOf v.dev) s sb t) : v.Describes sb ∧ s = t := by
  obtain ⟨⟨i, hi, rfl⟩, rfl⟩ := runs_superOf.mp h
  exact ⟨hm i hi, rfl⟩

/-- Bit `p` of the zone bitmap's block `j` is the bit of the zone it is numbered with. -/
theorem Describes.putBit {sb : SuperBlock} (hd : v.Describes sb) {s : Kernel} {k : Key}
    {j p z : Nat} {b : Bool} (hk : sb.zmap j = some k) (hz : z = p + sb.zmapOffset j)
    (hp : p < BLOCK_BITS) :
    v.firstdatazone ≤ z + 1 ∧ (s.putBit k p b).view = v.setZone s.view z b ∧
      getBit (s.view k) p = v.zoneSet s.view z := by
  have hpos := firstdatazone_pos v
  unfold SuperBlock.zmapOffset at hz
  rw [hd.firstdatazone] at hz
  have hbit : v.zoneBit z = p + j * BLOCK_BITS := by
    unfold zoneBit
    omega
  have hdiv : v.zoneBit z / BLOCK_BITS = j := by
    rw [hbit, Nat.add_mul_div_right _ _ (by decide), Nat.div_eq_of_lt hp, Nat.zero_add]
  have hmod : v.zoneBit z % BLOCK_BITS = p := by
    rw [hbit, Nat.add_mul_mod_self_right, Nat.mod_eq_of_lt hp]
  have hkey : k = ⟨v.dev, 2 + v.imapBlocks + v.zoneBit z / BLOCK_BITS⟩ := by
    unfold SuperBlock.zmap at hk
    split at hk
    next =>
      cases hk
      rw [hdiv, hd.dev, hd.imapBlocks]
    next => cases hk
  refine ⟨by omega, ?_, ?_⟩
  · funext k'
    show (s.putBit k p b).cache.view k' = _
    rw [Kernel.putBit, (mark_same _ _).view]
    show (s.poke k _).view k' = _
    rw [Kernel.view_poke, setZone, withBit, ← hkey, hmod]
    by_cases e : k' = k
    · rw [if_pos e, e, Function.update_self]
    · rw [if_neg e, Function.update_of_ne e]
  · rw [zoneSet, bitOf, hmod, ← hkey]

/-- **`balloc`** marks a free zone, or finds none. -/
theorem balloc_view {C : List Frame → Kernel → Prop} {s t : Kernel} {bit : Nat}
    (hm : v.Mounted s.tab) (h : Runs C (balloc v.dev) s bit t) : t.tab = s.tab ∧
      ((bit = EOF ∧ t.view = s.view) ∨
        (v.firstdatazone ≤ bit + 1 ∧ bit < v.zones ∧ v.zoneSet s.view bit = false ∧
          t.view = v.setZone s.view bit true ∧
          ∃ k u, u.view = t.view ∧ C [.bwrite k, .balloc v.dev bit] u)) := by
  obtain ⟨sb, s₁, h₁, h⟩ := runs_bind.mp h
  obtain ⟨hd, rfl⟩ := runs_superOf_mounted hm h₁
  obtain ⟨⟨o, bit'⟩, s₂, h₂, h⟩ := runs_bind.mp h
  obtain ⟨k, s₃, h₃, h⟩ := runs_bind.mp h
  rw [runs_need] at h₃
  obtain ⟨ho, rfl⟩ := h₃
  obtain ⟨_, s₄, h₄, hr⟩ := runs_bind.mp h
  obtain ⟨rfl, rfl⟩ := hr
  rw [runs_within] at h₄
  have hs := bwrite_same k _ _ _ h₄.ends
  rcases allocLoop_spec h₂ with ⟨rfl, rfl, -⟩ | ⟨k', j, p, ho', ht, rfl⟩
  · exact ⟨hs.tab, .inl ⟨rfl, hs.view⟩⟩
  · cases ho.symm.trans ho'
    obtain ⟨hlow, hview, hget⟩ := hd.putBit (s := s) (b := true) ht.map ht.number ht.inBlock
    refine ⟨hs.tab, .inr ⟨hlow, hd.zones ▸ ht.below, hget ▸ ht.clear, ?_, ?_⟩⟩
    · exact Eq.trans (show _ = (s.putBit k p true).view from hs.view) hview
    · have hw := bwrite_dirty h₄ (mark_dirty _ _)
      exact ⟨k, _, view_flush.trans hs.view.symm, hw.1⟩

/-- **`bfree`** clears the bit of a marked zone. -/
theorem bfree_view {C : List Frame → Kernel → Prop} {s t : Kernel} {z : Nat} {u : Unit}
    (hm : v.Mounted s.tab) (h : Runs C (bfree v.dev z) s u t) :
    t.tab = s.tab ∧ v.firstdatazone ≤ z + 1 ∧ z < v.zones ∧ t.view = v.setZone s.view z false := by
  obtain ⟨sb, s₁, h₁, h⟩ := runs_bind.mp h
  obtain ⟨hd, rfl⟩ := runs_superOf_mounted hm h₁
  obtain ⟨_, s₂, h₂, h⟩ := runs_bind.mp h
  rw [runs_assert] at h₂
  obtain ⟨hlt, rfl⟩ := h₂
  obtain ⟨k, s₃, h₃, h⟩ := runs_bind.mp h
  have hs := bwrite_same k _ _ _ (runs_within.mp h).ends
  obtain ⟨j, p, hk, hz, hp, -, rfl⟩ := freeLoop_spec h₃
  obtain ⟨hlow, hview, -⟩ := hd.putBit (s := s) (b := false) hk hz hp
  have hlt := of_decide_eq_true hlt
  refine ⟨hs.tab, hlow, hd.zones ▸ hlt, ?_⟩
  exact Eq.trans (show _ = (s.putBit k p false).view from hs.view) hview

/-! ## 4. The slot of a block -/

/-- `block` is a number below a slot at `level`, and `divider` what the loop divides it by. -/
def Walk (level block divider : Nat) : Prop :=
  level = 0 ∨ ∃ l, level = l + 1 ∧ block < BLOCK_INDEXES ^ level ∧ divider = BLOCK_INDEXES ^ l

theorem Walk.next {l block divider : Nat} (h : Walk (l + 1) block divider) :
    divider = BLOCK_INDEXES ^ l ∧ Walk l (block % divider) (divider / BLOCK_INDEXES) := by
  rcases h with h | ⟨l', h, hb, hd⟩
  · cases h
  · cases h
    have hpos : 0 < BLOCK_INDEXES ^ l := Nat.pow_pos (by decide)
    rw [hd]
    refine ⟨rfl, ?_⟩
    cases l with
    | zero => exact .inl rfl
    | succ l =>
      refine .inr ⟨l, rfl, Nat.mod_lt _ hpos, ?_⟩
      rw [Nat.pow_succ]
      exact Nat.mul_div_cancel _ (by decide)

/-- Where the walk starts. -/
theorem walk_start {b l i r d : Nat} (h : BmapStart b l i r d) :
    i < 9 ∧ l = zoneLevel i ∧ Walk l r d := by
  cases h with
  | direct hd =>
    have h7 : b < 7 := hd
    exact ⟨by omega, (if_pos hd).symm, .inl rfl⟩
  | single _ hd => exact ⟨by decide, rfl, .inr ⟨0, rfl, hd, rfl⟩⟩
  | double hd hd' =>
    refine ⟨by decide, rfl, .inr ⟨1, rfl, ?_, rfl⟩⟩
    have h1 : 7 + 512 ≤ b := hd
    have h2 : b < 7 + 512 + 512 * 512 := hd'
    show b - 7 - 512 < 512 ^ 2
    omega

/-- The walk for block `b` of inode `nr` comes to the slot `p`, `l` levels above the data; `r` is
    the number of the block below that slot. -/
inductive Leads (v : Volume) (w : View) (nr b : Nat) : Nat → Place → Nat → Prop where
  | start {l i r d : Nat} (h : BmapStart b l i r d) : Leads v w nr b l (v.zonePlace nr i) r
  | next {l r z : Nat} {p : Place} (h : Leads v w nr b (l + 1) p r)
      (hv : (v.forest w).val p = some z) :
      Leads v w nr b l (v.indexPlace z (r / BLOCK_INDEXES ^ l)) (r % BLOCK_INDEXES ^ l)

/-- Zone `z` is block `b` of inode `nr`. -/
def BlockZone (v : Volume) (w : View) (nr b z : Nat) : Prop :=
  ∃ p r, v.Leads w nr b 0 p r ∧ (v.forest w).val p = some z

section Leads

variable {nr nr' b b' l r : Nat} {p : Place}

theorem Leads.lt (h : v.Leads w nr b l p r) : l = 0 ∨ r < BLOCK_INDEXES ^ l := by
  cases h with
  | start hs => exact (walk_start hs).2.2.imp id fun ⟨_, _, hr, _⟩ => hr
  | next hp hv => exact .inr (Nat.mod_lt _ (Nat.pow_pos (by decide)))

theorem Leads.slot (h : v.Leads w nr b l p r) (ho : v.Owns w nr) : (v.forest w).Slot l p := by
  induction h with
  | start hs => exact .root ⟨nr, _, ho, (walk_start hs).1, (walk_start hs).2.1, rfl⟩
  | next hp hv ih =>
    refine .inside ih hv ⟨_, Nat.div_lt_of_lt_mul ?_, rfl⟩
    rcases hp.lt with h0 | hlt
    · cases h0
    · rwa [Nat.pow_succ] at hlt

theorem Leads.extend (h : v.Leads w nr b l p r) (ho : v.Owns w nr) (hx : v.Extends w w') :
    v.Leads w' nr b l p r := by
  induction h with
  | start hs => exact .start hs
  | next hp hv ih => exact .next ih (hx.val (hp.slot ho) hv)

theorem BlockZone.extend {z : Nat} (h : v.BlockZone w nr b z) (ho : v.Owns w nr)
    (hx : v.Extends w w') : v.BlockZone w' nr b z := by
  obtain ⟨p, r, hl, hv⟩ := h
  exact ⟨p, r, hl.extend ho hx, hx.val (hl.slot ho) hv⟩

end Leads

/-! ## 5. `bmap` -/

/-- `balloc` has found a zone: it does not wait with `EOF`, and a slot that `bmap` has filled does
    not hold `EOF`. -/
def Served : List Frame → Kernel → Prop
  | .bwrite _ :: .balloc _ bit :: _, _ => bit ≠ EOF
  | .bwrite _ :: .bmap _ buf off _ :: _, s => fetch (s.view buf) off 2 ≠ 0xffff
  | _, _ => True

/-- Where `balloc` has taken a zone for a slot above the data, that is for an index block, the
    zone's block shows zeros only. -/
def Blank : List Frame → Kernel → Prop
  | [.bwrite _, .balloc dev bit, .bmap _ _ _ (_ + 1)], s =>
    ∀ i < BLOCK_SIZE, s.view ⟨dev, bit⟩ i = 0
  | _, _ => True

/-- Both. -/
def Supplied (l : List Frame) (s : Kernel) : Prop := Served l s ∧ Blank l s

theorem fetch_zero {b : Bytes} {off n : Nat} (h : ∀ i, off ≤ i → i < off + n → b i = 0) :
    fetch b off n = 0 := by
  induction n generalizing off with
  | zero => rfl
  | succ n ih =>
    unfold fetch
    rw [h off (Nat.le_refl _) (by omega), ih fun i h1 h2 => h i (by omega) (by omega)]
    rfl

/-- A block of zeros as an index block. -/
theorem blank_words {z j : Nat} (h : ∀ i < BLOCK_SIZE, w ⟨v.dev, z⟩ i = 0)
    (hj : j < BLOCK_INDEXES) : word w (v.indexPlace z j) = 0 := by
  refine fetch_zero fun i h1 h2 => h i ?_
  have hj' : j < 512 := hj
  have h2' : i < 2 * j + 2 := h2
  show i < 1024
  omega

/-- `EOF` as a slot stores it. -/
theorem fetch_store_EOF (b : Bytes) (off : Nat) : fetch (store b off 2 EOF) off 2 = 0xffff := by
  rw [fetch_store_self]
  decide

section Bmap

variable {x level slot : Nat} {create : Bool} {buf : Key} {s t : Kernel}

/-- The slot was empty and has got a zone: it was free, and `C` holds where `balloc` waits for its bit. -/
structure Fills (v : Volume) (C : List Frame → Kernel → Prop) (x level : Nat) (p : Place) (w w' : View)
    (bit : Nat) : Prop where
  empty : word w p = 0
  low : v.firstdatazone ≤ bit + 1
  lt : bit < v.zones
  free : v.zoneSet w bit = false
  view : w' = putWord (v.setZone w bit true) p bit
  waits : ∃ k u, u.view = v.setZone w bit true ∧ C [.bwrite k, .balloc v.dev bit, .bmap x p.1 p.2 level] u

/-- **`bmap` at one slot**: nothing shows, or the slot is filled. -/
theorem bmapSlot_fills {C : List Frame → Kernel → Prop} (hC : ∀ l s, C l s → Served l s) {u : Unit}
    (h : Runs C (bmapSlot x create level buf slot) s u t) (hm : v.Mounted s.tab)
    (hx : (s.tab.inodeTable x).dev = v.dev) :
    t.tab = s.tab ∧
      ((t.view = s.view ∧ ¬ (word s.view (buf, slot) = 0 ∧ create = true)) ∨
        (create = true ∧ ∃ bit, v.Fills C x level (buf, slot) s.view t.view bit)) := by
  rw [bmapSlot, runs_within] at h
  obtain ⟨_, s₁, h₁, h₂⟩ := runs_bind.mp h
  have hb := brelse_same buf _ _ _ h₂.ends
  obtain ⟨b, s₂, ⟨rfl, rfl⟩, h₁⟩ := runs_bind.mp h₁
  rcases runs_ite.mp h₁ with ⟨⟨hempty, hcreate⟩, h₁⟩ | ⟨hno, -, rfl⟩
  · obtain ⟨i, s₃, ⟨rfl, rfl⟩, h₁⟩ := runs_bind.mp h₁
    obtain ⟨bit, s₄, h₄, h₁⟩ := runs_bind.mp h₁
    obtain ⟨_, s₅, h₅, h₁⟩ := runs_bind.mp h₁
    rw [runs_poke] at h₅
    rw [runs_setDirty] at h₁
    rw [hx] at h₄
    obtain ⟨htab, hv⟩ := balloc_view hm h₄
    have htab' : t.tab = s.tab := hb.tab.trans (by rw [← h₁, ← h₅]; exact htab)
    have hview : t.view = putWord s₄.view (buf, slot) bit := by
      refine Eq.trans (show _ = s₁.view from hb.view) ?_
      rw [← h₁]
      refine Eq.trans (show _ = s₅.view from (mark_same _ _).view) ?_
      rw [← h₅]
      exact view_poke_word ..
    -- the slot's block is dirty now, so it is written back under its label
    have hserved : word t.view (buf, slot) ≠ 0xffff := by
      obtain ⟨_, s₆, h₆, h₇⟩ := runs_bind.mp h₂
      have hd : (s₁.cache.buf buf).dirty = true := h₁ ▸ mark_dirty s₅ buf
      have hlab := hC _ _ (bwrite_dirty h₆ hd).1
      have e : ({ s₁ with cache := s₁.cache.flush buf } : Kernel).view = t.view :=
        view_flush.trans hb.view.symm
      rw [← e]
      exact hlab
    rcases hv with ⟨rfl, -⟩ | ⟨hlow, hlt, hfree, hv, k, u, hu, hlab⟩
    · refine absurd ?_ hserved
      rw [hview]
      exact (congrArg (fetch · slot 2) putWord_self).trans (fetch_store_EOF _ _)
    · refine ⟨htab', .inr ⟨hcreate, bit, hempty, hlow, hlt, hfree, ?_, k, u, hu.trans hv, hlab⟩⟩
      rw [hview, hv]
  · exact ⟨hb.tab, .inl ⟨hb.view, hno⟩⟩

/-- A zone taken for a slot is spare, where its block is blank as far as it is an index block. -/
theorem Fills.spare {C : List Frame → Kernel → Prop} (hC : ∀ l s, C l s → Blank l s) (hc : v.Consistent w)
    {p : Place} {bit : Nat} (h : v.Fills C x level p w w' bit) :
    v.Spare (v.setZone w bit true) level bit := by
  obtain ⟨k, u, hu, hlab⟩ := h.waits
  refine spare_of_mark hc h.low h.lt h.free fun hl j hj => ?_
  obtain ⟨l, rfl⟩ := Nat.exists_eq_succ_of_ne_zero (Nat.ne_of_gt hl)
  rw [← hu]
  exact blank_words (hC _ _ hlab) hj

/-- A filled slot grows the volume, and names the zone. -/
theorem Fills.grows {C : List Frame → Kernel → Prop} (hC : ∀ l s, C l s → Blank l s) (hc : v.Consistent w)
    {p : Place} (hp : (v.forest w).Slot level p) {bit : Nat} (h : v.Fills C x level p w w' bit) :
    v.Grows w w' ∧ (v.forest w').val p = some bit := by
  have hmark := Grows.mark hc h.low h.lt
  have hempty : word (v.setZone w bit true) p = 0 := by
    rw [word_setZone hc h.low h.lt hp]
    exact h.empty
  obtain ⟨hg, hval⟩ := Grows.fill hmark.consistent (hmark.slot hp) hempty (h.spare hC hc)
  rw [h.view]
  exact ⟨hmark.trans hg, hval⟩

/-- **`bmap` at one slot.** -/
theorem bmapSlot_grows {u : Unit} (h : Runs Supplied (bmapSlot x create level buf slot) s u t)
    (hm : v.Mounted s.tab) (hx : (s.tab.inodeTable x).dev = v.dev) (hc : v.Consistent s.view)
    (hp : (v.forest s.view).Slot level (buf, slot)) :
    t.tab = s.tab ∧ v.Grows s.view t.view ∧ (create = false → t.view = s.view) ∧
      (create = true → word t.view (buf, slot) ≠ 0) := by
  obtain ⟨htab, ⟨hview, hno⟩ | ⟨hcreate, bit, hf⟩⟩ := bmapSlot_fills (fun _ _ h => h.1) h hm hx
  · rw [hview]
    exact ⟨htab, .refl hc, fun _ => rfl, fun e hw => hno ⟨hw, e⟩⟩
  · obtain ⟨hg, hval⟩ := hf.grows (fun _ _ h => h.2) hc hp
    refine ⟨htab, hg, fun e => ?_, fun _ => ?_⟩
    · rw [hcreate] at e
      cases e
    · rw [(val_eq.mp hval).1]
      exact (val_eq.mp hval).2

/-- **The walk of `bmap`** ends at the slot of the block, and answers the zone in it. -/
theorem bmapReckon_grows {array index block divider z nr b : Nat}
    (h : Runs Supplied (bmapReckon x create level buf array index block divider) s z t)
    (hm : v.Mounted s.tab) (hx : (s.tab.inodeTable x).dev = v.dev) (hc : v.Consistent s.view)
    (ho : v.Owns s.view nr) (hl : v.Leads s.view nr b level (buf, array + 2 * index) block)
    (hw : Walk level block divider) :
    t.tab = s.tab ∧ v.Grows s.view t.view ∧ (create = false → t.view = s.view) ∧
      (create = true → z ≠ 0) ∧ (z ≠ 0 → v.BlockZone t.view nr b z) := by
  induction level generalizing buf array index block divider s with
  | zero =>
    obtain ⟨_, s₁, h₁, h⟩ := runs_bind.mp h
    obtain ⟨_, s₂, ⟨rfl, rfl⟩, rfl, rfl⟩ := runs_bind.mp h
    obtain ⟨htab, hg, hsame, hne⟩ := bmapSlot_grows h₁ hm hx hc (hl.slot ho)
    exact ⟨htab, hg, hsame, hne, fun hz =>
      ⟨_, _, hl.extend ho hg.toExtends, val_eq.mpr ⟨rfl, hz⟩⟩⟩
  | succ level ih =>
    obtain ⟨_, s₁, h₁, h⟩ := runs_bind.mp h
    obtain ⟨htab, hg, hsame, hne⟩ := bmapSlot_grows h₁ hm hx hc (hl.slot ho)
    obtain ⟨_, s₂, ⟨rfl, rfl⟩, h⟩ := runs_bind.mp h
    rcases runs_ite.mp h with ⟨hzero, rfl, rfl⟩ | ⟨hz, h⟩
    · exact ⟨htab, hg, hsame, fun e => absurd hzero (hne e), fun hz => absurd hzero hz⟩
    · obtain ⟨i, s₃, ⟨rfl, rfl⟩, h⟩ := runs_bind.mp h
      obtain ⟨k, s₄, h₄, h⟩ := runs_bind.mp h
      have hk := bread_key h₄
      have hs := bread_same _ _ _ _ _ h₄.ends
      have hview : s₄.view = s₁.view := hs.view
      have htab' : s₄.tab = s.tab := hs.tab.trans htab
      dsimp only at hk
      rw [htab, hx] at hk
      obtain ⟨hdiv, hw'⟩ := hw.next
      have hl' : v.Leads s₁.view nr b level (k, 0 + 2 * (block / divider))
          (block % divider) := by
        rw [hk, Nat.zero_add, hdiv]
        exact .next (hl.extend ho hg.toExtends) (val_eq.mpr ⟨rfl, hz⟩)
      have hnext := ih h (htab' ▸ hm) (htab' ▸ hx) (hview ▸ hg.consistent)
        (hview ▸ hg.owns ho) (hview ▸ hl') hw'
      rw [htab', hview] at hnext
      obtain ⟨h1, h2, h3, h4, h5⟩ := hnext
      exact ⟨h1, hg.trans h2, fun e => (h3 e).trans (hsame e), h4, h5⟩

/-- `x` holds inode `nr` of the volume. -/
structure Loaded (v : Volume) (t : Tables) (x nr : Nat) : Prop where
  dev : (t.inodeTable x).dev = v.dev
  buf : (t.inodeTable x).buf = v.inodeKey nr
  desc : (t.inodeTable x).desc = descOff nr

theorem Loaded.desc_eq {nr : Nat} (hx : v.Loaded s.tab x nr) (f : Field) :
    s.desc x f = v.desc s.view nr f := by
  unfold Kernel.desc Volume.desc
  rw [hx.buf, hx.desc]

/-- The slot `bmap` starts at. -/
theorem Loaded.leads {nr b l i r d : Nat} (hx : v.Loaded s.tab x nr) (h : BmapStart b l i r d) :
    v.Leads s.view nr b l ((s.tab.inodeTable x).buf,
      (s.tab.inodeTable x).desc + (Field.zone 0).off + 2 * i) r := by
  have hp : ((s.tab.inodeTable x).buf,
      (s.tab.inodeTable x).desc + (Field.zone 0).off + 2 * i) = v.zonePlace nr i := by
    rw [hx.buf, hx.desc]
    exact Prod.ext rfl (Nat.add_assoc ..)
  rw [hp]
  exact .start h

/-- **`bmap`** grows the volume, and answers the zone of the block. -/
theorem bmap_grows {block z nr : Nat} (h : Runs Supplied (bmap x block create) s z t)
    (hm : v.Mounted s.tab) (hx : v.Loaded s.tab x nr) (hc : v.Consistent s.view)
    (ho : v.Owns s.view nr) :
    t.tab = s.tab ∧ v.Grows s.view t.view ∧ (create = false → t.view = s.view) ∧
      (create = true → z ≠ 0) ∧ (z ≠ 0 → v.BlockZone t.view nr block z) := by
  obtain ⟨-, level, index, rest, divider, s', hstart, hs, h⟩ := bmap_start h
  have hview : s'.view = s.view := hs.view
  have := bmapReckon_grows h (hs.tab ▸ hm) (hs.tab ▸ hx.dev) (hview ▸ hc) (hview ▸ ho)
    (hview ▸ hx.leads hstart) (walk_start hstart).2.2
  rw [hs.tab, hview] at this
  exact this

end Bmap

end Volume

end Yuios
