/-
  File:      Yuios/Fs/Making.lean
  Subject:   `devmkfs` FROM LINE TO LINE, in the outline of `Picture.lean`.

  * `Room` -- a super block and an inode are free in memory; `Vacancy` -- and nothing is left in their slots.
  * `Shows.iget` to `Shows.formatSuper` -- the pieces of the call, each on its own picture.
  * `Made` -- what the call has done; `devmkfs_comes` -- where there is room, it ends and has done this.
-/
import Yuios.Fs.Format
import Yuios.Fs.Settled

namespace Yuios

open Lib Prog Code

/-! ## 1. The tables -/

/-- The tables while a volume is made: slot `i` of the super blocks is in use, and slot `x` of the
    inodes. -/
def Tables.making (T : Tables) (i x : Nat) (sb : SuperBlock) (ino : Inode) : Tables :=
  (T.setSuper i sb).setInode x ino

/-- **There is room** for another device: `i` is the slot that `get_free_super` finds, `x` the one that
    `get_free_inode` does. -/
structure Room (T : Tables) (dev : Int) (i x : Nat) : Prop where
  device : dev ≠ devEOF
  new : ∀ j < SUPER_NR, (T.superTable j).dev ≠ dev
  super : ((List.range SUPER_NR).find? fun j => (T.superTable j).dev == devEOF) = some i
  inode : ((List.range INODE_NR).find? fun y => (T.inodeTable y).dev == devEOF) = some x
  pos : x ≠ 0

/-- Nothing is left in those slots. -/
structure Vacancy (T : Tables) (dev : Int) (i x : Nat) : Prop extends Room T dev i x where
  inodeList : (T.superTable i).inodeList = []
  imount : (T.superTable i).imount = none
  count : (T.inodeTable x).count = 0
  pipe : (T.inodeTable x).pipe = false
  unlisted : ∀ j < SUPER_NR, x ∉ (T.superTable j).inodeList

section Making

variable {T : Tables} {dev : Int} {i x : Nat} {sb sb' : SuperBlock} {ino ino' : Inode}

@[simp] theorem making_super : (T.making i x sb ino).superTable i = sb := Function.update_self ..

theorem making_super_of_ne {j : Nat} (h : j ≠ i) : (T.making i x sb ino).superTable j = T.superTable j :=
  Function.update_of_ne h ..

@[simp] theorem making_inode : (T.making i x sb ino).inodeTable x = ino := Function.update_self ..

theorem making_inode_of_ne {y : Nat} (h : y ≠ x) : (T.making i x sb ino).inodeTable y = T.inodeTable y :=
  Function.update_of_ne h ..

@[simp] theorem setSuper_making : (T.making i x sb ino).setSuper i sb' = T.making i x sb' ino := by
  unfold Tables.making Tables.setInode Tables.setSuper
  dsimp only
  rw [Function.update_idem]

@[simp] theorem setInode_making : (T.making i x sb ino).setInode x ino' = T.making i x sb ino' := by
  unfold Tables.making Tables.setInode
  dsimp only
  rw [Function.update_idem]

theorem setSuper_eq_making : T.setSuper i sb = T.making i x sb (T.inodeTable x) := by
  unfold Tables.making Tables.setInode Tables.setSuper
  rw [Function.update_eq_self]

theorem Vacancy.super_lt (h : Vacancy T dev i x) : i < SUPER_NR :=
  List.mem_range.mp (List.mem_of_find?_eq_some h.super)

/-- The device that is being made is found. -/
theorem Vacancy.getSuper (h : Vacancy T dev i x) (hd : sb.dev = dev) :
    (T.making i x sb ino).getSuper dev = some i := by
  refine List.find?_range_eq_some.mpr ⟨?_, List.mem_range.mpr h.super_lt, fun j hj => ?_⟩
  · rw [making_super, hd]
    exact beq_self_eq_true dev
  · rw [making_super_of_ne (Nat.ne_of_lt hj)]
    simpa using h.new j (Nat.lt_trans hj h.super_lt)

/-- The list that the inode is taken out of. -/
theorem Vacancy.listed (h : Vacancy T dev i x) (hl : sb.inodeList = [x]) :
    ((List.range SUPER_NR).find? fun j => ((T.making i x sb ino).superTable j).inodeList.contains x) = some i := by
  refine List.find?_range_eq_some.mpr ⟨?_, List.mem_range.mpr h.super_lt, fun j hj => ?_⟩
  · rw [making_super, hl]
    simp
  · rw [making_super_of_ne (Nat.ne_of_lt hj)]
    simpa using h.unlisted j (Nat.lt_trans hj h.super_lt)

/-- The slots are vacant again when what they held is given back. -/
theorem Vacancy.again (h : Vacancy T dev i x) (hd : sb.dev = devEOF) (hl : sb.inodeList = []) (hm : sb.imount = none)
    (hdev : ino.dev = devEOF) (hc : ino.count = 0) (hp : ino.pipe = false) :
    Vacancy (T.making i x sb ino) dev i x := by
  obtain ⟨-, hi, hbefore⟩ := List.find?_range_eq_some.mp h.super
  obtain ⟨-, hx, hbefore'⟩ := List.find?_range_eq_some.mp h.inode
  refine ⟨⟨h.device, fun j hj => ?_, ?_, ?_, h.pos⟩, ?_, ?_, ?_, ?_, fun j hj => ?_⟩
  · by_cases e : j = i
    · rw [e, making_super, hd]
      exact h.device.symm
    · rw [making_super_of_ne e]
      exact h.new j hj
  · refine List.find?_range_eq_some.mpr ⟨?_, hi, fun j hj => ?_⟩
    · rw [making_super, hd]
      rfl
    · rw [making_super_of_ne (Nat.ne_of_lt hj)]
      exact hbefore j hj
  · refine List.find?_range_eq_some.mpr ⟨?_, hx, fun y hy => ?_⟩
    · rw [making_inode, hdev]
      rfl
    · rw [making_inode_of_ne (Nat.ne_of_lt hy)]
      exact hbefore' y hy
  · rw [making_super]
    exact hl
  · rw [making_super]
    exact hm
  · rw [making_inode]
    exact hc
  · rw [making_inode]
    exact hp
  · by_cases e : j = i
    · rw [e, making_super, hl]
      exact List.not_mem_nil
    · rw [making_super_of_ne e]
      exact h.unlisted j hj

/-- The slot that is taken for the inode. -/
theorem Vacancy.free (h : Vacancy T dev i x) :
    ((List.range INODE_NR).find? fun y =>
      ((T.making i x sb (T.inodeTable x)).inodeTable y).dev == devEOF) = some x := by
  rw [← setSuper_eq_making]
  exact h.inode

end Making

/-! ## 2. The inode -/

section Rules

variable {s₀ s : Kernel} {p : Picture} {T : Tables} {dev : Int} {i x nr : Nat} {sb : SuperBlock} {ino : Inode}

theorem Shows.onInode (h : Shows s₀ p s) (htab : p.tab = T.making i x sb ino) (f : Inode → Inode) :
    Comes (onInode x f) s fun _ t => Shows s₀ { p with tab := T.making i x sb (f ino) } t := by
  have hf : (p.tab.setInode x (f (p.tab.inodeTable x))) = T.making i x sb (f ino) := by
    rw [htab, making_inode, setInode_making]
  rw [← hf]
  exact h.onTables _

theorem Shows.onSuper (h : Shows s₀ p s) (htab : p.tab = T.making i x sb ino) (f : SuperBlock → SuperBlock) :
    Comes (onSuper i f) s fun _ t => Shows s₀ { p with tab := T.making i x (f sb) ino } t := by
  have hf : (p.tab.setSuper i (f (p.tab.superTable i))) = T.making i x (f sb) ino := by
    rw [htab, making_super, setSuper_making]
  rw [← hf]
  exact h.onTables _

/-- `iget` of an inode that is not in memory, into the slot that is free. -/
theorem Shows.iget (h : Shows s₀ p s) (hv : Vacancy T dev i x) (hd : sb.dev = dev) (hl : sb.inodeList = [])
    (htab : p.tab = T.making i x sb (T.inodeTable x)) (hn : nr ≤ sb.inodes) :
    Comes (iget dev nr) s fun y t => y = x ∧ Shows s₀ { p.read ⟨dev, inodeBlock sb nr⟩ with
      tab := T.making i x { sb with inodeList := [x] } { T.inodeTable x with
        dev := dev, nr := nr, count := 1, buf := ⟨dev, inodeBlock sb nr⟩
        desc := 32 * ((nr - 1) % BLOCK_INODES) } } t := by
  have hi : p.tab.getSuper dev = some i := by
    rw [htab]
    exact hv.getSuper hd
  have hsb : p.tab.superTable i = sb := by rw [htab, making_super]
  have hfind : Comes (findInode dev nr) s fun o t => o = none ∧ Shows s₀ p t := by
    refine comes_bind (h.superOf hi) fun a t ha => ?_
    obtain ⟨rfl, ht⟩ := ha
    refine comes_bind ht.tables fun U u hU => comes_pure ⟨?_, hU.2⟩
    rw [hsb, hl]
    rfl
  refine comes_bind hfind fun o t ho => ?_
  obtain ⟨rfl, ht⟩ := ho
  refine comes_bind (ht.superOf hi) fun a u ha => ?_
  obtain ⟨rfl, hu⟩ := ha
  rw [hsb]
  refine comes_bind (hu.check (decide_eq_true hn)) fun _ v hv' => ?_
  have hfree : Comes getFreeInode v fun y t => y = x ∧ Shows s₀ p t := by
    refine comes_bind hv'.tables fun U u hU => hU.2.need ?_
    rw [hU.1, htab]
    exact hv.free
  refine comes_bind hfree fun y w hy => ?_
  obtain ⟨rfl, hw⟩ := hy
  refine comes_bind (hw.onInode htab _) fun _ t₁ h₁ => ?_
  rw [hv.count] at h₁
  -- the inode enters the list
  have hpush : Comes (listPushInode dev y) t₁ fun _ t => Shows s₀ { p with
      tab := T.making i y { sb with inodeList := [y] } { T.inodeTable y with dev := dev, nr := nr, count := 1 } } t := by
    refine comes_bind h₁.tables fun U t₂ h₂ => ?_
    obtain ⟨rfl, h₂⟩ := h₂
    refine comes_bind (h₂.need (hv.getSuper hd)) fun j t₃ h₃ => ?_
    obtain ⟨rfl, h₃⟩ := h₃
    refine comes_bind (h₃.check (by simp [hl])) fun _ t₄ h₄ => ?_
    refine (h₄.onTables _).mono fun _ t₅ h₅ => ?_
    simpa [Picture.onTab, hl] using h₅
  refine comes_bind hpush fun _ t₂ h₂ => comes_bind (h₂.bread _ _) fun k t₃ h₃ => ?_
  obtain ⟨rfl, h₃⟩ := h₃
  exact comes_bind (h₃.onInode (T := T) rfl _) fun _ t₄ h₄ => comes_pure ⟨rfl, h₄⟩

/-- `iput` of the last reference. -/
theorem Shows.iput (h : Shows s₀ p s) (hb : s₀.Balanced) (hv : Vacancy T dev i x) (hl : sb.inodeList = [x])
    (htab : p.tab = T.making i x sb ino) (hpipe : ino.pipe = false) (hcount : ino.count = 1)
    (hheld : ino.buf ∈ p.held) (hlate : ino.buf ∈ p.late) :
    Comes (iput x) s fun _ t => Shows s₀ { p.give ino.buf with
      tab := T.making i x { sb with inodeList := [] } { ino with dev := devEOF, count := 0 } } t := by
  have hino : p.tab.inodeTable x = ino := by rw [htab, making_inode]
  refine comes_bind (h.inodeAt x) fun a t₁ ha => ?_
  obtain ⟨rfl, h₁⟩ := ha
  rw [hino]
  refine comes_neg (by rw [hpipe]; decide) (comes_bind (h₁.bwrite hlate) fun _ t₂ h₂ => ?_)
  refine comes_bind (h₂.1.onInode htab _) fun _ t₃ h₃ => comes_bind (h₃.inodeAt x) fun a t₄ ha => ?_
  obtain ⟨rfl, h₄⟩ := ha
  rw [making_inode]
  refine comes_neg (by simp [hcount]) (comes_bind (h₄.brelse hb hheld hlate) fun _ t₅ h₅ => ?_)
  -- the inode leaves its list
  have hremove : Comes (listRemoveInode x) t₅ fun _ t => Shows s₀ { p.give ino.buf with
      tab := T.making i x { sb with inodeList := [] } { ino with count := 0 } } t := by
    refine comes_bind h₅.tables fun U t₆ h₆ => ?_
    obtain ⟨rfl, h₆⟩ := h₆
    refine comes_bind (h₆.need (hv.listed hl)) fun j t₇ h₇ => ?_
    obtain ⟨rfl, h₇⟩ := h₇
    refine (h₇.onTables _).mono fun _ t₈ h₈ => ?_
    refine h₈.weaken ?_ rfl rfl (List.Perm.refl _) ?_ (fun _ => Iff.rfl) (List.Subset.refl _)
    · simp [Picture.onTab, Picture.give, Picture.write, hl, hcount]
    · intro k hk
      simpa [Picture.onTab, Picture.give, Picture.write] using hk
  refine comes_bind hremove fun _ t₆ h₆ => ?_
  -- its slot is free again
  refine comes_bind (h₆.check (decide_eq_true hv.pos)) fun _ t₇ h₇ => ?_
  refine comes_bind (h₇.inodeAt x) fun a t₈ ha => ?_
  obtain ⟨rfl, h₈⟩ := ha
  refine comes_bind (h₈.check (by simp)) fun _ t₉ h₉ => ?_
  exact h₉.onInode (T := T) rfl _

theorem Shows.forget (h : Shows s₀ p s) : Shows s₀ { p with dirty := [] } s :=
  h.weaken rfl rfl rfl (List.Perm.refl _) (List.nil_subset _) (fun _ => Iff.rfl) (List.Subset.refl _)

/-! ## 3. The bitmaps -/

/-- Bitmap blocks have been read and cleared. -/
def Picture.clear (p : Picture) (dev : Int) (base n : Nat) : Picture :=
  { p with
    view := cleared p.view dev base n
    held := mapKeys dev base n ++ p.held
    dirty := []
    late := mapKeys dev base n ++ p.late
    stored := [] }

theorem Shows.clearMaps (h : Shows s₀ p s) (dev : Int) {base limit n : Nat} (hn : n ≤ limit) :
    Comes (clearMaps dev base limit n) s fun _ t => Shows s₀ (p.clear dev base n) t := by
  refine comes_range (I := fun j t => Shows s₀ (p.clear dev base j) t) ?_ fun j hj t ht => ?_
  · exact h.weaken rfl cleared_zero.symm rfl (List.Perm.refl _) (List.nil_subset _) (fun _ => Iff.rfl)
      (List.nil_subset _)
  · refine comes_bind (ht.check (decide_eq_true (by omega))) fun _ u hu => ?_
    refine comes_bind (hu.bread dev (base + j)) fun k v hk => ?_
    obtain ⟨rfl, hv⟩ := hk
    refine (hv.pokeMark _ _).mono fun _ w hw => ?_
    refine hw.weaken rfl (cleared_succ j).symm rfl ?_ (List.nil_subset _) (fun k => ?_) (List.nil_subset _)
    · show (⟨dev, base + j⟩ :: (mapKeys dev base j ++ p.held)).Perm (mapKeys dev base (j + 1) ++ p.held)
      rw [mapKeys_succ, List.append_assoc]
      exact List.perm_middle.symm
    · show k ∈ mapKeys dev base (j + 1) ++ p.late ↔ k ∈ ⟨dev, base + j⟩ :: (mapKeys dev base j ++ p.late)
      rw [mapKeys_succ]
      simp only [List.mem_append, List.mem_cons, List.not_mem_nil, or_false]
      tauto

theorem Shows.padMap (h : Shows s₀ p s) (k : Key) (count : Nat) :
    Comes (padMap k count) s fun _ t => Shows s₀ (p.touch k (padded count)) t := by
  refine comes_bind (h.setDirty k) fun _ t ht => ?_
  refine comes_bind (ht.poke List.mem_cons_self _) fun _ u hu => ?_
  refine (hu.poke List.mem_cons_self _).mono fun _ v hv => ?_
  rw [Picture.edit_edit] at hv
  exact hv

/-- While the bitmaps are worked on, `w` shows. -/
def Picture.maps (p : Picture) (z : Sizes) (dev : Int) (w : View) : Picture :=
  { p with
    view := w
    held := mapKeys dev (2 + z.imapBlocks) z.zmapBlocks ++ (mapKeys dev 2 z.imapBlocks ++ p.held)
    dirty := []
    late := mapKeys dev (2 + z.imapBlocks) z.zmapBlocks ++ (mapKeys dev 2 z.imapBlocks ++ p.late)
    stored := [] }

/-- A write to a bitmap; its buffer may be dirty still or not. -/
theorem Shows.maps {z : Sizes} {w : View} {k : Key} {f : Bytes → Bytes}
    (h : Shows s₀ { (p.maps z dev w).touch k f with dirty := [] } s)
    (hk : k ∈ mapKeys dev (2 + z.imapBlocks) z.zmapBlocks ∨ k ∈ mapKeys dev 2 z.imapBlocks) :
    Shows s₀ (p.maps z dev (Function.update w k (f (w k)))) s := by
  refine h.weaken rfl rfl rfl (List.Perm.refl _) (List.nil_subset _) (fun k' => ?_) (List.nil_subset _)
  have hlate : k ∈ (p.maps z dev w).late := by
    rw [Picture.maps]
    dsimp only
    rw [List.mem_append, List.mem_append]
    exact hk.imp_right .inl
  show k' ∈ (p.maps z dev w).late ↔ k' ∈ k :: (p.maps z dev w).late
  rw [List.mem_cons]
  exact ⟨.inr, fun hm => hm.elim (fun e => e ▸ hlate) id⟩

/-- A bit that an allocator has taken. -/
theorem Shows.maps_bit {z : Sizes} {w : View} {base q : Nat}
    (h : Shows s₀ (((p.maps z dev w).touch ⟨dev, base⟩ fun b => setBit b q true).write ⟨dev, base⟩) s)
    (hq : q < BLOCK_BITS)
    (hk : ⟨dev, base⟩ ∈ mapKeys dev (2 + z.imapBlocks) z.zmapBlocks ∨ ⟨dev, base⟩ ∈ mapKeys dev 2 z.imapBlocks) :
    Shows s₀ (p.maps z dev (withBit w dev base q true)) s := by
  rw [withBit_first hq]
  exact Shows.maps (f := fun b => setBit b q true) h.forget hk

/-- The bitmaps of a volume that fits its device. -/
theorem Shows.formatMaps {z : Sizes} {totalBlock n : Nat} (h : Shows s₀ p s) (hv : Vacancy T dev i x)
    (hfit : z.Fit totalBlock n) (hd : sb.dev = dev) (htab : p.tab = T.making i x (z.superBlock sb) ino) :
    Comes (formatMaps dev i n z) s fun _ t => Shows s₀ (p.maps z dev (z.bitmaps p.view dev n)) t := by
  have himap := hfit.imap_pos
  have hzmap := hfit.zmap_pos
  have htwo := hfit.two
  have hfirst : 2 ≤ z.firstdatazone := by
    have := hfit.first
    omega
  have hi : p.tab.getSuper dev = some i := by
    rw [htab]
    exact hv.getSuper hd
  have hsb : p.tab.superTable i = z.superBlock sb := by rw [htab, making_super]
  refine comes_bind (h.clearMaps dev hfit.imap_le) fun _ t₁ h₁ => ?_
  refine comes_bind (h₁.clearMaps dev hfit.zmap_le) fun _ t₂ h₂ => ?_
  -- the first bit of the zone bitmap
  have hbit : (z.superBlock sb).zoneBit (z.firstdatazone - 1) = 0 := by
    show z.firstdatazone - 1 + 1 - z.firstdatazone = 0
    omega
  have hgeo : (z.superBlock sb).Geometry := ⟨hfit.zones.trans_le hfit.small, hfit.zmap_le, hfirst⟩
  have hlow : (z.superBlock sb).LowestFree (z.bare p.view dev) (z.firstdatazone - 1) := by
    refine ⟨⟨⟨?_, ?_, ?_⟩, ?_⟩, fun q hq => ?_⟩
    · show z.firstdatazone ≤ z.firstdatazone - 1 + 1
      omega
    · show z.firstdatazone - 1 < z.zones
      have := hfit.zones
      have := hfit.room
      omega
    · rw [hbit]
      exact hzmap
    · rw [SuperBlock.zoneSet, hbit]
      exact hd ▸ bitOf_cleared hzmap
    · rw [hbit] at hq
      exact absurd hq (Nat.not_lt_zero q)
  have hballoc := h₂.balloc hi hsb hgeo hlow
  have hkey : (z.superBlock sb).zoneKey (z.firstdatazone - 1) = ⟨dev, 2 + z.imapBlocks⟩ := by
    rw [SuperBlock.zoneKey, hbit, Nat.zero_div, Nat.add_zero]
    exact congrArg (Key.mk · _) hd
  rw [hbit, hkey, Nat.zero_mod] at hballoc
  refine comes_bind hballoc fun _ t₃ h₃ => ?_
  have h₃ : Shows s₀ (p.maps z dev (withBit (z.bare p.view dev) dev (2 + z.imapBlocks) 0 true)) t₃ :=
    Shows.maps_bit h₃.2 (by decide) (.inl (mapKeys_mem (j := 0) hzmap))
  -- inodes 0 and 1
  have hmem : (⟨dev, 2⟩ : Key) ∈ mapKeys dev 2 z.imapBlocks := mapKeys_mem himap
  have hclear : ∀ q < BLOCK_BITS,
      bitOf (withBit (z.bare p.view dev) dev (2 + z.imapBlocks) 0 true) dev 2 q = false := fun q hq => by
    have hdiv : q / BLOCK_BITS = 0 := Nat.div_eq_of_lt hq
    rw [bitOf_withBit_of_ne (by rw [Nat.zero_div, hdiv]; omega), Sizes.bare,
      bitOf_cleared_of_lt (by rw [hdiv]; omega), bitOf_cleared (by rw [hdiv]; exact himap)]
  have hzero : Lowest (withBit (z.bare p.view dev) dev (2 + z.imapBlocks) 0 true ⟨dev, 2⟩) 0 :=
    ⟨hclear 0 (by decide), fun j hj => absurd hj (Nat.not_lt_zero j)⟩
  subst hd
  refine comes_bind (h₃.ialloc hi hsb himap (by decide) hzero (Nat.lt_of_lt_of_eq (by omega) hfit.inodes.symm))
    fun _ t₄ h₄ => ?_
  have h₄ : Shows s₀ (p.maps z sb.dev (withBit (withBit (z.bare p.view sb.dev) sb.dev (2 + z.imapBlocks) 0 true)
      sb.dev 2 0 true)) t₄ :=
    Shows.maps_bit h₄.2 (by decide) (.inr hmem)
  have hone : Lowest (withBit (withBit (z.bare p.view sb.dev) sb.dev (2 + z.imapBlocks) 0 true)
      sb.dev 2 0 true ⟨sb.dev, 2⟩) 1 := by
    rw [withBit_first (w := withBit _ _ _ _ _) (by decide), Function.update_self]
    refine ⟨?_, fun j hj => ?_⟩
    · rw [getBit_setBit, if_neg (by decide)]
      exact hclear 1 (by decide)
    · rw [getBit_setBit, if_pos (by omega)]
  refine comes_bind (h₄.ialloc hi hsb himap (by decide) hone (Nat.lt_of_lt_of_eq htwo hfit.inodes.symm))
    fun _ t₅ h₅ => ?_
  have h₅ : Shows s₀ (p.maps z sb.dev (z.taken p.view sb.dev)) t₅ :=
    Shows.maps_bit h₅.2 (by decide) (.inr hmem)
  -- the padding
  refine comes_bind (h₅.superAt i) fun _ t₆ h₆ => ?_
  obtain ⟨rfl, h₆⟩ := h₆
  rw [show (p.maps z sb.dev (z.taken p.view sb.dev)).tab.superTable i = z.superBlock sb from hsb]
  refine comes_bind (h₆.need (a := ⟨sb.dev, 2 + (z.imapBlocks - 1)⟩) ?_) fun _ t₇ h₇ => ?_
  · rw [if_neg (Nat.ne_of_gt himap)]
    exact SuperBlock.imap_eq (show _ < (z.superBlock sb).imapBlocks from Nat.sub_one_lt (Nat.ne_of_gt himap))
  obtain ⟨rfl, h₇⟩ := h₇
  refine comes_bind (h₇.need (a := ⟨sb.dev, 2 + z.imapBlocks + (z.zmapBlocks - 1)⟩) ?_) fun _ t₈ h₈ => ?_
  · rw [if_neg (Nat.ne_of_gt hzmap)]
    exact SuperBlock.zmap_eq (show _ < (z.superBlock sb).zmapBlocks from Nat.sub_one_lt (Nat.ne_of_gt hzmap))
  obtain ⟨rfl, h₈⟩ := h₈
  refine comes_bind (h₈.padMap _ _) fun _ t₉ h₉ => ?_
  have h₉ := Shows.maps h₉.forget (.inr (mapKeys_mem (Nat.sub_one_lt (Nat.ne_of_gt himap))))
  refine (h₉.padMap _ _).mono fun _ t ht => ?_
  exact Shows.maps ht.forget (.inl (mapKeys_mem (Nat.sub_one_lt (Nat.ne_of_gt hzmap))))

/-! ## 4. The root directory -/

/-- The zone that is free lowest, when the super block's pointers change, and a block that is not of the zone
    bitmap. -/
theorem lowestFree_update {w : View} {zone : Nat} {k : Key} {b : Bytes} {l : List Nat} {r : Option Nat}
    (h : sb.LowestFree w zone) (hk : k ∉ mapKeys sb.dev sb.zmapBase sb.zmapBlocks) :
    ({ sb with inodeList := l, iroot := r } : SuperBlock).LowestFree (Function.update w k b) zone := by
  have hbit : ∀ q, q / BLOCK_BITS < sb.zmapBlocks →
      bitOf (Function.update w k b) sb.dev sb.zmapBase q = bitOf w sb.dev sb.zmapBase q := fun q hq =>
    bitOf_congr (Function.update_of_ne (fun e => hk (by rw [← e]; exact mapKeys_mem hq)) ..)
  refine ⟨⟨⟨h.first, h.lt, h.loaded⟩, (hbit _ h.loaded).trans h.clear⟩, fun q hq => ?_⟩
  have hle : q / BLOCK_BITS ≤ sb.zoneBit zone / BLOCK_BITS := Nat.div_le_div_right (Nat.le_of_lt hq)
  exact (hbit q (Nat.lt_of_le_of_lt hle h.loaded)).trans (h.below q hq)

theorem Shows.inodeIn (h : Shows s₀ p s) (htab : p.tab = T.making i x sb ino) :
    Comes (Yuios.inodeAt x) s fun a t => a = ino ∧ Shows s₀ p t :=
  comes_reads ⟨by rw [h.tab, htab, making_inode], h⟩

theorem Shows.runningTask (h : Shows s₀ p s) (htab : p.tab = T.making i x sb ino) :
    Comes runningTask s fun a t => a = T.task T.running ∧ Shows s₀ p t :=
  comes_reads ⟨by rw [h.tab, htab]; rfl, h⟩

theorem Shows.descSetIn (h : Shows s₀ p s) (ino : Inode) (htab : p.tab = T.making i x sb ino)
    (hk : ino.buf ∈ p.dirty) (f : Field) (v : Nat) : Comes (Yuios.descSet x f v) s fun _ t =>
      Shows s₀ (p.edit ino.buf fun b => store b (ino.desc + f.off) f.width v) t := by
  have hino : p.tab.inodeTable x = ino := by rw [htab, making_inode]
  refine comes_bind (h.inodeAt x) fun a t ht => ?_
  obtain ⟨rfl, ht⟩ := ht
  rw [hino]
  exact ht.poke hk _

/-- `bmap` of the first block, which has a zone or gets one. -/
theorem Shows.bmapFirst (h : Shows s₀ p s) (hb : s₀.Balanced) (ino : Inode) (zone : Nat)
    (hi : p.tab.getSuper dev = some i) (htab : p.tab = T.making i x sb ino) (hg : sb.Geometry) (hd : ino.dev = dev) (hdesc : ino.desc = 0)
    (hk : ino.buf ∈ p.late) (hzone : zone ≤ 65535)
    (hlow : fetch (p.view ino.buf) 14 2 = 0 → sb.LowestFree p.view zone)
    (hne : sb.zoneKey zone ≠ ino.buf) (hmem : sb.zoneKey zone ∈ p.late) :
    Comes (bmap x 0 true) s fun r t =>
      r = (if fetch (p.view ino.buf) 14 2 = 0 then zone else fetch (p.view ino.buf) 14 2) ∧
      Shows s₀ { p with
        view := if fetch (p.view ino.buf) 14 2 = 0 then
          Function.update (sb.setZone p.view zone true) ino.buf (store (p.view ino.buf) 14 2 zone) else p.view
        dirty := []
        stored := [] } t := by
  have hino : p.tab.inodeTable x = ino := by rw [htab, making_inode]
  have hsb : p.tab.superTable i = sb := by rw [htab, making_super]
  refine comes_bind (h.check (by decide)) fun _ t₁ h₁ => ?_
  refine comes_bind (h₁.inodeAt x) fun a t₂ ha => ?_
  obtain ⟨rfl, h₂⟩ := ha
  rw [hino, hdesc]
  refine comes_bind (comes_modify (Q := fun _ t => Shows s₀ (p.hold ino.buf) t) (h₂.addCount ino.buf))
    fun _ t₃ h₃ => ?_
  refine comes_pos (by decide) ?_
  -- the slot is filled where it is empty, and the buffer given back
  have hslot : Comes (bmapSlot x true 0 ino.buf 14) t₃ fun _ t => Shows s₀ { p with
      view := if fetch (p.view ino.buf) 14 2 = 0 then
        Function.update (sb.setZone p.view zone true) ino.buf (store (p.view ino.buf) 14 2 zone) else p.view
      dirty := []
      stored := [] } t := by
    refine comes_mapLabel (comes_bind (R := fun _ t => Shows s₀ { p.hold ino.buf with
      view := if fetch (p.view ino.buf) 14 2 = 0 then
        Function.update (sb.setZone p.view zone true) ino.buf (store (p.view ino.buf) 14 2 zone) else p.view
      dirty := []
      stored := [] } t) ?_ fun _ t₄ h₄ => ?_)
    · refine comes_bind (h₃.bytesOf ino.buf) fun b t₄ hb' => ?_
      obtain ⟨rfl, h₄⟩ := hb'
      by_cases hw : fetch (p.view ino.buf) 14 2 = 0
      · rw [if_pos hw]
        refine comes_pos ⟨hw, rfl⟩ (comes_bind (h₄.inodeAt x) fun a t₅ ha => ?_)
        obtain ⟨rfl, h₅⟩ := ha
        rw [show (p.hold ino.buf).tab.inodeTable x = ino from hino, hd]
        refine comes_bind (h₅.balloc hi hsb hg (hlow hw)) fun r t₆ h₆ => ?_
        obtain ⟨rfl, h₆⟩ := h₆
        refine (h₆.pokeMark _ _).mono fun _ t₇ h₇ => ?_
        refine h₇.weaken rfl ?_ rfl (List.Perm.refl _) (List.nil_subset _) (fun k => ?_) (List.nil_subset _)
        · show Function.update (sb.setZone p.view r true) ino.buf
            (store (sb.setZone p.view r true ino.buf) 14 2 r) = _
          rw [show sb.setZone p.view r true ino.buf = p.view ino.buf from Function.update_of_ne (Ne.symm hne) ..]
        · show k ∈ p.late ↔ k ∈ ino.buf :: sb.zoneKey r :: p.late
          rw [List.mem_cons, List.mem_cons]
          exact ⟨fun hm => .inr (.inr hm), fun hm => hm.elim (· ▸ hk) fun hm => hm.elim (· ▸ hmem) id⟩
      · rw [if_neg hw]
        refine comes_neg (fun hc => hw hc.1) (comes_pure ?_)
        exact h₄.weaken rfl rfl rfl (List.Perm.refl _) (List.nil_subset _) (fun _ => Iff.rfl) (List.nil_subset _)
    · refine (h₄.brelse hb List.mem_cons_self hk).mono fun _ t₅ h₅ => ?_
      refine h₅.weaken rfl rfl rfl ?_ (List.nil_subset _) (fun _ => Iff.rfl) (List.nil_subset _)
      show (List.erase (ino.buf :: p.held) ino.buf).Perm p.held
      rw [List.erase_cons_head]
  refine comes_bind hslot fun _ t₄ h₄ => comes_bind (h₄.bytesOf ino.buf) fun b t₅ hb' => comes_pure ?_
  obtain ⟨rfl, h₅⟩ := hb'
  refine ⟨?_, h₅⟩
  show fetch ((if fetch (p.view ino.buf) 14 2 = 0 then _ else p.view) ino.buf) 14 2 = _
  by_cases hw : fetch (p.view ino.buf) 14 2 = 0
  · rw [if_pos hw, if_pos hw, Function.update_self, fetch_store_of_lt (by omega)]
  · rw [if_neg hw, if_neg hw]

/-- What `new_inode` writes to the descriptor. -/
def newDesc (task : Task) (now : Nat) (b : Bytes) : Bytes :=
  let b := store b 0 2 (0o777 &&& (0o777 ^^^ (task.umask &&& 0o777)))
  let b := store b 2 2 task.uid
  let b := store b 4 4 0
  let b := store b 8 4 now
  let b := store b 12 1 task.gid
  store b 13 1 1

/-- `new_inode` of inode 1, whose slot is free. -/
theorem Shows.newInode (h : Shows s₀ p s) (hv : Vacancy T dev i x) (hd : sb.dev = dev) (hl : sb.inodeList = [])
    (htab : p.tab = T.making i x sb (T.inodeTable x)) (hn : 1 ≤ sb.inodes) :
    Comes (newInode dev 1) s fun y t => y = x ∧ Shows s₀
      { (((p.read ⟨dev, inodeBlock sb 1⟩).mark ⟨dev, inodeBlock sb 1⟩).edit ⟨dev, inodeBlock sb 1⟩
          (newDesc (T.task T.running) (s₀.clock p.tick))).ticked with
        tab := T.making i x { sb with inodeList := [x] } { T.inodeTable x with
          dev := dev, nr := 1, count := 1, buf := ⟨dev, inodeBlock sb 1⟩, desc := 0 } } t := by
  refine comes_bind (h.runningTask htab) fun task t₁ h₁ => ?_
  obtain ⟨rfl, h₁⟩ := h₁
  refine comes_bind (h₁.iget hv hd hl htab hn) fun y t₂ h₂ => ?_
  obtain ⟨rfl, h₂⟩ := h₂
  set k : Key := ⟨dev, inodeBlock sb 1⟩
  set ino : Inode := { T.inodeTable y with dev := dev, nr := 1, count := 1, buf := k, desc := 0 }
  set q : Picture := { p.read k with tab := T.making i y { sb with inodeList := [y] } ino }
  replace h₂ : Shows s₀ q t₂ := h₂
  have hmark : Comes (inodeDirty y) t₂ fun _ t => Shows s₀ (q.mark k) t :=
    comes_bind (h₂.inodeAt y) fun a t ha => by
      obtain ⟨rfl, ht⟩ := ha
      rw [show q.tab.inodeTable y = ino from making_inode]
      exact ht.setDirty k
  refine comes_bind hmark fun _ t₃ h₃ => ?_
  have hdirty : k ∈ (q.mark k).dirty := List.mem_cons_self
  refine comes_bind (h₃.descSetIn ino rfl hdirty _ _) fun _ t₄ h₄ => ?_
  refine comes_bind (h₄.descSetIn ino rfl hdirty _ _) fun _ t₅ h₅ => ?_
  refine comes_bind (h₅.descSetIn ino rfl hdirty _ _) fun _ t₆ h₆ => ?_
  refine comes_bind h₆.time fun now t₇ h₇ => ?_
  obtain ⟨rfl, h₇⟩ := h₇
  refine comes_bind (h₇.descSetIn ino rfl hdirty _ _) fun _ t₈ h₈ => ?_
  refine comes_bind (h₈.descSetIn ino rfl hdirty _ _) fun _ t₉ h₉ => ?_
  refine comes_bind (h₉.descSetIn ino rfl hdirty _ _) fun _ t ht => comes_pure ⟨rfl, ?_⟩
  have hticked : ∀ (r : Picture) (f : Bytes → Bytes), (r.edit ino.buf f).ticked = r.ticked.edit ino.buf f :=
    fun _ _ => rfl
  simp only [hticked, Picture.edit_edit] at ht
  exact ht

/-- An entry of a new directory. -/
theorem Shows.setDentry (h : Shows s₀ p s) {k : Key} (hk : k ∈ p.dirty) (entry : Nat) (name : List UInt8) :
    Comes (Yuios.setDentry k entry name nr) s fun _ t => Shows s₀ (p.edit k fun b =>
      store (copyIn b (entry + 2) (ofString name) (name.length + 1)) entry 2 nr) t := by
  refine comes_bind (h.poke hk _) fun _ t ht => (ht.poke hk _).mono fun _ u hu => ?_
  rw [Picture.edit_edit] at hu
  exact hu

/-- The root directory's block. -/
theorem Shows.formatEntries (h : Shows s₀ p s) (hb : s₀.Balanced) (ino : Inode) (htab : p.tab = T.making i x sb ino)
    (hnr : ino.nr = 1) (zone : Nat) :
    Comes (formatEntries dev x zone) s fun _ t => Shows s₀ { p with
      view := Function.update p.view ⟨dev, zone⟩ (rootDir (p.view ⟨dev, zone⟩))
      dirty := []
      late := ⟨dev, zone⟩ :: p.late
      stored := [⟨dev, zone⟩] } t := by
  refine comes_bind (h.bread dev zone) fun k t₁ h₁ => ?_
  obtain ⟨rfl, h₁⟩ := h₁
  refine comes_bind (h₁.setDirty _) fun _ t₂ h₂ => ?_
  refine comes_bind (h₂.poke List.mem_cons_self _) fun _ t₃ h₃ => ?_
  refine comes_bind (h₃.inodeIn htab) fun a t₄ h₄ => ?_
  obtain ⟨rfl, h₄⟩ := h₄
  rw [hnr]
  refine comes_bind (h₄.setDentry List.mem_cons_self 0 DOT) fun _ t₅ h₅ => ?_
  refine comes_bind (h₅.setDentry List.mem_cons_self 16 DOTDOT) fun _ t₆ h₆ => ?_
  simp only [Picture.edit_edit] at h₆
  refine (h₆.brelse hb List.mem_cons_self List.mem_cons_self).mono fun _ t ht => ?_
  refine ht.weaken rfl rfl rfl ?_ (List.nil_subset _) (fun k => Iff.rfl) ?_
  · show (List.erase (⟨dev, zone⟩ :: p.held) ⟨dev, zone⟩).Perm p.held
    rw [List.erase_cons_head]
  · exact List.cons_subset.mpr ⟨List.mem_cons_self, List.nil_subset _⟩

/-- The root directory. -/
theorem Shows.formatRoot {z : Sizes} {totalBlock n : Nat} (h : Shows s₀ p s) (hb : s₀.Balanced)
    (hv : Vacancy T dev i x) (hfit : z.Fit totalBlock n) (hd : sb.dev = dev) (hl : sb.inodeList = [])
    (htab : p.tab = T.making i x (z.superBlock sb) (T.inodeTable x))
    (hlow : z.rootWord p.view dev = 0 → (z.superBlock sb).LowestFree p.view z.firstdatazone)
    (hmem : ⟨dev, 2 + z.imapBlocks⟩ ∈ p.late) :
    Comes (formatRoot dev i) s fun _ t => Shows s₀ { p with
      tab := T.making i x { z.superBlock sb with inodeList := [x], iroot := some x } { T.inodeTable x with
        dev := dev, nr := 1, count := 1, buf := z.rootKey dev, desc := 0 }
      view := z.withRoot p.view dev (T.task T.running) (s₀.clock p.tick)
      tick := p.tick + 1
      held := z.rootKey dev :: p.held
      dirty := []
      late := ⟨dev, z.rootZone p.view dev⟩ :: z.rootKey dev :: p.late
      stored := [⟨dev, z.rootZone p.view dev⟩] } t := by
  refine comes_bind (h.runningTask htab) fun task t₁ h₁ => ?_
  obtain ⟨rfl, h₁⟩ := h₁
  have hinodes : 1 ≤ (z.superBlock sb).inodes := by
    show 1 ≤ z.inodes
    have := hfit.inodes
    have := hfit.two
    omega
  refine comes_bind (h₁.newInode hv (show (z.superBlock sb).dev = dev from hd) hl htab hinodes) fun y t₂ h₂ => ?_
  obtain ⟨rfl, h₂⟩ := h₂
  set k : Key := z.rootKey dev
  set ino : Inode := { T.inodeTable y with dev := dev, nr := 1, count := 1, buf := k, desc := 0 }
  set sb₁ : SuperBlock := { z.superBlock sb with inodeList := [y], iroot := some y }
  -- `new_inode` and the lines after it write to the descriptor
  set q : Picture := { ((p.read k).mark k).ticked with tab := T.making i y sb₁ ino }
  refine comes_bind (h₂.onSuper (T := T) rfl _) fun _ t₃ h₃ => ?_
  replace h₃ : Shows s₀ (q.edit ino.buf (newDesc (T.task T.running) (s₀.clock p.tick))) t₃ := h₃
  have hdirty : k ∈ q.dirty := List.mem_cons_self
  refine comes_bind (h₃.descSetIn ino rfl hdirty _ _) fun _ t₄ h₄ => ?_
  refine comes_bind (h₄.descSetIn ino rfl hdirty _ _) fun _ t₅ h₅ => ?_
  refine comes_bind (h₅.descSetIn ino rfl hdirty _ _) fun _ t₆ h₆ => ?_
  simp only [Picture.edit_edit] at h₆
  set r : Picture := q.edit k (rootDesc (T.task T.running) (s₀.clock p.tick))
  replace h₆ : Shows s₀ r t₆ := h₆
  have hfirst := hfit.first
  have hroom := hfit.room
  have hsmall := hfit.small
  have hzmap := hfit.zmap_pos
  have hgeo : sb₁.Geometry := ⟨hfit.zones.trans_le hsmall, hfit.zmap_le, show 2 ≤ z.firstdatazone by omega⟩
  have hview : r.view k = rootDesc (T.task T.running) (s₀.clock p.tick) (p.view k) := Function.update_self ..
  have hword : fetch (r.view k) 14 2 = z.rootWord p.view dev := by
    rw [hview]
    exact fetch_rootDesc (Nat.le_refl _)
  have hkey : sb₁.zoneKey z.firstdatazone = ⟨dev, 2 + z.imapBlocks⟩ := by
    show (⟨sb.dev, 2 + z.imapBlocks + (z.firstdatazone + 1 - z.firstdatazone) / BLOCK_BITS⟩ : Key) = _
    rw [Nat.add_sub_cancel_left, hd]
    rfl
  have hmaps : k ∉ mapKeys (z.superBlock sb).dev (z.superBlock sb).zmapBase (z.superBlock sb).zmapBlocks := fun hm =>
    absurd (mem_mapKeys.mp hm).2.2 (Nat.lt_irrefl _)
  have hbmap := h₆.bmapFirst hb ino z.firstdatazone (hv.getSuper (show sb₁.dev = dev from hd)) rfl hgeo rfl rfl
    (List.mem_cons_self) (by omega) (fun hw => lowestFree_update (hlow (hword ▸ hw)) hmaps)
    (by rw [hkey]; exact fun e => absurd (congrArg Key.block e) (by
      show 2 + z.imapBlocks ≠ 2 + z.imapBlocks + z.zmapBlocks
      omega))
    (by rw [hkey]; exact List.mem_cons_of_mem _ hmem)
  have hset : sb₁.setZone r.view z.firstdatazone true = withBit r.view dev (2 + z.imapBlocks) 1 true := by
    show withBit r.view sb.dev (2 + z.imapBlocks) (z.firstdatazone + 1 - z.firstdatazone) true = _
    rw [Nat.add_sub_cancel_left, hd]
  rw [show ino.buf = k from rfl, hset] at hbmap
  refine comes_bind hbmap fun zone t₇ h₇ => ?_
  obtain ⟨hzone, h₇⟩ := h₇
  replace hzone : zone = z.rootZone r.view dev := hzone
  replace h₇ : Shows s₀ { r with view := z.rooted r.view dev, dirty := [], stored := [] } t₇ := h₇
  refine (h₇.formatEntries hb ino rfl rfl zone).mono fun _ t ht => ?_
  have hroot : z.rootZone p.view dev = zone := by
    rw [hzone]
    show (if z.rootWord p.view dev = 0 then _ else z.rootWord p.view dev) =
      if fetch (r.view k) 14 2 = 0 then _ else fetch (r.view k) 14 2
    rw [hword]
  rw [hroot]
  refine ht.weaken rfl ?_ rfl (List.Perm.refl _) (List.nil_subset _) (fun k' => Iff.rfl) (List.Subset.refl _)
  rw [hzone]
  rfl

/-! ## 5. The call -/

theorem Shows.formatSuper (h : Shows s₀ p s) (htab : p.tab = T.making i x sb ino) (z : Sizes) :
    Comes (formatSuper dev i z) s fun _ t => Shows s₀ { p with
      tab := T.making i x (z.superBlock sb) ino
      view := Function.update p.view ⟨dev, 1⟩ (z.descriptor (p.view ⟨dev, 1⟩))
      held := ⟨dev, 1⟩ :: p.held
      dirty := []
      late := ⟨dev, 1⟩ :: p.late
      stored := [] } t := by
  refine comes_bind (h.bread dev 1) fun k t₁ h₁ => ?_
  obtain ⟨rfl, h₁⟩ := h₁
  refine comes_bind (h₁.setDirty _) fun _ t₂ h₂ => ?_
  refine comes_bind (h₂.poke List.mem_cons_self _) fun _ t₃ h₃ => ?_
  refine (h₃.onSuper htab _).mono fun _ t ht => ?_
  exact ht.weaken rfl rfl rfl (List.Perm.refl _) (List.nil_subset _) (fun _ => Iff.rfl) (List.nil_subset _)

/-- The lowest zone that is free, from the first bits of the bitmap. -/
theorem lowestFree_low {z : Sizes} {totalBlock n m : Nat} {w : View} (hfit : z.Fit totalBlock n) (hd : sb.dev = dev)
    (height : 8 ≤ z.zcount.toNat) (hm : m + 1 < 8)
    (hbits : ∀ q < 8, bitOf w dev (2 + z.imapBlocks) q = decide (q < m + 1)) :
    (z.superBlock sb).LowestFree w (z.firstdatazone + m) := by
  have hbit : (z.superBlock sb).zoneBit (z.firstdatazone + m) = m + 1 := by
    show z.firstdatazone + m + 1 - z.firstdatazone = m + 1
    omega
  refine ⟨⟨⟨?_, ?_, ?_⟩, ?_⟩, fun q hq => ?_⟩
  · show z.firstdatazone ≤ z.firstdatazone + m + 1
    omega
  · show z.firstdatazone + m < z.zones
    have := hfit.first
    have := hfit.total
    have := hfit.zones
    have hspare := hfit.zmapSpare
    have hsmall := hfit.small
    rw [show BLOCK_BITS = 8192 from rfl] at hspare
    omega
  · rw [hbit, Nat.div_eq_of_lt (Nat.lt_trans hm (by decide))]
    exact hfit.zmap_pos
  · rw [SuperBlock.zoneSet, hbit]
    show bitOf w sb.dev (2 + z.imapBlocks) (m + 1) = false
    rw [hd, hbits _ hm, decide_eq_false (Nat.lt_irrefl _)]
  · rw [hbit] at hq
    show bitOf w sb.dev (2 + z.imapBlocks) q = true
    rw [hd, hbits q (Nat.lt_trans hq hm), decide_eq_true hq]

/-- The zone of the root directory is the first one. -/
theorem lowestFree_bitmaps {z : Sizes} {totalBlock n : Nat} {w : View} (hfit : z.Fit totalBlock n) (hd : sb.dev = dev)
    (height : 8 ≤ z.zcount.toNat) (hne : z.zcount.toNat ≠ BLOCK_BITS) :
    (z.superBlock sb).LowestFree (z.bitmaps w dev n) z.firstdatazone := by
  refine lowestFree_low hfit hd height (m := 0) (by decide) fun q hq => ?_
  have hq' : q < BLOCK_BITS := Nat.lt_trans hq (by decide)
  rw [Sizes.zmapBit_bitmaps hfit.imap_pos (by rw [Nat.div_eq_of_lt hq']; exact hfit.zmap_pos),
    hfit.padBit_low height hne hq, decide_eq_decide]
  omega

/-- The blocks that are written: the super block, the bitmaps, the first block of the inode table and the root
    directory's. -/
def Sizes.writes (z : Sizes) (w : View) (dev : Int) : List Key :=
  ⟨dev, z.rootZone w dev⟩ :: z.rootKey dev ::
    (mapKeys dev (2 + z.imapBlocks) z.zmapBlocks ++ (mapKeys dev 2 z.imapBlocks ++ [⟨dev, 1⟩]))

/-- The inode in memory while the root directory is made. -/
def rootInode (ino : Inode) (dev : Int) (k : Key) : Inode :=
  { ino with dev := dev, nr := 1, count := 1, buf := k, desc := 0 }

/-- What `devmkfs` does with the super block it has taken. -/
theorem Kernel.formats {s : Kernel} {totalBlock n : Nat} (hb : s.Balanced) (hv : Vacancy T dev i x)
    (hfit : (sizes totalBlock n).Fit totalBlock n) (height : 8 ≤ (sizes totalBlock n).zcount.toNat)
    (hne : (sizes totalBlock n).zcount.toNat ≠ BLOCK_BITS)
    (hd : sb.dev = dev) (hl : sb.inodeList = []) (htab : s.tab = T.making i x sb (T.inodeTable x)) :
    Comes (format dev i totalBlock n) s fun _ t => Shows s
      { tab := T.making i x { (sizes totalBlock n).superBlock sb with inodeList := [x], iroot := some x }
          (rootInode (T.inodeTable x) dev ((sizes totalBlock n).rootKey dev))
        view := (sizes totalBlock n).made s.view dev n (T.task T.running) (s.clock s.tick)
        tick := s.tick + 1
        held := ((sizes totalBlock n).writes s.view dev).tail
        dirty := []
        late := (sizes totalBlock n).writes s.view dev
        stored := [⟨dev, (sizes totalBlock n).rootZone s.view dev⟩] } t := by
  set z := sizes totalBlock n
  have hi := hfit.imap_pos
  have hz := hfit.zmap_pos
  set w : View := Function.update s.view ⟨dev, 1⟩ (z.descriptor (s.view ⟨dev, 1⟩))
  refine comes_bind (s.shows.formatSuper (p := s.picture) htab z) fun _ t₁ h₁ => ?_
  refine comes_bind (h₁.formatMaps (T := T) hv hfit hd rfl) fun _ t₂ h₂ => ?_
  -- `zone[0]` of inode 1 is what it was
  have hzone : z.rootZone (z.bitmaps w dev n) dev = z.rootZone s.view dev :=
    Sizes.rootZone_congr (Sizes.bitmaps_rootKey hi hz)
  have hmem : (⟨dev, 2 + z.imapBlocks⟩ : Key) ∈
      mapKeys dev (2 + z.imapBlocks) z.zmapBlocks ++ (mapKeys dev 2 z.imapBlocks ++ [⟨dev, 1⟩]) :=
    List.mem_append_left _ (mapKeys_mem (j := 0) hz)
  refine (h₂.formatRoot (T := T) hb hv hfit hd hl rfl (fun _ => lowestFree_bitmaps hfit hd height hne) hmem).mono
    fun _ t ht => ?_
  refine ht.weaken rfl rfl rfl (List.Perm.refl _) (List.nil_subset _) (fun k => ?_) ?_
  · rw [Sizes.writes, ← hzone]
    exact Iff.rfl
  · rw [← hzone]
    exact List.Subset.refl _

end Rules

/-- Kernel code in a call comes to its end. -/
theorem comes_lift {α : Type} {c : Code α} {S T : System} {Q : α → Kernel → Prop}
    (hS : S = { T with kernel := S.kernel }) (h : Comes c S.kernel Q) :
    Comes (onKernel c) S fun a S' => S' = { T with kernel := S'.kernel } ∧ Q a S'.kernel :=
  comes_zoom fits_kernel (h.mono fun a k hq => ⟨by rw [hS], hq⟩)

/-- The buffers of a super block are given back. -/
theorem comes_bufs {s₀ : Kernel} {p : Picture} {S : System} (hb : s₀.Balanced) (h : Shows s₀ p S.kernel)
    (hlate : ∀ k ∈ p.held, k ∈ p.late) {l : List Key} (hl : p.held.Perm l) :
    Comes (l.forM fun k => onKernel (brelse k)) S fun _ S' =>
      S' = { S with kernel := S'.kernel } ∧ ∃ st, (∀ k, k ∈ p.held ∨ k ∈ p.stored → k ∈ st) ∧
        Shows s₀ { p with held := [], dirty := [], stored := st } S'.kernel := by
  -- the references that are left are those of the buffers to come
  have hloop := comes_list (f := fun k => onKernel (brelse k)) (l := l) (s := S) (I := fun rest S' =>
    S' = { S with kernel := S'.kernel } ∧ (∀ k ∈ rest, k ∈ p.late) ∧ ∃ st,
      (∀ k, k ∈ p.held ∨ k ∈ p.stored → k ∈ rest ∨ k ∈ st) ∧
        Shows s₀ { p with held := rest, dirty := [], stored := st } S'.kernel) ?_ ?_
  · refine hloop.mono fun _ S' hS => ?_
    obtain ⟨he, -, st, hst, hs⟩ := hS
    exact ⟨he, st, fun k hk => (hst k hk).resolve_left List.not_mem_nil, hs⟩
  · refine ⟨rfl, fun k hk => hlate k (hl.symm.subset hk), p.stored,
      fun k hk => hk.imp_left fun hm => hl.subset hm, ?_⟩
    exact h.weaken rfl rfl rfl hl (List.nil_subset _) (fun _ => Iff.rfl) (List.Subset.refl _)
  · intro k rest S' hS
    obtain ⟨he, hrest, st, hst, hs⟩ := hS
    refine comes_zoom fits_kernel ((hs.brelse hb List.mem_cons_self (hrest k List.mem_cons_self)).mono
      fun _ t ht => ?_)
    refine ⟨by rw [he], fun k' hk' => hrest k' (List.mem_cons_of_mem _ hk'), k :: st, fun k' hk' => ?_, ?_⟩
    · rcases hst k' hk' with hm | hm
      · obtain rfl | hm := List.mem_cons.mp hm
        · exact .inr List.mem_cons_self
        · exact .inl hm
      · exact .inr (List.mem_cons_of_mem _ hm)
    · refine ht.weaken rfl rfl rfl ?_ (List.nil_subset _) (fun _ => Iff.rfl) (List.Subset.refl _)
      show (List.erase (k :: rest) k).Perm rest
      rw [List.erase_cons_head]

/-- `put_super` of the last reference, while the root directory is in memory. -/
theorem comes_putSuper {s₀ : Kernel} {p : Picture} {S : System} {T : Tables} {dev : Int} {i x : Nat} {sb : SuperBlock}
    {ino : Inode} {l : List Key} (hb : s₀.Balanced) (h : Shows s₀ p S.kernel) (hv : Vacancy T dev i x)
    (htab : p.tab = T.making i x sb ino) (hl : sb.inodeList = [x]) (hmount : sb.imount = none)
    (hroot : sb.iroot = some x) (hpipe : ino.pipe = false) (hcount : ino.count = 1) (hheld : p.held = ino.buf :: l)
    (hbufs : l.Perm sb.bufs) (hlate : ∀ k ∈ p.held, k ∈ p.late) (hsuper : S.superCount i = 1) :
    Comes (putSuper (some i)) S fun _ S' =>
      S' = { S with kernel := S'.kernel, superCount := Function.update S.superCount i 0 } ∧
      ∃ st, (∀ k, k ∈ p.held ∨ k ∈ p.stored → k ∈ st) ∧ Shows s₀ { p with
        tab := T.making i x { sb with dev := devEOF, inodeList := [] } { ino with dev := devEOF, count := 0 }
        held := []
        dirty := []
        stored := st } S'.kernel := by
  refine comes_bind (comes_reads (Q := fun n S' => n = 1 ∧ S' = S) ⟨hsuper, rfl⟩) fun n S₁ h₁ => ?_
  obtain ⟨rfl, rfl⟩ := h₁
  have hassert : Comes (assert (decide (1 > 0))) S₁.kernel fun _ k => Shows s₀ p k := h.check rfl
  refine comes_bind (comes_lift (T := S₁) rfl hassert) fun _ S₂ h₂ => ?_
  obtain ⟨he, hs⟩ := h₂
  set S₀ : System := { S₁ with superCount := Function.update S₁.superCount i 0 } with hS₀
  refine comes_bind (comes_modify (Q := fun _ S' => S' = { S₀ with kernel := S'.kernel } ∧ Shows s₀ p S'.kernel)
    ⟨by rw [he], hs⟩) fun _ S₃ h₃ => ?_
  obtain ⟨he, hs⟩ := h₃
  refine comes_bind (comes_reads (Q := fun n S' => n = 0 ∧ S' = S₃) ⟨?_, rfl⟩) fun n S₄ h₄ => ?_
  · rw [he]
    exact Function.update_self ..
  obtain ⟨rfl, rfl⟩ := h₄
  refine comes_neg (by decide) ?_
  -- the super block's slot is free, what it points to is given back
  refine comes_bind (comes_lift he (hs.superAt i)) fun a S₅ h₅ => ?_
  obtain ⟨he, hsb, hs⟩ := h₅
  rw [htab, making_super] at hsb
  subst hsb
  refine comes_bind (comes_lift he (hs.onSuper htab _)) fun _ S₆ h₆ => ?_
  obtain ⟨he, hs⟩ := h₆
  rw [hmount, hroot]
  refine comes_bind (comes_lift he (comes_pure (Q := fun _ k => Shows s₀ _ k) hs)) fun _ S₇ h₇ => ?_
  obtain ⟨he, hs⟩ := h₇
  have hheld' : ino.buf ∈ p.held := by
    rw [hheld]
    exact List.mem_cons_self
  have hlist : ({ a with dev := devEOF } : SuperBlock).inodeList = [x] := hl
  refine comes_bind (comes_lift he (hs.iput hb hv hlist rfl hpipe hcount hheld' (hlate _ hheld'))) fun _ S₈ h₈ => ?_
  obtain ⟨he, hs⟩ := h₈
  refine (comes_bufs hb hs (fun k hk => hlate k (List.erase_subset hk)) ?_).mono fun _ S' hS => ?_
  · show (p.held.erase ino.buf).Perm _
    rw [hheld, List.erase_cons_head]
    exact hbufs
  · obtain ⟨he', st, hst, hs'⟩ := hS
    simp only [hmount, hroot] at hs'
    refine ⟨?_, st, fun k hk => hst k ?_, hs'⟩
    · rw [he', he]
    · show k ∈ p.held.erase ino.buf ∨ k ∈ ino.buf :: p.stored
      rw [hheld, List.erase_cons_head, List.mem_cons]
      rw [hheld, List.mem_cons] at hk
      tauto

/-- **A volume has been made** on `dev`, with `n` inodes: what the blocks show is on the device, nothing else
    there has changed, and neither a buffer nor a slot is in use that was not before. -/
structure Made (dev : Int) (i x n : Nat) (z : Sizes) (S S' : System) : Prop where
  view : S'.kernel.view = z.made S.kernel.view dev n (S.kernel.tab.task S.kernel.tab.running)
    (S.kernel.clock S.kernel.tick)
  stored : ∀ k ∈ z.writes S.kernel.view dev, S'.kernel.cache.disk k = S'.kernel.view k
  kept : ∀ k ∉ z.writes S.kernel.view dev, S'.kernel.cache.disk k = S.kernel.cache.disk k
  counts : ∀ k, (S'.kernel.cache.buf k).count = (S.kernel.cache.buf k).count
  tab : S'.kernel.tab = S.kernel.tab.making i x
    { z.superBlock (S.kernel.tab.superTable i) with dev := devEOF, inodeList := [], iroot := some x, imount := none }
    { S.kernel.tab.inodeTable x with dev := devEOF, nr := 1, buf := z.rootKey dev, desc := 0, count := 0 }
  clock : S'.kernel.clock = S.kernel.clock
  tick : S'.kernel.tick = S.kernel.tick + 1
  rest : S' = { S with kernel := S'.kernel, superCount := Function.update S.superCount i 0 }

theorem devmkfs_comes {S : System} {dev : Int} {i x totalBlock icount n : Nat} (hb : S.kernel.Balanced)
    (hv : Vacancy S.kernel.tab dev i x) (hlt : icount < totalBlock) (hn : inodeCount totalBlock icount = n)
    (hfit : (sizes totalBlock n).Fit totalBlock n) (height : 8 ≤ (sizes totalBlock n).zcount.toNat)
    (hne : (sizes totalBlock n).zcount.toNat ≠ BLOCK_BITS) :
    Comes (devmkfs dev totalBlock icount) S fun ok S' => ok = true ∧ Made dev i x n (sizes totalBlock n) S S' := by
  set T := S.kernel.tab
  set z := sizes totalBlock n
  have hassert : ∀ c : Bool, c = true → Comes (assert c) S.kernel fun _ k => k = S.kernel := fun c hc =>
    comes_check hc rfl
  refine comes_bind (comes_lift (T := S) rfl (hassert _ (decide_eq_true (by omega)))) fun _ S₁ h₁ => ?_
  obtain rfl : S₁ = S := by rw [h₁.1, h₁.2]
  refine comes_bind (comes_lift (T := S₁) rfl (hassert _ (decide_eq_true hlt))) fun _ S₂ h₂ => ?_
  obtain rfl : S₂ = S₁ := by rw [h₂.1, h₂.2]
  -- the super block's slot
  have hsuper : Comes getFreeSuper S₂.kernel fun j k => j = i ∧ k = S₂.kernel :=
    comes_bind (comes_reads (Q := fun U k => U = T ∧ k = S₂.kernel) ⟨rfl, rfl⟩) fun U k hU =>
      comes_need (by rw [hU.1]; exact hv.super) ⟨rfl, hU.2⟩
  refine comes_bind (comes_lift (T := S₂) rfl hsuper) fun j S₃ h₃ => ?_
  obtain ⟨he, rfl, hk⟩ := h₃
  obtain rfl : S₃ = S₂ := by rw [he, hk]
  set sb : SuperBlock := { T.superTable j with dev := dev }
  set s : Kernel := { S₃.kernel with tab := T.making j x sb (T.inodeTable x) }
  have htake : Comes (onSuper j fun sb => { sb with dev := dev }) S₃.kernel fun _ k => k = s :=
    comes_modify (congrArg (fun U => { S₃.kernel with tab := U }) setSuper_eq_making)
  refine comes_bind (comes_lift (T := S₃) rfl htake) fun _ S₄ h₄ => ?_
  set S₅ : System := { S₃ with kernel := s, superCount := Function.update S₃.superCount j 1 }
  refine comes_bind (comes_modify (Q := fun _ S' => S' = S₅) (by rw [h₄.1, h₄.2])) fun _ S' hS' => ?_
  obtain rfl := hS'
  rw [hn]
  have hformat := Kernel.formats (s := s) hb hv hfit height hne (show sb.dev = dev from rfl) hv.inodeList rfl
  refine comes_bind (comes_lift (T := S₅) rfl hformat) fun _ S₆ h₆ => ?_
  obtain ⟨he, hs⟩ := h₆
  -- everything that was read is given back
  have hbufs : (mapKeys dev (2 + z.imapBlocks) z.zmapBlocks ++ (mapKeys dev 2 z.imapBlocks ++ [(⟨dev, 1⟩ : Key)])).Perm
      (mapKeys dev 2 z.imapBlocks ++ mapKeys dev (2 + z.imapBlocks) z.zmapBlocks ++ [⟨dev, 1⟩]) := by
    rw [List.append_assoc]
    exact List.perm_append_comm_assoc ..
  have hb' : s.Balanced := hb
  have hput := comes_putSuper hb' hs hv rfl rfl hv.imount rfl hv.pipe rfl rfl hbufs
    (fun k hk => List.mem_of_mem_tail hk) (by rw [he]; exact Function.update_self ..)
  refine comes_bind hput fun _ S' hS => comes_pure ⟨rfl, ?_⟩
  obtain ⟨he', st, hst, hs'⟩ := hS
  refine ⟨hs'.view, fun k hk => ?_, hs'.kept, fun k => ?_, ?_, hs'.clock, hs'.tick, ?_⟩
  · have hmem : k ∈ st := hst k
      ((List.mem_cons.mp hk).elim (fun e => .inr (by rw [e]; exact List.mem_cons_self)) .inl)
    rw [hs'.stored k hmem, hs'.view]
  · rw [hs'.held k]
    exact Int.add_zero _
  · rw [hs'.tab]
    simp only [sb, Sizes.superBlock, hv.imount]
    rfl
  · refine he'.trans ?_
    rw [he]
    show { S₃ with
      kernel := S'.kernel
      superCount := Function.update (Function.update S₃.superCount j 1) j 0 } = _
    rw [Function.update_idem]

end Yuios
