/-
  File:      Yuios/Fs/OwnershipRun.lean
  Subject:   WHO OWNS A ZONE, OVER WHOLE RUNS: `inode_write`, `inode_truncate`, and runs of them.

  `bmap` takes an index block as `balloc` hands it out. `devmkfs` clears what it takes with
  `memset`; here nothing is cleared, so the entries of the new index block are whatever the block
  held when it was freed, and they are followed as if they were zones of this file.

  * `inodeWrite_moves`, `inodeTruncate_moves` -- the calls keep a volume consistent when every
    block that becomes an index block is blank.
  * `consistent_run` -- the runs whose steps all meet the condition.
-/
import Yuios.Fs.Ownership
import Yuios.Fs.Sample

namespace Yuios

open Lib Prog Code

namespace Volume

variable {v : Volume} {x nr : Nat} {s t : Kernel}

/-! ## 1. What a call of one inode starts from -/

/-- `x` holds inode `nr` of the volume in memory, a file or directory of a consistent volume. -/
structure Ready (v : Volume) (x nr : Nat) (s : Kernel) : Prop where
  mounted : v.Mounted s.tab
  loaded : v.Loaded s.tab x nr
  consistent : v.Consistent s.view
  owns : v.Owns s.view nr

/-- The tables are the same, and the volume has what it had. -/
structure Moves (v : Volume) (s t : Kernel) : Prop where
  tab : t.tab = s.tab
  view : v.Extends s.view t.view

theorem Moves.trans {u : Kernel} (h : v.Moves s t) (h' : v.Moves t u) : v.Moves s u :=
  ⟨h'.tab.trans h.tab, h.view.trans h'.view⟩

theorem Ready.next (h : v.Ready x nr s) (hm : v.Moves s t) : v.Ready x nr t where
  mounted := hm.tab ▸ h.mounted
  loaded := hm.tab ▸ h.loaded
  consistent := hm.view.consistent
  owns := hm.view.owns h.owns

theorem moves_of_same (hc : v.Consistent s.view) (h : Same s t) : v.Moves s t := by
  refine ⟨h.tab, ?_⟩
  have hview : t.view = s.view := h.view
  rw [hview]
  exact .refl hc

/-- A field between the mode and `zone[]` is written. -/
theorem descSet_moves (h : v.Ready x nr s) (f : Field) (n : Nat) (h2 : 2 ≤ f.off)
    (h14 : f.off + f.width ≤ 14) {C : List Frame → Kernel → Prop} {u : Unit}
    (hr : Runs C (descSet x f n) s u t) : v.Moves s t := by
  rw [runs_descSet] at hr
  subst hr
  refine ⟨rfl, .of_head h.consistent h.owns.pos h.owns.lt (fun k hk => ?_) fun o ho => ?_⟩
  · rw [h.loaded.buf]
    exact Kernel.view_poke_of_ne _ _ hk
  · rw [h.loaded.buf, Kernel.view_poke_self, h.loaded.desc]
    exact store_of_ne (by omega)

/-! ## 2. `inode_write` -/

section Write

theorem growSize_moves (h : v.Ready x nr s) {e : Nat} {C : List Frame → Kernel → Prop} {u : Unit}
    (hr : Runs C (growSize x e) s u t) : v.Moves s t := by
  obtain ⟨size, s₁, h₁, hr⟩ := runs_bind.mp hr
  rw [runs_descGet] at h₁
  obtain ⟨-, rfl⟩ := h₁
  rcases runs_ite.mp hr with ⟨-, hr⟩ | ⟨-, -, rfl⟩
  · obtain ⟨_, s₂, h₂, hr⟩ := runs_bind.mp hr
    have hm := descSet_moves h .size e (by decide) (by decide) h₂
    exact hm.trans (moves_of_same hm.view.consistent (inodeDirty_same x _ _ _ hr.ends))
  · exact moves_of_same h.consistent (.refl s)

/-- **One round of `inode_write`.** -/
theorem inodeWriteRound_moves (h : v.Ready x nr s) {left offset n : Nat} {buf : Bytes}
    (hr : Runs Supplied (inodeWriteRound x left offset buf) s n t) : v.Moves s t := by
  obtain ⟨z, s₁, h₁, hr⟩ := runs_bind.mp hr
  obtain ⟨htab, hg, -, hne, hz⟩ := bmap_grows h₁ h.mounted h.loaded h.consistent h.owns
  have hm₁ : v.Moves s s₁ := ⟨htab, hg.toExtends⟩
  obtain ⟨p, r, hl, hv⟩ := hz (hne rfl)
  have hp := hl.slot (hm₁.view.owns h.owns)
  obtain ⟨_, s₂, h₂, hr⟩ := runs_bind.mp hr
  rw [runs_assert] at h₂
  obtain ⟨-, rfl⟩ := h₂
  obtain ⟨i, s₃, ⟨rfl, rfl⟩, hr⟩ := runs_bind.mp hr
  obtain ⟨bf, s₄, h₄, hr⟩ := runs_bind.mp hr
  obtain ⟨_, s₅, h₅, hr⟩ := runs_bind.mp hr
  have hready₁ := h.next hm₁
  have hbf : bf = ⟨v.dev, z⟩ := by
    rw [bread_key h₄]
    exact congrArg (Key.mk · z) hready₁.loaded.dev
  have hs : Same s₁ s₅ := (bread_same _ _ _ _ _ h₄.ends).trans (setDirty_same bf _ _ _ h₅.ends)
  have hm₅ := moves_of_same hready₁.consistent hs
  obtain ⟨_, s₆, h₆, hr⟩ := runs_bind.mp hr
  have hm₆ := growSize_moves (hready₁.next hm₅) h₆
  -- the block written to is still the one of the data zone `bmap` has answered
  have hm := hm₅.trans hm₆
  obtain ⟨_, s₇, h₇, hr⟩ := runs_bind.mp hr
  rw [runs_poke] at h₇
  have hm₇ : v.Moves s₆ s₇ := by
    subst h₇
    refine ⟨rfl, .of_data hm.view.consistent (hm.view.slot hp) (hm.view.val hp hv) fun k hk => ?_⟩
    exact Kernel.view_poke_of_ne _ _ (hbf ▸ hk)
  obtain ⟨_, s₈, h₈, -, rfl⟩ := runs_bind.mp hr
  have hm₈ := moves_of_same hm₇.view.consistent (brelse_same bf _ _ _ (runs_within.mp h₈).ends)
  exact ((hm₁.trans hm).trans hm₇).trans hm₈

theorem inodeWriteLoop_moves (h : v.Ready x nr s) {fuel left offset n : Nat} {buf : Bytes}
    (hr : Runs Supplied (inodeWriteLoop x fuel left offset buf) s n t) : v.Moves s t := by
  induction fuel generalizing left offset buf s with
  | zero =>
    obtain ⟨-, rfl⟩ := hr
    exact moves_of_same h.consistent (.refl s)
  | succ fuel ih =>
    rcases runs_ite.mp hr with ⟨-, -, rfl⟩ | ⟨-, hr⟩
    · exact moves_of_same h.consistent (.refl s)
    · obtain ⟨chars, s₁, h₁, hr⟩ := runs_bind.mp hr
      have hm := inodeWriteRound_moves h h₁
      exact hm.trans (ih (h.next hm) hr)

/-- The modification time, stored at the end of a call. -/
theorem storeMtime_moves (h : v.Ready x nr s) {C : List Frame → Kernel → Prop} {α : Type} {a : α}
    {f : Inode → Code α} (hf : ∀ i, Obeys Same (f i))
    (hr : Runs C (do
      let now ← time
      descSet x .mtime now
      let i ← inodeAt x
      f i) s a t) : v.Moves s t := by
  obtain ⟨now, s₁, h₁, hr⟩ := runs_bind.mp hr
  rw [runs_time] at h₁
  obtain ⟨-, rfl⟩ := h₁
  have hready : v.Ready x nr { s with tick := s.tick + 1 } := ⟨h.1, h.2, h.3, h.4⟩
  obtain ⟨_, s₂, h₂, hr⟩ := runs_bind.mp hr
  have hm := descSet_moves hready .mtime now (by decide) (by decide) h₂
  obtain ⟨i, s₃, ⟨rfl, rfl⟩, hr⟩ := runs_bind.mp hr
  have hs := moves_of_same hm.view.consistent (hf _ _ _ _ hr.ends)
  exact ⟨hs.tab.trans hm.tab, hm.view.trans hs.view⟩

/-- **`inode_write`.** -/
theorem inodeWrite_moves (h : v.Ready x nr s) {len offset n : Nat} {buf : Bytes}
    (hr : Runs Supplied (inodeWrite x buf len offset) s n t) : v.Moves s t := by
  obtain ⟨mode, s₁, h₁, hr⟩ := runs_bind.mp hr
  rw [runs_descGet] at h₁
  obtain ⟨-, rfl⟩ := h₁
  obtain ⟨_, s₂, h₂, hr⟩ := runs_bind.mp hr
  rw [runs_assert] at h₂
  obtain ⟨-, rfl⟩ := h₂
  obtain ⟨offset', s₃, h₃, hr⟩ := runs_bind.mp hr
  have hm := inodeWriteLoop_moves h h₃
  exact hm.trans (storeMtime_moves (h.next hm) (fun i =>
    obeys_bind (bwrite_same i.buf) fun _ => obeys_pure _) hr)

end Write

/-! ## 3. `inode_truncate` -/

/-- The tables and everything outside the zone bitmap are the same; the bits of the zones `Z` have
    been cleared. -/
structure Frees (v : Volume) (s t : Kernel) (Z : Nat → Prop) : Prop where
  tab : t.tab = s.tab
  other : ∀ k : Key, k.block < 2 + v.imapBlocks ∨ 2 + v.imapBlocks + v.zmapBlocks ≤ k.block →
    t.view k = s.view k
  bit : ∀ z, v.firstdatazone ≤ z + 1 → z < v.zones →
    (v.zoneSet t.view z = true ↔ v.zoneSet s.view z = true ∧ ¬ Z z)

section Frees

variable {Z Z' : Nat → Prop} {u : Kernel}

theorem frees_of_same (h : Same s t) : v.Frees s t fun _ => False := by
  have hview : t.view = s.view := h.view
  exact ⟨h.tab, fun k _ => by rw [hview], fun z _ _ => by simp [hview]⟩

theorem Frees.trans (h : v.Frees s t Z) (h' : v.Frees t u Z') :
    v.Frees s u fun z => Z z ∨ Z' z := by
  refine ⟨h'.tab.trans h.tab, fun k hk => (h'.other k hk).trans (h.other k hk), fun z h1 h2 => ?_⟩
  rw [h'.bit z h1 h2, h.bit z h1 h2, and_assoc, not_or]

theorem Frees.congr (h : v.Frees s t Z) (hZ : ∀ z, Z z ↔ Z' z) : v.Frees s t Z' :=
  ⟨h.tab, h.other, fun z h1 h2 => by rw [h.bit z h1 h2, hZ z]⟩

/-- A loop whose rounds each free the zones of one entry. -/
theorem frees_forM {C : List Frame → Kernel → Prop} {f : Nat → Code Unit} {Z : Nat → Nat → Prop}
    (P : Kernel → Prop) (hP : ∀ s t Z, P s → v.Frees s t Z → P t) (l : List Nat)
    (hf : ∀ i ∈ l, ∀ s u t, P s → Runs C (f i) s u t → v.Frees s t (Z i)) {r : PUnit}
    (hs : P s) (h : Runs C (l.forM f) s r t) : v.Frees s t fun z => ∃ i ∈ l, Z i z := by
  induction l generalizing s with
  | nil =>
    obtain ⟨-, rfl⟩ := h
    exact (frees_of_same (.refl s)).congr fun z => by simp
  | cons i l ih =>
    obtain ⟨_, s₁, h₁, h⟩ := runs_bind.mp (show Runs C (f i >>= fun _ => l.forM f) s r t from h)
    have hi := hf i (List.mem_cons_self ..) _ _ _ hs h₁
    have hl := ih (fun j hj => hf j (List.mem_cons_of_mem i hj)) (hP _ _ _ hs hi) h
    exact (hi.trans hl).congr fun z => by simp

end Frees

theorem not_under_of_zero {w : View} {level : Nat} {p : Place} {z : Nat} (h : word w p = 0) :
    ¬ (v.forest w).Under level p z := by
  intro hu
  cases hu with
  | here hv => exact (val_eq.mp hv).2 ((val_eq.mp hv).1.symm.trans h)
  | deep hv => exact (val_eq.mp hv).2 ((val_eq.mp hv).1.symm.trans h)

theorem under_zero {w : View} {p : Place} {z : Nat} (h : word w p ≠ 0) :
    (v.forest w).Under 0 p z ↔ z = word w p := by
  constructor
  · intro hu
    cases hu with
    | here hv => exact (val_eq.mp hv).1.symm
  · rintro rfl
    exact .here (val_eq.mpr ⟨rfl, h⟩)

theorem under_succ {w : View} {level : Nat} {p : Place} {z : Nat} (h : word w p ≠ 0) :
    (v.forest w).Under (level + 1) p z ↔
      (∃ j ∈ List.range BLOCK_INDEXES, (v.forest w).Under level (v.indexPlace (word w p) j) z) ∨
        z = word w p := by
  constructor
  · intro hu
    cases hu with
    | here hv => exact .inr (val_eq.mp hv).1.symm
    | deep hv hi hu =>
      obtain ⟨j, hj, rfl⟩ := hi
      rw [← (val_eq.mp hv).1] at hu
      exact .inl ⟨j, List.mem_range.mpr hj, hu⟩
  · rintro (⟨j, hj, hu⟩ | rfl)
    · exact .deep (val_eq.mpr ⟨rfl, h⟩) ⟨j, List.mem_range.mp hj, rfl⟩ hu
    · exact .here (val_eq.mpr ⟨rfl, h⟩)

theorem bfree_frees {C : List Frame → Kernel → Prop} {z : Nat} {u : Unit} (hm : v.Mounted s.tab)
    (h : Runs C (bfree v.dev z) s u t) : v.Frees s t fun y => y = z := by
  obtain ⟨htab, hlow, hlt, hview⟩ := bfree_view hm h
  refine ⟨htab, fun k hk => ?_, fun y h1 h2 => ?_⟩
  · rw [hview]
    exact setZone_of_ne hlt hlow hk
  · rw [hview, zoneSet_setZone hlow h1]
    by_cases e : y = z <;> simp [e]

/-- What `inode_bfree` reads: the volume `w` as it was, but for the zone bitmap. -/
structure Reads (v : Volume) (w : View) (s : Kernel) : Prop where
  mounted : v.Mounted s.tab
  other : ∀ k : Key, 2 + v.imapBlocks + v.zmapBlocks ≤ k.block → s.view k = w k

theorem Reads.next {w : View} {Z : Nat → Prop} (h : v.Reads w s) (hf : v.Frees s t Z) :
    v.Reads w t :=
  ⟨hf.tab ▸ h.mounted, fun k hk => (hf.other k (.inr hk)).trans (h.other k hk)⟩

theorem Reads.word {w : View} (h : v.Reads w s) (hc : v.Consistent w) {l : Nat} {p : Place}
    (hp : (v.forest w).Slot l p) : fetch (s.view p.1) p.2 2 = word w p := by
  rw [h.other _ (slot_place hc hp).1]
  rfl

set_option linter.constructorNameAsVariable false in
/-- **`inode_bfree`** frees what hangs below the slot. -/
theorem inodeBfree_frees {C : List Frame → Kernel → Prop} {w : View} (hc : v.Consistent w)
    {level slot : Nat} {buf : Key} {u : Unit} (hr : v.Reads w s)
    (hp : (v.forest w).Slot level (buf, slot))
    (h : Runs C (inodeBfree v.dev level buf slot) s u t) :
    v.Frees s t ((v.forest w).Under level (buf, slot)) := by
  induction level generalizing buf slot s u t with
  | zero =>
    obtain ⟨b, s₁, ⟨rfl, rfl⟩, h⟩ := runs_bind.mp h
    have hw := hr.word hc hp
    dsimp only at h hw
    rw [hw] at h
    rcases runs_ite.mp h with ⟨hz, -, rfl⟩ | ⟨hz, h⟩
    · exact (frees_of_same (.refl s)).congr fun z => iff_of_false id (not_under_of_zero hz)
    · exact (bfree_frees hr.mounted h).congr fun z => (under_zero hz).symm
  | succ level ih =>
    obtain ⟨b, s₁, ⟨rfl, rfl⟩, h⟩ := runs_bind.mp h
    have hw := hr.word hc hp
    dsimp only at h hw
    rw [hw] at h
    rcases runs_ite.mp h with ⟨hz, -, rfl⟩ | ⟨hz, h⟩
    · exact (frees_of_same (.refl s)).congr fun z => iff_of_false id (not_under_of_zero hz)
    · obtain ⟨sub, s₂, h₂, h⟩ := runs_bind.mp h
      have hsub := bread_key h₂
      have hf₂ := frees_of_same (v := v) (bread_same _ _ _ _ _ h₂.ends)
      -- the list of the loop is kept folded
      generalize hl : List.range BLOCK_INDEXES = l at h
      obtain ⟨_, s₃, h₃, h⟩ := runs_bind.mp h
      have hf₃ := frees_forM (Z := fun j => (v.forest w).Under level
        (v.indexPlace (word w (buf, slot)) j)) (v.Reads w) (fun _ _ _ hr hf => hr.next hf)
        l (fun j hj s u t hr h => ?_) (hr.next hf₂) h₃
      · obtain ⟨_, s₄, h₄, h⟩ := runs_bind.mp h
        have hf₄ := frees_of_same (v := v) (brelse_same _ _ _ _ h₄.ends)
        obtain ⟨b, s₅, ⟨rfl, rfl⟩, h⟩ := runs_bind.mp h
        have hr₄ := ((hr.next hf₂).next hf₃).next hf₄
        have hw₄ := hr₄.word hc hp
        dsimp only at h hw₄
        rw [hw₄] at h
        have hf₅ := bfree_frees hr₄.mounted h
        refine (((hf₂.trans hf₃).trans hf₄).trans hf₅).congr fun z => ?_
        rw [under_succ hz, hl]
        simp
      · subst hsub
        rw [← hl] at hj
        exact ih hr (.inside hp (val_eq.mpr ⟨rfl, hz⟩) ⟨j, List.mem_range.mp hj, rfl⟩) h

/-- **A slot is cut off**: the zones below it have been freed, and it is cleared. -/
theorem Consistent.cut {w w' : View} (h : v.Consistent w) {l : Nat} {p : Place}
    (hp : (v.forest w).Slot l p)
    (hw : ∀ k : Key, k.block < 2 + v.imapBlocks ∨ 2 + v.imapBlocks + v.zmapBlocks ≤ k.block →
      w' k = putWord w p 0 k)
    (hbit : ∀ z, v.firstdatazone ≤ z + 1 → z < v.zones →
      (v.zoneSet w' z = true ↔ v.zoneSet w z = true ∧ ¬ (v.forest w).Under l p z)) :
    v.Consistent w' where
  owned := by
    refine h.owned.cut (forest_laid v w) used_node ?_ fun z hz hn =>
      ⟨hz.first, hz.lt, (hbit z (Nat.le_succ_of_le hz.first) hz.lt).mpr ⟨hz.set, hn⟩⟩
    refine ⟨?_, fun _ _ hi => hi, hp, ?_, fun l q hq hne => val_congr ?_⟩
    · rintro l q ⟨nr, i, ho, hi⟩
      have hroom := inodeKey_block ho.pos ho.lt
      refine ⟨nr, i, ho.congr (inodeSet_congr ho.lt fun k hk => ?_) ?_, hi⟩
      · have := (slot_place h hp).1
        rw [hw k (.inl (by omega))]
        exact putWord_of_ne fun e => by rw [e] at hk; omega
      · rw [desc_congr (hw _ (.inr hroom.1)), desc_putWord h hp ho.pos ho.lt (by decide)]
    · rw [val_none, word_congr (hw _ (.inr (slot_place h hp).1))]
      exact word_putWord_self (by decide)
    · rw [word_congr (hw _ (.inr (slot_place h hq).1))]
      exact word_putWord_of_ne (slot_place h hp).2 (slot_place h hq).2 hne
  reserved := by
    have := v.data
    have hpos := firstdatazone_pos v
    refine (hbit _ (by omega) (by omega)).mpr ⟨h.reserved, fun hu => ?_⟩
    have := (hu.inUse h.owned hp).first
    omega

/-- What truncation leaves of the volume: the tables, every block but the zone bitmap and the
    inode's own, and of the descriptor everything but the size, the time and `zone[]`. -/
structure Trims (v : Volume) (nr : Nat) (s t : Kernel) : Prop where
  tab : t.tab = s.tab
  consistent : v.Consistent t.view
  other : ∀ k : Key, k.block < 2 + v.imapBlocks ∨ 2 + v.imapBlocks + v.zmapBlocks ≤ k.block →
    k ≠ v.inodeKey nr → t.view k = s.view k
  own : ∀ o, o < descOff nr + 4 ∨ (descOff nr + 12 ≤ o ∧ o < descOff nr + 14) ∨
    descOff nr + 32 ≤ o → t.view (v.inodeKey nr) o = s.view (v.inodeKey nr) o

theorem Trims.trans {u : Kernel} (h : v.Trims nr s t) (h' : v.Trims nr t u) : v.Trims nr s u :=
  ⟨h'.tab.trans h.tab, h'.consistent, fun k hk hne => (h'.other k hk hne).trans (h.other k hk hne),
    fun o ho => (h'.own o ho).trans (h.own o ho)⟩

theorem trims_of_same (hc : v.Consistent s.view) (h : Same s t) : v.Trims nr s t := by
  have hview : t.view = s.view := h.view
  refine ⟨h.tab, hview ▸ hc, fun k _ _ => by rw [hview], fun o _ => by rw [hview]⟩

theorem Ready.trim (h : v.Ready x nr s) (ht : v.Trims nr s t) : v.Ready x nr t := by
  have hb := inodeKey_block h.owns.pos h.owns.lt
  refine ⟨ht.tab ▸ h.mounted, ht.tab ▸ h.loaded, ht.consistent, h.owns.congr ?_ ?_⟩
  · refine (inodeSet_congr h.owns.lt fun k hk => ht.other k (.inl (by omega)) fun e => ?_).symm
    rw [e] at hk
    omega
  · refine (fetch_congr fun o h1 h2 => ht.own o (.inl ?_)).symm
    unfold Field.mode at h2
    dsimp only at h2
    omega

theorem zonePlace_even (v : Volume) (nr i : Nat) : (v.zonePlace nr i).2 % 2 = 0 := by
  unfold zonePlace descOff Field.zone
  dsimp only
  omega

theorem zonePlace_inj {i j : Nat} (h : v.zonePlace nr i = v.zonePlace nr j) : i = j := by
  have := congrArg Prod.snd h
  unfold zonePlace Field.zone at this
  dsimp only at this
  omega

/-- Truncation on its way: the entries `I` of `zone[]` are clear, and so are the ones that were. -/
structure Clears (v : Volume) (nr : Nat) (I : Nat → Prop) (s t : Kernel) : Prop
    extends Trims v nr s t where
  zero : ∀ i, I i ∨ word s.view (v.zonePlace nr i) = 0 → word t.view (v.zonePlace nr i) = 0

theorem Clears.trans {I J : Nat → Prop} {u : Kernel} (h : v.Clears nr I s t)
    (h' : v.Clears nr J t u) : v.Clears nr (fun i => I i ∨ J i) s u := by
  refine ⟨h.toTrims.trans h'.toTrims, fun i hi => h'.zero i ?_⟩
  rcases hi with (hi | hj) | hz
  · exact .inr (h.zero i (.inl hi))
  · exact .inl hj
  · exact .inr (h.zero i (.inr hz))

theorem Clears.mono {I J : Nat → Prop} (h : v.Clears nr I s t) (hI : ∀ i, J i → I i) :
    v.Clears nr J s t :=
  ⟨h.toTrims, fun i hi => h.zero i (hi.imp_left (hI i))⟩

theorem clears_of_same (hc : v.Consistent s.view) (h : Same s t) :
    v.Clears nr (fun _ => False) s t := by
  have hview : t.view = s.view := h.view
  refine ⟨trims_of_same hc h, fun i hi => ?_⟩
  rw [hview]
  exact hi.resolve_left id

/-- **One entry of `zone[]`** is freed and cleared. -/
theorem truncateZone_clears (h : v.Ready x nr s) {C : List Frame → Kernel → Prop} {level i : Nat}
    (hi : i < 9) (hl : level = zoneLevel i) {u : Unit}
    (hr : Runs C (truncateZone x level i) s u t) :
    v.Clears nr (· = i) s t := by
  obtain ⟨ino, s₁, ⟨rfl, rfl⟩, hr⟩ := runs_bind.mp hr
  obtain ⟨_, s₂, h₂, hr⟩ := runs_bind.mp hr
  have hx := h.loaded
  dsimp only at h₂
  rw [hx.dev, hx.buf, hx.desc] at h₂
  have hp : (v.forest s.view).Slot level (v.zonePlace nr i) := .root ⟨nr, i, h.owns, hi, hl, rfl⟩
  have hf : v.Frees s s₂ ((v.forest s.view).Under level (v.zonePlace nr i)) :=
    inodeBfree_frees h.consistent ⟨h.mounted, fun _ _ => rfl⟩ hp h₂
  rw [runs_descSet, hf.tab, hx.buf, hx.desc] at hr
  obtain ⟨hlow, hhigh⟩ := inodeKey_block h.owns.pos h.owns.lt
  have hview : ∀ k : Key, k.block < 2 + v.imapBlocks ∨
      2 + v.imapBlocks + v.zmapBlocks ≤ k.block →
      t.view k = putWord s.view (v.zonePlace nr i) 0 k := fun k hk => by
    rw [← hr, Kernel.view_poke]
    by_cases e : k = v.inodeKey nr
    · rw [if_pos e, e, hf.other _ (.inr hlow)]
      exact (putWord_self (p := v.zonePlace nr i)).symm
    · rw [if_neg e, hf.other k hk]
      exact (putWord_of_ne e).symm
  have hown := hview _ (.inr hlow)
  refine ⟨⟨?_, ?_, fun k hk hne => ?_, fun o ho => ?_⟩, fun j hj => ?_⟩
  · rw [← hr]
    exact hf.tab
  · refine h.consistent.cut hp hview fun z h1 h2 => ?_
    rw [← hf.bit z h1 h2, ← hr]
    rw [zoneSet_congr h2 h1 fun k _ hk => Kernel.view_poke_of_ne _ _ fun e => ?_]
    rw [e] at hk
    omega
  · rw [hview k hk]
    exact putWord_of_ne hne
  · rw [hown]
    refine (congrFun (putWord_self (p := v.zonePlace nr i)) o).trans (store_of_ne ?_)
    unfold zonePlace Field.zone
    dsimp only
    omega
  · rw [word_congr (p := v.zonePlace nr j) hown]
    by_cases e : j = i
    · rw [e]
      exact word_putWord_self (by decide)
    · rw [word_putWord_of_ne (zonePlace_even ..) (zonePlace_even ..) fun e' => e (zonePlace_inj e')]
      exact hj.resolve_left e

/-- The size or the time is written. -/
theorem descSet_clears (h : v.Ready x nr s) (f : Field) (n : Nat) (h4 : 4 ≤ f.off)
    (h12 : f.off + f.width ≤ 12) {C : List Frame → Kernel → Prop} {u : Unit}
    (hr : Runs C (descSet x f n) s u t) : v.Clears nr (fun _ => False) s t := by
  have hm := descSet_moves h f n (by omega) (by omega) hr
  rw [runs_descSet] at hr
  subst hr
  have hown : ∀ o, o < descOff nr + 4 ∨ descOff nr + 12 ≤ o →
      (s.poke (s.tab.inodeTable x).buf fun b =>
        store b ((s.tab.inodeTable x).desc + f.off) f.width n).view (v.inodeKey nr) o =
        s.view (v.inodeKey nr) o := fun o ho => by
    rw [h.loaded.buf, Kernel.view_poke_self, h.loaded.desc]
    exact store_of_ne (by omega)
  refine ⟨⟨rfl, hm.view.consistent, fun k _ hne => ?_, fun o ho => hown o (by omega)⟩,
    fun i hi => ?_⟩
  · rw [h.loaded.buf]
    exact Kernel.view_poke_of_ne _ _ hne
  · refine Eq.trans (fetch_congr fun o h1 _ => hown o (.inr ?_)) (hi.resolve_left id)
    unfold zonePlace Field.zone at h1
    dsimp only at h1
    omega

/-- The loop over the direct blocks. -/
theorem truncateDirect_clears {C : List Frame → Kernel → Prop} {r : PUnit} (l : List Nat)
    (hl : ∀ i ∈ l, i < DIRECT_BLOCK) (h : v.Ready x nr s)
    (hr : Runs C (l.forM fun i => truncateZone x 0 i) s r t) : v.Clears nr (· ∈ l) s t := by
  induction l generalizing s with
  | nil =>
    obtain ⟨-, rfl⟩ := hr
    exact (clears_of_same h.consistent (.refl s)).mono fun i hi => nomatch hi
  | cons i l ih =>
    obtain ⟨_, s₁, h₁, hr⟩ := runs_bind.mp
      (show Runs C (truncateZone x 0 i >>= fun _ => l.forM _) s r t from hr)
    have hi := hl i (List.mem_cons_self ..)
    have hc := truncateZone_clears h (Nat.lt_of_lt_of_le hi (by decide)) (if_pos hi).symm h₁
    have hc' := ih (fun j hj => hl j (List.mem_cons_of_mem i hj)) (h.trim hc.toTrims) hr
    exact (hc.trans hc').mono fun j hj => List.mem_cons.mp hj

/-- **`inode_truncate`** leaves the inode without a zone. -/
theorem inodeTruncate_clears (h : v.Ready x nr s) {C : List Frame → Kernel → Prop} {u : Unit}
    (hr : Runs C (inodeTruncate x) s u t) : v.Clears nr (· < 9) s t := by
  obtain ⟨mode, s₁, h₁, hr⟩ := runs_bind.mp hr
  rw [runs_descGet, h.loaded.desc_eq] at h₁
  obtain ⟨rfl, rfl⟩ := h₁
  rcases runs_ite.mp hr with ⟨hno, -, -⟩ | ⟨-, hr⟩
  · have hmode := h.owns.mode
    rw [Bool.and_eq_true, Bool.not_eq_true', Bool.not_eq_true'] at hno
    rw [hno.1, hno.2] at hmode
    cases hmode
  · obtain ⟨_, s₂, h₂, hr⟩ := runs_bind.mp hr
    have hc₂ := truncateDirect_clears _ (fun i hi => List.mem_range.mp hi) h h₂
    have hy₂ := h.trim hc₂.toTrims
    obtain ⟨_, s₃, h₃, hr⟩ := runs_bind.mp hr
    have hc₃ := truncateZone_clears hy₂ (by decide) (by decide) h₃
    have hy₃ := hy₂.trim hc₃.toTrims
    obtain ⟨_, s₄, h₄, hr⟩ := runs_bind.mp hr
    have hc₄ := truncateZone_clears hy₃ (by decide) (by decide) h₄
    have hy₄ := hy₃.trim hc₄.toTrims
    obtain ⟨_, s₅, h₅, hr⟩ := runs_bind.mp hr
    have hc₅ := descSet_clears hy₄ .size 0 (by decide) (by decide) h₅
    have hy₅ := hy₄.trim hc₅.toTrims
    obtain ⟨_, s₆, h₆, hr⟩ := runs_bind.mp hr
    have hc₆ : v.Clears nr _ _ s₆ :=
      clears_of_same hy₅.consistent (inodeDirty_same x _ _ _ h₆.ends)
    have hy₆ := hy₅.trim hc₆.toTrims
    obtain ⟨now, s₇, h₇, hr⟩ := runs_bind.mp hr
    rw [runs_time] at h₇
    obtain ⟨-, rfl⟩ := h₇
    obtain ⟨_, s₈, h₈, hr⟩ := runs_bind.mp hr
    have hy₇ : v.Ready x nr { s₆ with tick := s₆.tick + 1 } := ⟨hy₆.1, hy₆.2, hy₆.3, hy₆.4⟩
    have hc₈ := descSet_clears hy₇ .mtime now (by decide) (by decide) h₈
    obtain ⟨ino, s₉, ⟨rfl, rfl⟩, hr⟩ := runs_bind.mp hr
    have hc₉ : v.Clears nr _ s₈ t := clears_of_same hc₈.consistent (bwrite_same _ _ _ _ hr.ends)
    have hall : v.Clears nr _ s t := ((((hc₂.trans hc₃).trans hc₄).trans hc₅).trans hc₆).trans
      ⟨⟨hc₈.tab.trans rfl, hc₈.consistent, hc₈.other, hc₈.own⟩, hc₈.zero⟩ |>.trans hc₉
    refine hall.mono fun i hi => ?_
    by_cases hd : i < DIRECT_BLOCK
    · exact .inl (.inl (.inl (.inl (.inl (.inl (List.mem_range.mpr hd))))))
    · have h7 : ¬ i < 7 := hd
      have : i = 7 ∨ i = 8 := by omega
      rcases this with e | e
      · exact .inl (.inl (.inl (.inl (.inl (.inr e)))))
      · exact .inl (.inl (.inl (.inl (.inr e))))

/-! ## 4. Runs -/

/-- The call is `inode_write` or `inode_truncate` of a regular file that `x` holds in memory. -/
structure FileOf (v : Volume) (x : Nat) (s : Kernel) : Prop where
  loaded : v.Loaded s.tab x (s.tab.inodeTable x).nr
  owns : v.Owns s.view (s.tab.inodeTable x).nr
  file : ISFILE (s.desc x .mode) = true

def FileOp (v : Volume) : Op → Kernel → Prop
  | .inodeWrite x .., s | .inodeTruncate x, s => v.FileOf x s
  | _, _ => False

theorem op_consistent (op : Op) (hs : v.Consistent s.view ∧ v.Mounted s.tab)
    (hok : v.FileOp op s) (h : Runs Supplied op.code s () t) :
    v.Consistent t.view ∧ v.Mounted t.tab := by
  cases op with
  | inodeWrite x buf len offset =>
    obtain ⟨a, ha⟩ := runs_ignore.mp h
    have hm := inodeWrite_moves ⟨hs.2, hok.loaded, hs.1, hok.owns⟩ ha
    exact ⟨hm.view.consistent, hm.tab ▸ hs.2⟩
  | inodeTruncate x =>
    have hc := inodeTruncate_clears ⟨hs.2, hok.loaded, hs.1, hok.owns⟩ h
    exact ⟨hc.consistent, hc.tab ▸ hs.2⟩
  | _ => exact hok.elim

end Volume

/-- **Runs of `inode_write` and `inode_truncate` keep the volume consistent** while `balloc` finds
    zones and every block that becomes an index block is blank. -/
theorem consistent_run {v : Volume} {s t : Kernel} (hs : v.Consistent s.view)
    (hm : v.Mounted s.tab) (h : Run v.FileOp Volume.Supplied s t) : v.Consistent t.view :=
  (run_keeps (fun op _ _ hs hok hr => Volume.op_consistent op hs hok hr) h ⟨hs, hm⟩).1

/-! ### An index block that is not blank -/

namespace Volume

variable (v : Volume) (x nr : Nat) (s : Kernel) (w : View)

instance : Decidable (v.Loaded s.tab x nr) :=
  decidable_of_iff ((s.tab.inodeTable x).dev = v.dev ∧ (s.tab.inodeTable x).buf = v.inodeKey nr ∧
      (s.tab.inodeTable x).desc = descOff nr)
    ⟨fun h => ⟨h.1, h.2.1, h.2.2⟩, fun h => ⟨h.1, h.2, h.3⟩⟩

instance : Decidable (v.Owns w nr) :=
  decidable_of_iff (0 < nr ∧ nr < v.inodes ∧ v.inodeSet w nr = true ∧
      (ISFILE (v.desc w nr .mode) || ISDIR (v.desc w nr .mode)) = true)
    ⟨fun h => ⟨h.1, h.2.1, h.2.2.1, h.2.2.2⟩, fun h => ⟨h.1, h.2, h.3, h.4⟩⟩

instance : Decidable (v.FileOf x s) :=
  decidable_of_iff (v.Loaded s.tab x (s.tab.inodeTable x).nr ∧
      v.Owns s.view (s.tab.inodeTable x).nr ∧ ISFILE (s.desc x .mode) = true)
    ⟨fun h => ⟨h.1, h.2.1, h.2.2⟩, fun h => ⟨h.1, h.2, h.3⟩⟩

instance : (op : Op) → (s : Kernel) → Decidable (v.FileOp op s)
  | .inodeWrite x .., s | .inodeTruncate x, s => inferInstanceAs (Decidable (v.FileOf x s))
  | .mkdir .., _ | .rmdir .., _ | .link .., _ | .unlink .., _ | .mknod .., _ | .inodeOpen .., _
  | .sysOpen .., _ | .close .., _ | .inodeRead .., _ => .isFalse id

/-- The number that `Served` asks about, and what it is not to be. -/
def servedWith : List Frame → Kernel → Option (Nat × Nat)
  | .bwrite _ :: .balloc _ bit :: _, _ => some (bit, EOF)
  | .bwrite _ :: .bmap _ buf off _ :: _, s => some (fetch (s.view buf) off 2, 0xffff)
  | _, _ => none

theorem servedWith_iff (l : List Frame) (s : Kernel) :
    (∀ e ∈ servedWith l s, e.1 ≠ e.2) ↔ Served l s := by
  unfold servedWith Served
  split <;> simp

instance (l : List Frame) (s : Kernel) : Decidable (Served l s) :=
  decidable_of_iff _ (servedWith_iff l s)

/-- The block that `Blank` asks about. -/
def indexBlock : List Frame → Option Key
  | [.bwrite _, .balloc dev bit, .bmap _ _ _ (_ + 1)] => some ⟨dev, bit⟩
  | _ => none

theorem indexBlock_iff (l : List Frame) (s : Kernel) :
    (∀ k ∈ indexBlock l, ∀ i < BLOCK_SIZE, s.view k i = 0) ↔ Blank l s := by
  unfold indexBlock Blank
  split <;> simp

instance (l : List Frame) (s : Kernel) : Decidable (Blank l s) :=
  decidable_of_iff _ (indexBlock_iff l s)

instance (l : List Frame) (s : Kernel) : Decidable (Supplied l s) :=
  inferInstanceAs (Decidable (_ ∧ _))

end Volume

namespace Sample

def volume : Volume where
  dev := dev
  inodes := 31
  zones := 64
  imapBlocks := 1
  zmapBlocks := 1
  firstdatazone := 5
  imap := by decide
  zmap := by decide
  room := by decide
  data := by decide
  small := by decide

/-- Blocks that have been written before: every word of them is 5, the root directory's zone. -/
def used (_ : Key) (i : Nat) : UInt8 := if i % 2 = 0 then 5 else 0

theorem mounted (junk : Key → Bytes) : volume.Mounted (kernelFile junk).tab := by
  intro i hi
  have h0 : (kernelFile junk).tab.getSuper volume.dev = some 0 := rfl
  cases h0.symm.trans hi
  exact ⟨rfl, rfl, rfl, rfl, rfl, rfl⟩

/-- All that is reachable is the root directory's block. -/
theorem consistent_of_words {w : View}
    (hw : ∀ nr < 31, ∀ i < 9, volume.Owns w nr →
      Volume.word w (volume.zonePlace nr i) = if nr = 1 ∧ i = 0 then 5 else 0)
    (h4 : volume.zoneSet w 4 = true) (h5 : volume.zoneSet w 5 = true) : volume.Consistent w := by
  have one : ∀ {l p z}, (volume.forest w).root l p → (volume.forest w).val p = some z →
      l = 0 ∧ p = volume.zonePlace 1 0 ∧ z = 5 := by
    intro l p z hr hv
    obtain ⟨nr, i, ho, hi, rfl, rfl⟩ := hr
    obtain ⟨rfl, hz⟩ := Volume.val_eq.mp hv
    have := hw nr ho.lt i hi ho
    by_cases e : nr = 1 ∧ i = 0
    · rw [if_pos e] at this
      obtain ⟨rfl, rfl⟩ := e
      exact ⟨rfl, rfl, this⟩
    · rw [if_neg e] at this
      exact absurd this hz
  have flat : ∀ {l p}, (volume.forest w).Slot l p → (volume.forest w).root l p := fun hp =>
    hp.root_of_flat fun l s n hr hv => nomatch (one hr hv).1
  refine ⟨⟨fun hp hv => ?_, fun hp hp' hv hv' => ?_⟩, h4⟩
  · obtain ⟨-, -, rfl⟩ := one (flat hp) hv
    exact ⟨by decide, by decide, h5⟩
  · obtain ⟨rfl, rfl, -⟩ := one (flat hp) hv
    obtain ⟨rfl, rfl, -⟩ := one (flat hp') hv'
    exact ⟨rfl, rfl⟩

theorem kernelFile_zero : volume.Consistent (kernelFile fun _ _ => 0).view :=
  consistent_of_words (by decide) (by decide) (by decide)

theorem kernelFile_used : volume.Consistent (kernelFile used).view :=
  consistent_of_words (by decide) (by decide) (by decide)

/-- The file's first block behind the direct ones is written. -/
def writeIndirect : List Op := [.inodeWrite 1 (fun _ => 7) 4 (7 * BLOCK_SIZE)]

/-- Entry 0 of the file's index block names the zone the root directory's `zone[0]` names. -/
def crossed (t : Kernel) : Bool :=
  decide (volume.Owns t.view 1 ∧ volume.Owns t.view 2 ∧
    Volume.word t.view (volume.zonePlace 1 0) = 5 ∧
    Volume.word t.view (volume.zonePlace 2 7) = 6 ∧
    Volume.word t.view (volume.indexPlace 6 0) = 5)

theorem not_consistent_of_crossed {t : Kernel} (h : crossed t = true) :
    ¬ volume.Consistent t.view := by
  intro hc
  obtain ⟨h1, h2, hroot, hindex, hentry⟩ := of_decide_eq_true h
  have hp : (volume.forest t.view).Slot 0 (volume.zonePlace 1 0) :=
    .root ⟨1, 0, h1, by decide, rfl, rfl⟩
  have hq : (volume.forest t.view).Slot 0 (volume.indexPlace 6 0) :=
    .inside (.root ⟨2, 7, h2, by decide, rfl, rfl⟩) (Volume.val_eq.mpr ⟨hindex, by decide⟩)
      ⟨0, by decide, rfl⟩
  have e := (hc.owned.one hp hq (Volume.val_eq.mpr ⟨hroot, by decide⟩)
    (Volume.val_eq.mpr ⟨hentry, by decide⟩)).1
  exact absurd (congrArg (fun p : Place => p.1.block) e) (by decide)

end Sample

theorem consistent_run_blank : ∃ t, Run Sample.volume.FileOp Volume.Supplied
    (Sample.kernelFile fun _ _ => 0) t ∧ Sample.volume.Consistent t.view := by
  obtain ⟨t, ht, -⟩ := run_of_check Sample.volume.FileOp Volume.Supplied (fun _ => true)
    Sample.writeIndirect (Sample.kernelFile fun _ _ => 0) (by decide +kernel)
  exact ⟨t, ht, consistent_run Sample.kernelFile_zero (Sample.mounted _) ht⟩

/-- The file's index block is a block that held something before. -/
theorem consistent_run_not_always : ¬ ∀ (v : Volume) (s t : Kernel), v.Consistent s.view →
    v.Mounted s.tab → Run v.FileOp Volume.Served s t → v.Consistent t.view := by
  intro h
  obtain ⟨t, ht, hf⟩ := run_of_check Sample.volume.FileOp Volume.Served Sample.crossed
    Sample.writeIndirect (Sample.kernelFile Sample.used) (by decide)
  exact Sample.not_consistent_of_crossed hf
    (h _ _ t Sample.kernelFile_used (Sample.mounted _) ht)

end Yuios
