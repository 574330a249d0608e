/-
  File:      Yuios/Fs/FullVolume.lean
  Subject:   WHEN NO ZONE IS FREE: what `balloc`, `bmap` and `inode_write` do on a volume that is full.

  `balloc` walks over all eight slots of `sb->zmaps`, so it answers `EOF` only where all eight are
  loaded and none of their bits is clear; elsewhere it fails an assertion. `bmap` stores the answer
  in 16 bits, as `0xffff`, and does not look at it.

  * `Stamped` -- bytes that were 0 are `0xff` now, the others are the same: all that a full volume's
    `bmap` does to what the blocks show, so that what is set stays set.
  * `balloc_full` -- `balloc` changes nothing.
  * **`full_volume`** -- no call of `bmap` for a block that is not mapped, and no call of
    `inode_write`, ever reports that the volume is full.
-/
import Yuios.Fs.InodeMap
import Yuios.Fs.Ownership

namespace Yuios

open Lib Prog Code

/-! ## 1. `balloc` -/

/-- No zone is free. -/
def SuperBlock.NoSpace (sb : SuperBlock) (w : View) : Prop := ∀ z, sb.Zone z → sb.zoneSet w z = true

/-- The blocks `i` to `i + n - 1` of the zone bitmap are loaded, and all their bits are set. -/
def SuperBlock.AllSet (sb : SuperBlock) (w : View) (i n : Nat) : Prop :=
  ∀ j, i ≤ j → j < i + n → j < sb.zmapBlocks ∧ Full (w ⟨sb.dev, sb.zmapBase + j⟩)

section Balloc

variable {sb : SuperBlock} {s t : Kernel} {dev : Int}

/-- A clear bit of a full volume is no zone's, so its number is too high. -/
theorem number_of_noSpace (hg : sb.Geometry) (hfull : sb.NoSpace s.view) {j p : Nat}
    (hj : j < sb.zmapBlocks) (hp : p < BLOCK_BITS)
    (hclear : getBit (s.view ⟨sb.dev, sb.zmapBase + j⟩) p = false) :
    ¬ p + sb.zmapOffset j < sb.zones := by
  intro hlt
  have hfirst := hg.first
  rw [SuperBlock.zmapOffset_eq hg] at hlt
  set z := j * BLOCK_BITS + p + (sb.firstdatazone - 1) with hz
  have hbit : sb.zoneBit z = j * BLOCK_BITS + p := by
    unfold SuperBlock.zoneBit
    omega
  have hzone : sb.Zone z := by
    refine ⟨by omega, by omega, ?_⟩
    rw [hbit, Nat.mul_comm, Nat.mul_add_div (by decide), Nat.div_eq_of_lt hp]
    exact hj
  have := hfull z hzone
  rw [SuperBlock.zoneSet, hbit, SuperBlock.bitOf_block _ _ _ _ hp, hclear] at this
  cases this

/-- The loop of `balloc` over a full volume. -/
theorem allocLoop_noSpace (hg : sb.Geometry) (hfull : sb.NoSpace s.view) (n i : Nat)
    (buf : Option Key) :
    ((allocLoop sb.zmap BLOCK_SIZE sb.zmapOffset sb.zones n i buf).run s = .error .assertion ∧
      ¬ sb.AllSet s.view i n) ∨
    ∃ o, (allocLoop sb.zmap BLOCK_SIZE sb.zmapOffset sb.zones n i buf).run s = .ok ((o, EOF), s) ∧
      (0 < n → o.isSome) ∧ sb.AllSet s.view i n := by
  induction n generalizing i buf with
  | zero => exact .inr ⟨buf, rfl, fun h => absurd h (Nat.lt_irrefl 0), fun j h1 h2 => by omega⟩
  | succ n ih =>
    by_cases hi : i < sb.zmapBlocks
    · have hk := SuperBlock.zmap_eq hi
      rcases full_or_lowest (s.view ⟨sb.dev, sb.zmapBase + i⟩) with hset | ⟨p, hp, hlow⟩
      · have hall : sb.AllSet s.view i (n + 1) ↔ sb.AllSet s.view (i + 1) n := by
          constructor
          · exact fun h j h1 h2 => h j (by omega) (by omega)
          · intro h j h1 h2
            rcases Nat.eq_or_lt_of_le h1 with rfl | hlt
            · exact ⟨hi, hset⟩
            · exact h j hlt (by omega)
        rw [allocLoop_next hk hset, hall]
        rcases ih (i + 1) (some ⟨sb.dev, sb.zmapBase + i⟩) with h | ⟨o, h, ho, ha⟩
        · exact .inl h
        · refine .inr ⟨o, h, fun _ => ?_, ha⟩
          cases n with
          | zero =>
            cases h
            rfl
          | succ n => exact ho (Nat.succ_pos n)
      · refine .inl ⟨?_, fun h => ?_⟩
        · rw [allocLoop_found hk hlow hp (Nat.le_refl _),
            if_neg (number_of_noSpace hg hfull hi hp hlow.clear)]
        · have := (h i (Nat.le_refl i) (by omega)).2 p hp
          rw [hlow.clear] at this
          cases this
    · refine .inl ⟨allocLoop_null (if_neg hi), fun h => hi (h i (Nat.le_refl i) (by omega)).1⟩

/-- `balloc` answers `EOF` where the bitmap has all eight blocks and no clear bit, and fails an
    assertion elsewhere. -/
theorem balloc_noSpace {i : Nat} (hi : s.tab.getSuper dev = some i)
    (hg : (s.tab.superTable i).Geometry) (hfull : (s.tab.superTable i).NoSpace s.view) :
    ((balloc dev).run s = .error .assertion ∧ ¬ (s.tab.superTable i).AllSet s.view 0 ZMAP_NR) ∨
    ∃ t, (balloc dev).run s = .ok (EOF, t) ∧ Same s t ∧
      (s.tab.superTable i).AllSet s.view 0 ZMAP_NR := by
  rw [balloc, run_then (run_superOf hi)]
  rcases allocLoop_noSpace hg hfull ZMAP_NR 0 none with ⟨h, hn⟩ | ⟨o, h, ho, ha⟩
  · exact .inl ⟨run_stopped h, hn⟩
  · obtain ⟨k, rfl⟩ := Option.isSome_iff_exists.mp (ho (by decide))
    obtain ⟨t, ht, hs⟩ := bwrite_run s k
    refine .inr ⟨t, ?_, hs, ha⟩
    rw [run_then h, run_then rfl, run_then (by rw [within, run_mapLabel]; exact ht), run_pure]

end Balloc

/-! ## 2. What `bmap` stores -/

/-- Bytes that were 0 are `0xff`, the others are what they were. -/
def Stamped (w w' : View) : Prop := ∀ k o, w' k o = w k o ∨ (w k o = 0 ∧ w' k o = 0xff)

theorem Stamped.refl (w : View) : Stamped w w := fun _ _ => .inl rfl

theorem Stamped.trans {w w' w'' : View} (h : Stamped w w') (h' : Stamped w' w'') : Stamped w w'' := by
  intro k o
  rcases h k o with e | ⟨e0, e1⟩
  · rcases h' k o with e' | ⟨e0', e1'⟩
    · exact .inl (e'.trans e)
    · exact .inr ⟨e.symm.trans e0', e1'⟩
  · rcases h' k o with e' | ⟨e0', -⟩
    · exact .inr ⟨e0, e'.trans e1⟩
    · rw [e1] at e0'
      cases e0'

/-- A bit that is set stays set. -/
theorem Stamped.getBit {w w' : View} (h : Stamped w w') {k : Key} {i : Nat}
    (hb : getBit (w k) i = true) : Lib.getBit (w' k) i = true := by
  unfold Lib.getBit at *
  rcases h k (i / 8) with e | ⟨e, -⟩
  · rwa [e]
  · rw [e] at hb
    simp at hb

theorem Stamped.noSpace {sb : SuperBlock} {w w' : View} (h : Stamped w w') (hf : sb.NoSpace w) :
    sb.NoSpace w' := fun z hz => h.getBit (hf z hz)

theorem byte_of_fetch {b : Bytes} {off : Nat} :
    fetch b off 2 = (b off).toNat + 256 * (b (off + 1)).toNat := by
  simp [fetch]

/-- A slot that holds `0xffff` keeps it. -/
theorem Stamped.word {w w' : View} (h : Stamped w w') {k : Key} {off : Nat}
    (hw : fetch (w k) off 2 = 0xffff) : fetch (w' k) off 2 = 0xffff := by
  have h0 := (w k off).toNat_lt
  have h1 := (w k (off + 1)).toNat_lt
  rw [byte_of_fetch] at hw
  have keep : ∀ o, (w k o).toNat = 255 → w' k o = w k o := fun o ho => by
    rcases h k o with e | ⟨e, -⟩
    · exact e
    · rw [e] at ho
      cases ho
  rw [byte_of_fetch, keep off (by omega), keep (off + 1) (by omega)]
  exact hw

/-- `EOF` stored in an empty slot. -/
theorem stamped_putWord {w : View} {k : Key} {slot : Nat} (h : fetch (w k) slot 2 = 0) :
    Stamped w (Volume.putWord w (k, slot) EOF) := by
  intro k' o
  by_cases hk : k' = k
  · subst hk
    rw [byte_of_fetch] at h
    show Volume.putWord w (k', slot) EOF (k', slot).1 o = _ ∨ _
    rw [Volume.putWord_self]
    by_cases ho : slot ≤ o ∧ o < slot + 2
    · refine .inr ⟨?_, ?_⟩
      · have hz : (w k' o).toNat = 0 := by
          obtain rfl | rfl : o = slot ∨ o = slot + 1 := by omega
          · omega
          · omega
        exact UInt8.toNat_inj.mp hz
      · unfold store
        rw [if_pos ho]
        obtain rfl | rfl : o = slot ∨ o = slot + 1 := by omega
        · rw [Nat.sub_self]
          rfl
        · rw [Nat.add_sub_cancel_left]
          rfl
    · exact .inl (store_of_ne (by dsimp only; omega))
  · exact .inl (congrFun (Volume.putWord_of_ne hk) o)

/-- An empty slot has come to hold a number that is no zone's. -/
def SuperBlock.Spoilt (sb : SuperBlock) (w w' : View) : Prop :=
  ∃ k off, fetch (w k) off 2 = 0 ∧ sb.zones ≤ fetch (w' k) off 2

/-- The volume of the inode `x` is full. -/
structure OutOfSpace (x i : Nat) (s : Kernel) : Prop where
  super : s.tab.getSuper (s.tab.inodeTable x).dev = some i
  geometry : (s.tab.superTable i).Geometry
  noSpace : (s.tab.superTable i).NoSpace s.view

theorem OutOfSpace.next {x i : Nat} {s t : Kernel} (h : OutOfSpace x i s) (ht : t.tab = s.tab)
    (hv : Stamped s.view t.view) : OutOfSpace x i t :=
  ⟨ht ▸ h.super, ht ▸ h.geometry, ht ▸ hv.noSpace h.noSpace⟩

theorem OutOfSpace.same {x i : Nat} {s t : Kernel} (h : OutOfSpace x i s) (hs : Same s t) :
    OutOfSpace x i t := h.next hs.tab (by rw [show t.view = s.view from hs.view]; exact .refl _)

section Bmap

variable {s t : Kernel} {x i level : Nat}

section Slot

variable {buf : Key} {slot : Nat} {u : Unit}

/-- **`bmap` at one slot of a full volume.** -/
theorem bmapSlot_full (hf : OutOfSpace x i s) (h : Ends (bmapSlot x true level buf slot) s u t) :
    Same s t ∧ fetch (s.view buf) slot 2 ≠ 0 ∨
      t.tab = s.tab ∧ fetch (s.view buf) slot 2 = 0 ∧
        t.view = Volume.putWord s.view (buf, slot) EOF := by
  rw [bmapSlot, Ends, runs_within] at h
  obtain ⟨_, s₁, h₁, h₂⟩ := runs_bind.mp h
  have hb := brelse_same buf _ _ _ h₂.ends
  obtain ⟨b, s₂, ⟨rfl, rfl⟩, h₁⟩ := runs_bind.mp h₁
  rcases runs_ite.mp h₁ with ⟨⟨hempty, -⟩, h₁⟩ | ⟨hno, -, rfl⟩
  · obtain ⟨ino, s₃, ⟨rfl, rfl⟩, h₁⟩ := runs_bind.mp h₁
    obtain ⟨bit, s₄, h₄, h₆⟩ := runs_bind.mp h₁
    obtain ⟨_, s₅, h₅, h₇⟩ := runs_bind.mp h₆
    rw [runs_poke] at h₅
    rw [runs_setDirty] at h₇
    have hrun := ends_iff.mp h₄.ends
    rcases balloc_noSpace hf.super hf.geometry hf.noSpace with ⟨hstop, -⟩ | ⟨t', ht', hs, -⟩
    · rw [hstop] at hrun
      cases hrun
    · cases hrun.symm.trans ht'
      refine .inr ⟨?_, hempty, ?_⟩
      · rw [hb.tab, ← h₇, ← h₅]
        exact hs.tab
      · refine Eq.trans (show _ = s₁.view from hb.view) ?_
        rw [← h₇]
        refine Eq.trans (show _ = s₅.view from (mark_same _ _).view) ?_
        rw [← h₅, Volume.view_poke_word]
        exact congrArg (Volume.putWord · (buf, slot) EOF) hs.view
  · exact .inl ⟨hb, fun e => hno ⟨e, rfl⟩⟩

theorem bmapSlot_stamped (hf : OutOfSpace x i s)
    (h : Ends (bmapSlot x true level buf slot) s u t) :
    t.tab = s.tab ∧ Stamped s.view t.view := by
  rcases bmapSlot_full hf h with ⟨hs, -⟩ | ⟨htab, h0, e⟩
  · rw [show t.view = s.view from hs.view]
    exact ⟨hs.tab, .refl _⟩
  · rw [e]
    exact ⟨htab, stamped_putWord h0⟩

theorem bmapSlot_spoilt (hf : OutOfSpace x i s) (h : Ends (bmapSlot x true level buf slot) s u t)
    (h0 : fetch (s.view buf) slot 2 = 0) : fetch (t.view buf) slot 2 = 0xffff := by
  rcases bmapSlot_full hf h with ⟨-, hne⟩ | ⟨-, -, e⟩
  · exact absurd h0 hne
  · rw [e]
    exact (congrArg (fetch · slot 2) Volume.putWord_self).trans (Volume.fetch_store_EOF _ _)

/-- The slot of a walk that is not to create. -/
theorem bmapSlot_false (h : Ends (bmapSlot x false level buf slot) s u t) : Same s t := by
  rw [bmapSlot, Ends, runs_within] at h
  obtain ⟨_, s₁, h₁, h₂⟩ := runs_bind.mp h
  obtain ⟨b, s₂, ⟨rfl, rfl⟩, h₁⟩ := runs_bind.mp h₁
  rcases runs_ite.mp h₁ with ⟨⟨-, hf⟩, -⟩ | ⟨-, -, rfl⟩
  · cases hf
  · exact brelse_same buf _ _ _ h₂.ends

end Slot

variable {buf : Key} {array index block divider z : Nat}

/-- One round of the walk above the data. -/
theorem bmapReckon_succ {create : Bool}
    (h : Ends (bmapReckon x create (level + 1) buf array index block divider) s z t) :
    ∃ s₁, Ends (bmapSlot x create (level + 1) buf (array + 2 * index)) s () s₁ ∧
      (fetch (s₁.view buf) (array + 2 * index) 2 = 0 ∧ t = s₁ ∨
        fetch (s₁.view buf) (array + 2 * index) 2 ≠ 0 ∧ ∃ s₂, Same s₁ s₂ ∧
          Ends (bmapReckon x create level ⟨(s₁.tab.inodeTable x).dev,
            fetch (s₁.view buf) (array + 2 * index) 2⟩ 0 (block / divider) (block % divider)
            (divider / BLOCK_INDEXES)) s₂ z t) := by
  obtain ⟨_, s₁, h₁, h⟩ := runs_bind.mp h
  obtain ⟨_, s₂, ⟨rfl, rfl⟩, h⟩ := runs_bind.mp h
  refine ⟨s₁, h₁, ?_⟩
  rcases runs_ite.mp h with ⟨hzero, -, rfl⟩ | ⟨hne, h⟩
  · exact .inl ⟨hzero, rfl⟩
  · obtain ⟨ino, s₃, ⟨rfl, rfl⟩, h⟩ := runs_bind.mp h
    obtain ⟨k, s₄, h₄, h⟩ := runs_bind.mp h
    rw [bread_key h₄] at h
    exact .inr ⟨hne, s₄, bread_same _ _ _ _ _ h₄.ends, h⟩

/-- The round at the data. -/
theorem bmapReckon_zero {create : Bool}
    (h : Ends (bmapReckon x create 0 buf array index block divider) s z t) :
    Ends (bmapSlot x create 0 buf (array + 2 * index)) s () t ∧
      z = fetch (t.view buf) (array + 2 * index) 2 := by
  obtain ⟨_, s₁, h₁, h⟩ := runs_bind.mp h
  obtain ⟨_, s₂, ⟨rfl, rfl⟩, rfl, rfl⟩ := runs_bind.mp h
  exact ⟨h₁, rfl⟩

/-- **The walk of `bmap` over a full volume** only puts `0xffff` into empty slots. -/
theorem bmapReckon_stamped (hf : OutOfSpace x i s)
    (h : Ends (bmapReckon x true level buf array index block divider) s z t) :
    Stamped s.view t.view := by
  induction level generalizing buf array index block divider s with
  | zero => exact (bmapSlot_stamped hf (bmapReckon_zero h).1).2
  | succ level ih =>
    obtain ⟨s₁, h₁, h⟩ := bmapReckon_succ h
    obtain ⟨htab, hst⟩ := bmapSlot_stamped hf h₁
    rcases h with ⟨-, rfl⟩ | ⟨-, s₂, hs, h⟩
    · exact hst
    · have hrest := ih ((hf.next htab hst).same hs) h
      rw [show s₂.view = s₁.view from hs.view] at hrest
      exact hst.trans hrest

/-- **For a block that is not mapped it does so**: the walk without `create` finds the slot. -/
theorem bmapReckon_spoilt {s₀ t₀ : Kernel} (hf : OutOfSpace x i s) (hs₀ : Same s s₀)
    (h₀ : Ends (bmapReckon x false level buf array index block divider) s₀ 0 t₀)
    (h : Ends (bmapReckon x true level buf array index block divider) s z t) :
    (s.tab.superTable i).Spoilt s.view t.view := by
  induction level generalizing buf array index block divider s s₀ with
  | zero =>
    obtain ⟨g, hzero⟩ := bmapReckon_zero h₀
    rw [show t₀.view = s.view from (hs₀.trans (bmapSlot_false g)).view] at hzero
    refine ⟨_, _, hzero.symm, ?_⟩
    rw [bmapSlot_spoilt hf (bmapReckon_zero h).1 hzero.symm]
    exact hf.geometry.zones
  | succ level ih =>
    obtain ⟨u₁, g, h₀⟩ := bmapReckon_succ h₀
    obtain ⟨s₁, h₁, h⟩ := bmapReckon_succ h
    have hkeep := hs₀.trans (bmapSlot_false g)
    rw [show u₁.view = s.view from hkeep.view, hkeep.tab] at h₀
    rcases h₀ with ⟨hzero, -⟩ | ⟨hne, u₂, gs, h₀⟩
    · -- this slot is the one that is missing, and what comes after leaves it as it is
      have hff := bmapSlot_spoilt hf h₁ hzero
      refine ⟨_, _, hzero, ?_⟩
      rcases h with ⟨-, rfl⟩ | ⟨-, s₂, hs, h⟩
      · rw [hff]
        exact hf.geometry.zones
      · obtain ⟨htab, hst⟩ := bmapSlot_stamped hf h₁
        have hrest := bmapReckon_stamped ((hf.next htab hst).same hs) h
        rw [show s₂.view = s₁.view from hs.view] at hrest
        rw [hrest.word hff]
        exact hf.geometry.zones
    · -- this slot is there, and both walks go on below it
      rcases bmapSlot_full hf h₁ with ⟨hsame, -⟩ | ⟨-, hzero, -⟩
      · rw [show s₁.view = s.view from hsame.view, hsame.tab] at h
        rcases h with ⟨hzero, -⟩ | ⟨-, s₂, hs, h⟩
        · exact absurd hzero hne
        · have hs₂ := hsame.trans hs
          rw [← show s₂.view = s.view from hs₂.view, ← hs₂.tab]
          exact ih (hf.same hs₂) (hs₂.symm.trans (hkeep.trans gs)) h₀ h
      · exact absurd hzero hne

/-- The numbers the walk starts with are the block's. -/
theorem BmapStart.unique {b l i r d l' i' r' d' : Nat} (h : BmapStart b l i r d)
    (h' : BmapStart b l' i' r' d') : l = l' ∧ i = i' ∧ r = r' ∧ d = d' := by
  have hsum : DIRECT_BLOCK + INDIRECT1_BLOCK = 519 := rfl
  have hdirect : DIRECT_BLOCK = 7 := rfl
  have hsingle : INDIRECT1_BLOCK = 512 := rfl
  cases h with
  | direct hb =>
    cases h' with
    | direct => exact ⟨rfl, rfl, rfl, rfl⟩
    | single h1 => omega
    | double h1 => omega
  | single hb hb' =>
    cases h' with
    | direct h1 => omega
    | single => exact ⟨rfl, rfl, rfl, rfl⟩
    | double h1 => omega
  | double hb =>
    cases h' with
    | direct h1 => omega
    | single h1 h2 => omega
    | double => exact ⟨rfl, rfl, rfl, rfl⟩

/-- **`bmap` for a block that is not mapped**: an empty slot comes to hold `0xffff`. -/
theorem bmap_spoilt {t₀ : Kernel} (hf : OutOfSpace x i s) (h₀ : Ends (bmap x block false) s 0 t₀)
    (h : Ends (bmap x block true) s z t) : (s.tab.superTable i).Spoilt s.view t.view := by
  obtain ⟨-, l, j, r, d, s₀, hb₀, hs₀, h₀⟩ := bmap_start h₀
  obtain ⟨-, l', j', r', d', s₁, hb, hs₁, h⟩ := bmap_start h
  obtain ⟨rfl, rfl, rfl, rfl⟩ := hb₀.unique hb
  rw [← show s₁.view = s.view from hs₁.view, ← hs₁.tab]
  exact bmapReckon_spoilt (hf.same hs₁) (hs₁.symm.trans hs₀) h₀ h

end Bmap

/-! ## 3. `inode_write` -/

section Write

variable {s t : Kernel} {x : Nat}

theorem inodeWriteRound_chars {left offset chars : Nat} {buf : Bytes}
    (h : Ends (inodeWriteRound x left offset buf) s chars t) :
    chars = min (BLOCK_SIZE - offset % BLOCK_SIZE) left := by
  obtain ⟨nr, s₁, -, h⟩ := runs_bind.mp h
  obtain ⟨_, s₂, -, h⟩ := runs_bind.mp h
  obtain ⟨i, s₃, -, h⟩ := runs_bind.mp h
  obtain ⟨bf, s₄, -, h⟩ := runs_bind.mp h
  obtain ⟨_, s₅, -, h⟩ := runs_bind.mp h
  obtain ⟨_, s₆, -, h⟩ := runs_bind.mp h
  obtain ⟨_, s₇, -, h⟩ := runs_bind.mp h
  obtain ⟨_, s₈, -, h⟩ := runs_bind.mp h
  exact h.1.symm

theorem inodeWriteLoop_end {fuel left offset r : Nat} {buf : Bytes} (hf : left ≤ fuel)
    (h : Ends (inodeWriteLoop x fuel left offset buf) s r t) : r = offset + left := by
  induction fuel generalizing left offset buf s with
  | zero =>
    have := h.1
    omega
  | succ fuel ih =>
    rcases runs_ite.mp h with ⟨h0, h⟩ | ⟨hn, h⟩
    · have := h.1
      omega
    · obtain ⟨chars, s₁, h₁, h⟩ := runs_bind.mp h
      have hc := inodeWriteRound_chars h₁
      have hpos : 0 < BLOCK_SIZE - offset % BLOCK_SIZE := by
        unfold BLOCK_SIZE
        omega
      have := ih (by omega) h
      omega

/-- A write that returns has written all its bytes: there is no other way out of the loop. -/
theorem inodeWrite_all {len offset n : Nat} {buf : Bytes}
    (h : Ends (inodeWrite x buf len offset) s n t) : n = len := by
  obtain ⟨mode, s₁, -, h⟩ := runs_bind.mp h
  obtain ⟨_, s₂, -, h⟩ := runs_bind.mp h
  obtain ⟨r, s₃, h₃, h⟩ := runs_bind.mp h
  have hr := inodeWriteLoop_end (Nat.le_refl len) h₃
  obtain ⟨now, s₄, -, h⟩ := runs_bind.mp h
  obtain ⟨_, s₅, -, h⟩ := runs_bind.mp h
  obtain ⟨i, s₆, -, h⟩ := runs_bind.mp h
  obtain ⟨_, s₇, -, h⟩ := runs_bind.mp h
  have := h.1
  omega

end Write

/-! ## 4. No call reports it -/

/-- `bmap` says that there is no block, and has left every empty slot fit for a zone. -/
def BmapReports (x i block : Nat) (s : Kernel) : Prop :=
  ∃ z t, (bmap x block true).run s = .ok (z, t) ∧ (z = 0 ∨ z = EOF) ∧
    ¬ (s.tab.superTable i).Spoilt s.view t.view

/-- `inode_write` answers an error or a short count. -/
def WriteReports (x len offset : Nat) (buf : Bytes) (s : Kernel) : Prop :=
  ∃ n t, (inodeWrite x buf len offset).run s = .ok (n, t) ∧ n ≠ len

/-- **On a full volume** `balloc` answers `EOF` just where the bitmap has eight blocks and no clear
    bit; `bmap` for a block that is not mapped and `inode_write` never report it. -/
theorem full_volume {s : Kernel} {x i block : Nat} (hf : OutOfSpace x i s)
    (hun : ∃ t, (bmap x block false).run s = .ok (0, t)) :
    ((∃ t, (balloc (s.tab.inodeTable x).dev).run s = .ok (EOF, t)) ↔
      (s.tab.superTable i).AllSet s.view 0 ZMAP_NR) ∧
    ¬ BmapReports x i block s ∧ ∀ buf len offset, ¬ WriteReports x len offset buf s := by
  refine ⟨?_, ?_, ?_⟩
  · rcases balloc_noSpace hf.super hf.geometry hf.noSpace with ⟨hstop, hn⟩ | ⟨t, ht, -, ha⟩
    · refine ⟨fun ⟨t, ht⟩ => ?_, fun h => absurd h hn⟩
      rw [hstop] at ht
      cases ht
    · exact ⟨fun _ => ha, fun _ => ⟨t, ht⟩⟩
  · rintro ⟨z, t, hr, -, hs⟩
    obtain ⟨t₀, h₀⟩ := hun
    exact hs (bmap_spoilt hf (ends_iff.mpr h₀) (ends_iff.mpr hr))
  · rintro buf len offset ⟨n, t, hr, hn⟩
    exact hn (inodeWrite_all (ends_iff.mpr hr))

/-! ### The small volume, full -/

namespace Sample

/-- Every bit of the zone bitmap is set; `a` is still empty. -/
def fullKernel : Kernel :=
  let s := kernelFile fun _ _ => 0
  { s with cache := { s.cache with
      disk := fun k => if k = ⟨dev, 3⟩ then fun _ => 255 else s.cache.disk k } }

theorem getBit_255 (q : Nat) : getBit (fun _ => 255) q = true := by
  have h255 : ∀ k < 8, (255 : UInt8).toNat.testBit k = true := by decide
  exact h255 _ (Nat.mod_lt _ (by decide))

theorem fullKernel_outOfSpace : OutOfSpace 1 0 fullKernel := by
  refine ⟨rfl, ⟨by decide, by decide, by decide⟩, fun z hz => ?_⟩
  have hload : (fullKernel.tab.superTable 0).zoneBit z / BLOCK_BITS < 1 := hz.loaded
  rw [SuperBlock.zoneSet, bitOf, Nat.lt_one_iff.mp hload]
  exact getBit_255 _

theorem fullKernel_unmapped : ∃ t, (bmap 1 0 false).run fullKernel = .ok (0, t) := ⟨_, rfl⟩

end Sample

theorem full_volume_small :
    ((∃ t, (balloc (Sample.fullKernel.tab.inodeTable 1).dev).run Sample.fullKernel =
        .ok (EOF, t)) ↔
      (Sample.fullKernel.tab.superTable 0).AllSet Sample.fullKernel.view 0 ZMAP_NR) ∧
    ¬ BmapReports 1 0 0 Sample.fullKernel ∧
      ∀ buf len offset, ¬ WriteReports 1 len offset buf Sample.fullKernel :=
  full_volume Sample.fullKernel_outOfSpace Sample.fullKernel_unmapped

/-- With one block of zone bitmap `balloc` runs into `assert(buf)`. -/
theorem full_volume_not_always : ¬ ∀ (s : Kernel) (x i block : Nat), OutOfSpace x i s →
    (∃ t, (bmap x block false).run s = .ok (0, t)) →
    (∃ t, (balloc (s.tab.inodeTable x).dev).run s = .ok (EOF, t)) ∧ BmapReports x i block s ∧
      ∀ buf len offset, 0 < len → offset / BLOCK_SIZE = block →
        WriteReports x len offset buf s := by
  intro h
  have hf := Sample.fullKernel_outOfSpace
  obtain ⟨⟨t, ht⟩, -⟩ := h Sample.fullKernel 1 0 0 hf Sample.fullKernel_unmapped
  rcases balloc_noSpace hf.super hf.geometry hf.noSpace with ⟨hstop, -⟩ | ⟨-, -, -, ha⟩
  · rw [hstop] at ht
    cases ht
  · exact absurd (ha 1 (by decide) (by decide)).1 (by decide)

end Yuios
