/-
  File:      Yuios/Fs/CleanRun.lean
  Subject:   CLEAN BUFFERS OVER WHOLE RUNS: `inode_write`, the system calls, and runs of them.

  `inode_write` ends with `inode->desc->mtime = ...; bwrite(inode->buf);` and no `dirty = true`
  (`inode_truncate` has it). The new time reaches the disk only if the block is dirty at that
  moment for another reason: the last round has made the file longer.

  * `inodeWriteRound_spec` -- one round: the size grows to the end of what is written, and the
    inode's block is marked if it does.
  * `WriteMeets` -- when `inode_write` leaves no clean buffer that differs from its block.
  * `clean_run` -- the runs whose steps all meet the conditions.
-/
import Yuios.Fs.Clean
import Yuios.Fs.Sample

namespace Yuios

open Lib Prog Code

/-! ## 1. The descriptor's head during `bmap` -/

/-- The tables and the clock stay, and so do the bytes before `zone[]` in the descriptor of `x`. -/
structure SameHead (x : Nat) (s t : Kernel) : Prop where
  tab : t.tab = s.tab
  clock : t.clock = s.clock
  tick : t.tick = s.tick
  head : ∀ o, (s.tab.inodeTable x).desc ≤ o → o < (s.tab.inodeTable x).desc + 14 →
    t.view (s.tab.inodeTable x).buf o = s.view (s.tab.inodeTable x).buf o

instance (x : Nat) : Steady (SameHead x) where
  refl _ := ⟨rfl, rfl, rfl, fun _ _ _ => rfl⟩
  trans h h' := ⟨h'.tab.trans h.tab, h'.clock.trans h.clock, h'.tick.trans h.tick,
    fun o h1 h2 => by
      have := h'.head o
      rw [h.tab] at this
      exact (this h1 h2).trans (h.head o h1 h2)⟩

theorem SameHead.trans {x : Nat} {s t u : Kernel} (h : SameHead x s t) (h' : SameHead x t u) :
    SameHead x s u := Steady.trans h h'

theorem Same.sameHead {x : Nat} {s t : Kernel} (h : Same s t) : SameHead x s t :=
  ⟨h.tab, h.clock, h.tick, fun o _ _ => by rw [Kernel.view, h.view]⟩

/-- A write to a buffer that leaves the descriptor's head. -/
theorem poke_sameHead {x : Nat} (s : Kernel) (k : Key) (f : Bytes → Bytes)
    (h : k = (s.tab.inodeTable x).buf → ∀ o, (s.tab.inodeTable x).desc ≤ o →
      o < (s.tab.inodeTable x).desc + 14 → f (s.view k) o = s.view k o) :
    SameHead x s (s.poke k f) := by
  refine ⟨rfl, rfl, rfl, fun o h1 h2 => ?_⟩
  rw [Kernel.view_poke]
  split
  next e => exact e ▸ h e.symm o h1 h2
  next => rfl

theorem mark_sameHead {x : Nat} (s : Kernel) (k : Key) : SameHead x s (s.mark k) :=
  (mark_same s k).sameHead

/-- `balloc` in `bmap` writes to a bitmap block that is not the inode's own. -/
theorem balloc_sameHead {x level off : Nat} {buf : Key} {dev : Int} {s t : Kernel} {bit : Nat}
    (h : Runs (fun l => Apart (l ++ [.bmap x buf off level])) (balloc dev) s bit t) :
    SameHead x s t := by
  obtain ⟨sb, s₁, h₁, h⟩ := runs_bind.mp h
  obtain ⟨-, rfl⟩ := runs_superOf.mp h₁
  obtain ⟨⟨o, bit'⟩, s₂, h₂, h⟩ := runs_bind.mp h
  obtain ⟨k, s₃, h₃, h⟩ := runs_bind.mp h
  rw [runs_need] at h₃
  obtain ⟨ho, rfl⟩ := h₃
  obtain ⟨_, s₄, h₄, hr⟩ := runs_bind.mp h
  obtain ⟨rfl, rfl⟩ := hr
  rw [runs_within] at h₄
  rcases allocLoop_spec h₂ with ⟨-, rfl, -⟩ | ⟨k', j, p, ho', -, rfl⟩
  · exact (bwrite_same k _ _ _ h₄.ends).sameHead
  · cases ho.symm.trans ho'
    obtain ⟨hne, rfl⟩ := bwrite_dirty h₄ (mark_dirty _ _)
    have hw : SameHead x s (s.putBit k p true) :=
      (poke_sameHead s k _ fun e => absurd e hne).trans (mark_sameHead _ _)
    refine hw.trans (Same.sameHead ⟨?_, rfl, rfl, rfl⟩)
    rw [view_flushed, view_flush]

theorem bmapSlot_sameHead {x level slot : Nat} {create : Bool} {buf : Key} {s t : Kernel} {u : Unit}
    (h : Runs Apart (bmapSlot x create level buf slot) s u t) : SameHead x s t := by
  rw [bmapSlot, runs_within] at h
  obtain ⟨_, s₁, h₁, h₂⟩ := runs_bind.mp h
  obtain ⟨b, s₂, ⟨rfl, rfl⟩, h₁⟩ := runs_bind.mp h₁
  rcases runs_ite.mp h₁ with ⟨-, h₁⟩ | ⟨-, -, rfl⟩
  · obtain ⟨i, s₃, ⟨rfl, rfl⟩, h₁⟩ := runs_bind.mp h₁
    obtain ⟨bit, s₄, h₄, h₁⟩ := runs_bind.mp h₁
    obtain ⟨_, s₅, h₅, h₁⟩ := runs_bind.mp h₁
    rw [runs_poke] at h₅
    rw [runs_setDirty] at h₁
    have ha := balloc_sameHead h₄
    -- the slot's block is dirty now, so it is written back under its label
    obtain ⟨_, s₆, h₆, h₇⟩ := runs_bind.mp h₂
    have hd : (s₁.cache.buf buf).dirty = true := h₁ ▸ mark_dirty s₅ buf
    have hlab := (bwrite_dirty h₆ hd).1
    have htab : s₁.tab = s₄.tab := by rw [← h₁, ← h₅]; rfl
    have hslot : buf = (s₄.tab.inodeTable x).buf → (s₄.tab.inodeTable x).desc + 14 ≤ slot := by
      rw [← htab]
      exact hlab
    have hp : SameHead x s₄ s₅ := h₅ ▸ poke_sameHead s₄ buf _ fun e o _ ho =>
      store_of_ne (.inl (Nat.lt_of_lt_of_le ho (hslot e)))
    have hm : SameHead x s₅ s₁ := h₁ ▸ mark_sameHead s₅ buf
    exact ((ha.trans hp).trans hm).trans (brelse_same buf _ _ _ h₂.ends).sameHead
  · exact (brelse_same buf _ _ _ h₂.ends).sameHead

theorem bmapReckon_sameHead {x level array index block divider z : Nat} {create : Bool} {buf : Key}
    {s t : Kernel} (h : Runs Apart (bmapReckon x create level buf array index block divider) s z t) :
    SameHead x s t := by
  induction level generalizing buf array index block divider s with
  | zero =>
    obtain ⟨_, s₁, h₁, h⟩ := runs_bind.mp h
    obtain ⟨b, s₂, ⟨-, rfl⟩, -, rfl⟩ := runs_bind.mp h
    exact bmapSlot_sameHead h₁
  | succ level ih =>
    obtain ⟨_, s₁, h₁, h⟩ := runs_bind.mp h
    obtain ⟨b, s₂, ⟨-, rfl⟩, h⟩ := runs_bind.mp h
    rcases runs_ite.mp h with ⟨-, -, rfl⟩ | ⟨-, h⟩
    · exact bmapSlot_sameHead h₁
    · obtain ⟨i, s₃, ⟨-, rfl⟩, h⟩ := runs_bind.mp h
      obtain ⟨k, s₄, h₄, h⟩ := runs_bind.mp h
      exact ((bmapSlot_sameHead h₁).trans (bread_same _ _ _ _ _ h₄.ends).sameHead).trans (ih h)

theorem bmap_sameHead {x block z : Nat} {create : Bool} {s t : Kernel}
    (h : Runs Apart (bmap x block create) s z t) : SameHead x s t ∧ block < TOTAL_BLOCK := by
  obtain ⟨hlt, level, index, rest, divider, s', -, hs, h⟩ := bmap_start h
  exact ⟨hs.sameHead.trans (bmapReckon_sameHead h), hlt⟩

theorem SameHead.desc {x : Nat} {s t : Kernel} (h : SameHead x s t) {f : Field}
    (hf : f.off + f.width ≤ 14) : t.desc x f = s.desc x f := by
  unfold Kernel.desc
  rw [h.tab]
  exact fetch_congr fun o h1 h2 => h.head o (by omega) (by omega)

/-! ## 2. One round of `inode_write` -/

section Round

variable {C : List Frame → Kernel → Prop} {T : Tables} {P : Key → Prop} {x : Nat} {s t : Kernel}

theorem mark_dirty_of {k k' : Key} (hd : (s.cache.buf k').dirty = true) :
    ((s.mark k).cache.buf k').dirty = true := by
  by_cases e : k' = k
  · exact e ▸ mark_dirty s k
  · exact (congrArg Buffer.dirty (setBuf_buf_of_ne e)).trans hd

/-- What `growSize` does when the file grows. -/
def Kernel.grown (s : Kernel) (x e : Nat) : Kernel :=
  (s.poke (s.tab.inodeTable x).buf fun b =>
    store b ((s.tab.inodeTable x).desc + Field.size.off) Field.size.width e).mark
      (s.tab.inodeTable x).buf

theorem growSize_cases {e : Nat} {u : Unit} (h : Runs C (growSize x e) s u t) :
    (s.desc x .size < e ∧ t = s.grown x e) ∨ (e ≤ s.desc x .size ∧ t = s) := by
  obtain ⟨size, s₁, h₁, h⟩ := runs_bind.mp h
  rw [runs_descGet] at h₁
  obtain ⟨rfl, rfl⟩ := h₁
  rcases runs_ite.mp h with ⟨hlt, h⟩ | ⟨hle, -, rfl⟩
  · obtain ⟨_, s₂, h₂, h⟩ := runs_bind.mp h
    rw [runs_descSet] at h₂
    obtain ⟨i, s₃, ⟨rfl, rfl⟩, h⟩ := runs_bind.mp h
    rw [runs_setDirty] at h
    exact .inl ⟨hlt, by rw [← h, ← h₂]; rfl⟩
  · exact .inr ⟨Nat.le_of_not_lt hle, rfl⟩

theorem grown_desc (s : Kernel) (x e : Nat) (f : Field) :
    (s.grown x e).desc x f = fetch (store (s.view (s.tab.inodeTable x).buf)
      ((s.tab.inodeTable x).desc + Field.size.off) Field.size.width e)
        ((s.tab.inodeTable x).desc + f.off) f.width := by
  unfold Kernel.desc
  rw [show (s.grown x e).tab = s.tab from rfl, Kernel.view, Kernel.grown, (mark_same _ _).view]
  exact congrArg (fetch · _ _) (Kernel.view_poke_self ..)

theorem grown_size (s : Kernel) (x : Nat) {e : Nat} (he : e < 256 ^ 4) :
    (s.grown x e).desc x .size = e := by
  rw [grown_desc]
  exact fetch_store_of_lt he

theorem grown_mtime (s : Kernel) (x e : Nat) : (s.grown x e).desc x .mtime = s.desc x .mtime := by
  rw [grown_desc]
  refine fetch_store_ne (.inr ?_)
  show _ + 4 + 4 ≤ _ + 8
  omega

theorem growSize_atMarked (k : Key) (e : Nat) : Keeps C (AtMarked T P k) (growSize x e) := by
  rintro s u t ⟨⟨rfl, hs⟩, hd⟩ h
  rcases growSize_cases h with ⟨-, rfl⟩ | ⟨-, rfl⟩
  · exact ⟨(At.poke ⟨rfl, hs⟩ _ _).mark, mark_dirty_of ((Kernel.poke_dirty ..).trans hd)⟩
  · exact ⟨⟨rfl, hs⟩, hd⟩

theorem inodeWriteRound_at (left offset : Nat) (buf : Bytes) :
    Keeps C (At T P) (inodeWriteRound x left offset buf) := by
  refine triple_bind (bmap_at x _ true) fun nr => triple_bind (keeps_check _ _) fun _ =>
    triple_bind (keeps_reads _) fun i => triple_bind (bread_at i.dev nr) fun bf =>
      triple_bind (setDirty_atMarked bf) fun _ => ?_
  refine triple_bind (growSize_atMarked bf _) fun _ => triple_bind (poke_atMarked bf _) fun _ => ?_
  refine triple_pre (P := At T P) ?_ fun _ h => h.1
  exact keeps_bind (triple_mapLabel (brelse_at bf)) fun _ => keeps_pure _

/-- **One round.** The size becomes the end of what was written if that is more, and then the
    inode's block is marked; the modification time is not touched. -/
structure RoundSpec (x end' : Nat) (s t : Kernel) : Prop where
  tab : t.tab = s.tab
  clock : t.clock = s.clock
  tick : t.tick = s.tick
  mtime : t.desc x .mtime = s.desc x .mtime
  size : t.desc x .size = max (s.desc x .size) end'
  marked : s.desc x .size < end' → (t.cache.buf (s.tab.inodeTable x).buf).dirty = true

theorem growSize_spec {e : Nat} {u : Unit} (he : e < 256 ^ 4) (h : Runs C (growSize x e) s u t) :
    RoundSpec x e s t := by
  rcases growSize_cases h with ⟨hlt, rfl⟩ | ⟨hle, rfl⟩
  · refine ⟨rfl, rfl, rfl, grown_mtime s x e, ?_, fun _ => mark_dirty ..⟩
    rw [grown_size s x he, Nat.max_eq_right (Nat.le_of_lt hlt)]
  · exact ⟨rfl, rfl, rfl, rfl, (Nat.max_eq_left hle).symm, fun hlt => absurd hlt (Nat.not_lt.mpr hle)⟩

theorem inodeWriteRound_spec {left offset chars : Nat} {buf : Bytes}
    (h : Runs Apart (inodeWriteRound x left offset buf) s chars t) :
    chars = min (BLOCK_SIZE - offset % BLOCK_SIZE) left ∧ RoundSpec x (offset + chars) s t := by
  obtain ⟨nr, s₁, h₁, h⟩ := runs_bind.mp h
  obtain ⟨hh, hlt⟩ := bmap_sameHead h₁
  obtain ⟨_, s₂, h₂, h⟩ := runs_bind.mp h
  rw [runs_assert] at h₂
  obtain ⟨-, rfl⟩ := h₂
  obtain ⟨i, s₃, ⟨rfl, rfl⟩, h⟩ := runs_bind.mp h
  obtain ⟨bf, s₄, h₄, h⟩ := runs_bind.mp h
  obtain ⟨_, s₅, h₅, h⟩ := runs_bind.mp h
  obtain ⟨_, s₆, h₆, h⟩ := runs_bind.mp h
  obtain ⟨_, s₇, h₇, h⟩ := runs_bind.mp h
  obtain ⟨_, s₈, h₈, hr⟩ := runs_bind.mp h
  obtain ⟨rfl, rfl⟩ := hr
  refine ⟨rfl, ?_⟩
  rw [runs_setDirty] at h₅
  rw [runs_poke] at h₇
  -- up to `growSize` the head of the descriptor is as it was
  have h₁₅ : SameHead x s s₅ := (hh.trans (bread_same _ _ _ _ _ h₄.ends).sameHead).trans
    (h₅ ▸ mark_sameHead s₄ bf)
  have hblock : offset + min (BLOCK_SIZE - offset % BLOCK_SIZE) left < 256 ^ 4 := by
    unfold BLOCK_SIZE TOTAL_BLOCK DIRECT_BLOCK INDIRECT1_BLOCK INDIRECT2_BLOCK INDIRECT1_BLOCK
      BLOCK_INDEXES at *
    omega
  have hg := growSize_spec hblock h₆
  -- the block is dirty, so it is written back under its label: it is not the inode's own
  have hd₅ : (s₅.cache.buf bf).dirty = true := h₅ ▸ mark_dirty s₄ bf
  have hd₆ : (s₆.cache.buf bf).dirty = true := by
    rcases growSize_cases h₆ with ⟨-, rfl⟩ | ⟨-, rfl⟩
    · exact mark_dirty_of ((Kernel.poke_dirty ..).trans hd₅)
    · exact hd₅
  have hd₇ : (s₇.cache.buf bf).dirty = true := h₇ ▸ (Kernel.poke_dirty ..).trans hd₆
  rw [runs_within] at h₈
  obtain ⟨_, s₉, h₉, h₈'⟩ := runs_bind.mp h₈
  obtain ⟨hlab, rfl⟩ := bwrite_dirty h₉ hd₇
  have htab : s₇.tab = s.tab := by rw [← h₇]; exact hg.tab.trans h₁₅.tab
  have hne : bf ≠ (s.tab.inodeTable x).buf := by rw [← htab]; exact hlab
  have hp : SameHead x s₆ s₇ := h₇ ▸ poke_sameHead s₆ bf _ fun e => by
    rw [hg.tab, h₁₅.tab] at e
    exact absurd e hne
  have hb : SameHead x s₇ s₈ := (brelse_same bf _ _ _ h₈.ends).sameHead
  have h₆₈ := hp.trans hb
  refine ⟨h₆₈.tab.trans (hg.tab.trans h₁₅.tab), h₆₈.clock.trans (hg.clock.trans h₁₅.clock),
    h₆₈.tick.trans (hg.tick.trans h₁₅.tick), ?_, ?_, ?_⟩
  · rw [h₆₈.desc (by decide), hg.mtime, h₁₅.desc (by decide)]
  · rw [h₆₈.desc (by decide), hg.size, h₁₅.desc (by decide)]
  · intro hlt
    rw [← h₁₅.desc (f := .size) (by decide)] at hlt
    have hm := hg.marked hlt
    rw [h₁₅.tab] at hm
    obtain ⟨_, s₁₀, h₁₀, h⟩ := runs_bind.mp h₈'
    rw [onCache, runs_modify] at h₁₀
    obtain ⟨b, s₁₁, ⟨-, rfl⟩, h⟩ := runs_bind.mp h
    rw [runs_assert] at h
    rw [← h.2, ← h₁₀]
    have hkeep : ∀ c : Cache, ((((c.flush bf).flushed bf).addCount bf (-1)).buf
        (s.tab.inodeTable x).buf).dirty = (c.buf (s.tab.inodeTable x).buf).dirty := fun c => by
      unfold Cache.addCount Cache.flushed
      rw [setBuf_buf_of_ne (Ne.symm hne), setBuf_buf_of_ne (Ne.symm hne)]
      rfl
    refine (hkeep s₇.cache).trans ?_
    rw [← h₇]
    exact (Kernel.poke_dirty ..).trans hm

end Round

/-! ## 3. `inode_write` -/

section Write

variable {T : Tables} {P : Key → Prop} {x : Nat} {s t : Kernel}

/-- **The loop of `inode_write`.** -/
theorem inodeWriteLoop_spec {fuel left offset r : Nat} {buf : Bytes} (hf : left ≤ fuel)
    (h : Runs Apart (inodeWriteLoop x fuel left offset buf) s r t) (hl : 0 < left) :
    RoundSpec x (offset + left) s t := by
  induction fuel generalizing left offset buf s with
  | zero => omega
  | succ fuel ih =>
    rcases runs_ite.mp h with ⟨h0, -⟩ | ⟨-, h⟩
    · omega
    · obtain ⟨chars, s₁, h₁, h⟩ := runs_bind.mp h
      obtain ⟨hc, hr⟩ := inodeWriteRound_spec h₁
      have hpos : 0 < chars := by
        rw [hc]
        unfold BLOCK_SIZE
        omega
      have hle : chars ≤ left := hc ▸ Nat.min_le_right ..
      by_cases hlast : left - chars = 0
      · -- the last round
        have hend : offset + left = offset + chars := by omega
        rw [hend]
        cases fuel with
        | zero => exact h.2 ▸ hr
        | succ fuel =>
          rcases runs_ite.mp h with ⟨-, -, rfl⟩ | ⟨hn, -⟩
          · exact hr
          · exact absurd hlast hn
      · have hrest := ih (by omega) h (Nat.pos_of_ne_zero hlast)
        have hend : offset + chars + (left - chars) = offset + left := by omega
        rw [hend] at hrest
        refine ⟨hrest.tab.trans hr.tab, hrest.clock.trans hr.clock, hrest.tick.trans hr.tick,
          hrest.mtime.trans hr.mtime, ?_, fun hlt => ?_⟩
        · rw [hrest.size, hr.size]
          omega
        · rw [← hr.tab]
          refine hrest.marked ?_
          rw [hr.size]
          omega

theorem inodeWriteLoop_at (fuel left offset : Nat) (buf : Bytes) {C : List Frame → Kernel → Prop} :
    Keeps C (At T P) (inodeWriteLoop x fuel left offset buf) := by
  induction fuel generalizing left offset buf with
  | zero => exact keeps_pure _
  | succ fuel ih =>
    exact triple_ite (fun _ => keeps_pure _) fun _ =>
      keeps_bind (inodeWriteRound_at left offset buf) fun _ => ih _ _ _

/-- **When `inode_write` leaves its inode's block clean**: it makes the file longer, or it stores
    the modification time that is there, or it writes nothing and the block is dirty anyway. -/
def WriteMeets (s : Kernel) (x len offset : Nat) : Prop :=
  (0 < len ∧ s.desc x .size < offset + len) ∨
  s.clock s.tick % 256 ^ 4 = s.desc x .mtime ∨
  (len = 0 ∧ (s.cache.buf (s.tab.inodeTable x).buf).dirty = true)

/-- The last store of `inode_write`, which no `dirty = true` follows. -/
theorem storeMtime_clean (hs : Clean s.cache) (v : Nat)
    (h : (s.cache.buf (s.tab.inodeTable x).buf).dirty = true ∨
      v % 256 ^ 4 = s.desc x .mtime) :
    Clean (s.poke (s.tab.inodeTable x).buf fun b =>
      store b ((s.tab.inodeTable x).desc + Field.mtime.off) Field.mtime.width v).cache := by
  rcases h with hd | hv
  · exact cleanBut_poke_dirty hs hd fun b =>
      store b ((s.tab.inodeTable x).desc + Field.mtime.off) Field.mtime.width v
  · have hid : store (s.view (s.tab.inodeTable x).buf)
        ((s.tab.inodeTable x).desc + Field.mtime.off) Field.mtime.width v =
          s.view (s.tab.inodeTable x).buf := store_fetch hv
    exact cleanBut_poke_id (f := fun b =>
      store b ((s.tab.inodeTable x).desc + Field.mtime.off) Field.mtime.width v) hs hid

theorem inodeWrite_clean {buf : Bytes} {len offset r : Nat} (hs : Clean s.cache)
    (hm : WriteMeets s x len offset) (h : Runs Apart (inodeWrite x buf len offset) s r t) :
    Clean t.cache := by
  obtain ⟨mode, s₁, h₁, h⟩ := runs_bind.mp h
  rw [runs_descGet] at h₁
  obtain ⟨-, rfl⟩ := h₁
  obtain ⟨_, s₂, h₂, h⟩ := runs_bind.mp h
  rw [runs_assert] at h₂
  obtain ⟨-, rfl⟩ := h₂
  obtain ⟨r', s₃, h₃, h⟩ := runs_bind.mp h
  obtain ⟨now, s₄, h₄, h⟩ := runs_bind.mp h
  rw [runs_time] at h₄
  obtain ⟨rfl, rfl⟩ := h₄
  obtain ⟨_, s₅, h₅, h⟩ := runs_bind.mp h
  rw [runs_descSet] at h₅
  obtain ⟨i, s₆, ⟨-, rfl⟩, h⟩ := runs_bind.mp h
  obtain ⟨_, s₇, h₇, -, rfl⟩ := runs_bind.mp h
  have hc₃ : Clean s₃.cache := (inodeWriteLoop_at len len offset buf s r' s₃ ⟨rfl, hs⟩ h₃).2
  refine bwrite_tidy _ _ _ _ h₇.ends _ ?_
  rw [← h₅]
  refine storeMtime_clean (s := { s₃ with tick := s₃.tick + 1 }) hc₃ _ ?_
  show (s₃.cache.buf (s₃.tab.inodeTable x).buf).dirty = true ∨
    s₃.clock s₃.tick % 256 ^ 4 = s₃.desc x .mtime
  by_cases h0 : len = 0
  · -- nothing was written
    subst h0
    obtain ⟨-, rfl⟩ := h₃
    rcases hm with ⟨hlt, -⟩ | hnow | ⟨-, hd⟩
    · exact absurd hlt (Nat.lt_irrefl 0)
    · exact .inr hnow
    · exact .inl hd
  · have hr := inodeWriteLoop_spec (Nat.le_refl len) h₃ (Nat.pos_of_ne_zero h0)
    rcases hm with ⟨-, hlt⟩ | hnow | ⟨h0', -⟩
    · exact .inl (hr.tab ▸ hr.marked hlt)
    · rw [hr.clock, hr.tick, hr.mtime]
      exact .inr hnow
    · exact absurd h0' h0

end Write

/-! ## 4. The system calls -/

section Calls

variable {P : Key → Prop}

theorem rollback_cl {C : List Frame → Kernel → Prop} {α : Type} (buf : Option Key) (dir : Nat)
    (ret : α) : Keeps C (Cl P) (rollback buf dir ret) := cl_of_tidy (walks_tidy.rollback buf dir ret)

/-- Giving back a buffer and two inodes. -/
theorem putBack_cl {C : List Frame → Kernel → Prop} {α : Type} (buf : Key) (x y : Nat) (ret : α) :
    Keeps C (Cl P) (do brelse buf; iput x; iput y; return ret) :=
  cl_of_tidy (obeys_bind (brelse_tidy buf) fun _ => obeys_bind (iput_tidy x) fun _ =>
    obeys_bind (iput_tidy y) fun _ => obeys_pure _)

theorem sysMkdir_cl (pathname : List UInt8) (mode : Nat) :
    Keeps Apart (Cl P) (sysMkdir pathname mode) := by
  refine keeps_bind (cl_of_tidy (walks_tidy.named pathname)) fun r => ?_
  rcases r with _ | ⟨dir, next⟩
  · exact keeps_pure _
  · refine triple_ite (fun _ => rollback_cl _ _ _) fun _ =>
      keeps_bind (cl_of_tidy (permission_obeys dir _)) fun ok =>
        triple_ite (fun _ => rollback_cl _ _ _) fun _ => ?_
    refine keeps_bind (cl_of_tidy (walks_tidy.findEntry dir next)) fun ⟨dir, r⟩ => ?_
    rcases r with _ | ⟨ebuf, _⟩
    · exact keeps_bind (mkdirIn_cl dir next mode) fun _ => keeps_pure _
    · exact rollback_cl _ _ _

/-- What `sys_rmdir` and `sys_unlink` do where they refuse. -/
theorem refuse_cl {C : List Frame → Kernel → Prop} {α : Type} (buf : Key) (x y : Nat) (ret : α) :
    Keeps C (Cl P) (do iput x; iput y; brelse buf; return ret) :=
  cl_of_tidy (obeys_bind (iput_tidy x) fun _ => obeys_bind (iput_tidy y) fun _ =>
    obeys_bind (brelse_tidy buf) fun _ => obeys_pure _)

theorem sysRmdir_cl (pathname : List UInt8) : Keeps Apart (Cl P) (sysRmdir pathname) := by
  refine keeps_bind (cl_of_tidy (walks_tidy.named pathname)) fun r => ?_
  rcases r with _ | ⟨dir, next⟩
  · exact keeps_pure _
  · refine triple_ite (fun _ => rollback_cl _ _ _) fun _ =>
      keeps_bind (cl_of_tidy (permission_obeys dir _)) fun ok =>
        triple_ite (fun _ => rollback_cl _ _ _) fun _ => ?_
    refine keeps_bind (cl_of_tidy (walks_tidy.findEntry dir next)) fun ⟨dir, r⟩ => ?_
    rcases r with _ | ⟨ebuf, entry, _⟩
    · exact rollback_cl _ _ _
    · refine keeps_bind (keeps_reads _) fun d =>
        keeps_bind (cl_of_tidy (dentryNr_obeys ebuf entry)) fun nr =>
          keeps_bind (cl_of_tidy (iget_tidy d.dev nr)) fun inode =>
            keeps_bind (cl_of_tidy (descGet_obeys inode _)) fun mode =>
              keeps_bind (cl_of_tidy runningTask_obeys) fun task =>
                keeps_bind (cl_of_tidy (descGet_obeys dir _)) fun dmode =>
                  keeps_bind (cl_of_tidy (descGet_obeys inode _)) fun uid =>
                    keeps_bind (keeps_reads _) fun d => keeps_bind (keeps_reads _) fun ino => ?_
      refine triple_ite (fun _ => refuse_cl _ _ _ _) fun _ =>
        keeps_bind (cl_of_tidy (walks_tidy.isEmpty inode)) fun empty =>
          triple_ite (fun _ => refuse_cl _ _ _ _) fun _ => ?_
      exact keeps_bind (rmdirIn_cl dir inode ebuf entry) fun _ => refuse_cl _ _ _ _

theorem sysLink_cl (oldname newname : List UInt8) :
    Keeps Apart (Cl P) (sysLink oldname newname) := by
  have back : ∀ inode dir : Nat, Keeps Apart (Cl P) (do iput inode; rollback none dir false) :=
    fun inode dir => keeps_bind (cl_of_tidy (iput_tidy inode)) fun _ => rollback_cl _ _ _
  refine keeps_bind (cl_of_tidy (walks_tidy.namei oldname)) fun r => ?_
  rcases r with _ | inode
  · exact keeps_pure _
  · refine keeps_bind (cl_of_tidy (descGet_obeys inode _)) fun mode =>
      triple_ite (fun _ => rollback_cl _ _ _) fun _ =>
        keeps_bind (cl_of_tidy (walks_tidy.named newname)) fun r => ?_
    rcases r with _ | ⟨dir, next⟩
    · exact rollback_cl _ _ _
    · refine keeps_bind (keeps_reads _) fun d => keeps_bind (keeps_reads _) fun ino =>
        triple_ite (fun _ => back inode dir) fun _ =>
          keeps_bind (cl_of_tidy (permission_obeys dir _)) fun ok =>
            triple_ite (fun _ => back inode dir) fun _ =>
              keeps_bind (cl_of_tidy (walks_tidy.findEntry dir next)) fun ⟨dir, r⟩ => ?_
      rcases r with _ | ⟨buf, _⟩
      · exact keeps_bind (linkIn_cl dir inode next) fun buf => putBack_cl _ _ _ _
      · exact putBack_cl _ _ _ _

theorem sysUnlink_cl (filename : List UInt8) : Keeps Apart (Cl P) (sysUnlink filename) := by
  refine keeps_bind (cl_of_tidy (walks_tidy.named filename)) fun r => ?_
  rcases r with _ | ⟨dir, next⟩
  · exact keeps_pure _
  · refine triple_ite (fun _ => rollback_cl _ _ _) fun _ =>
      keeps_bind (cl_of_tidy (permission_obeys dir _)) fun ok =>
        triple_ite (fun _ => rollback_cl _ _ _) fun _ => ?_
    refine keeps_bind (cl_of_tidy (walks_tidy.findEntry dir next)) fun ⟨dir, r⟩ => ?_
    rcases r with _ | ⟨buf, entry, _⟩
    · exact rollback_cl _ _ _
    · refine keeps_bind (keeps_reads _) fun d =>
        keeps_bind (cl_of_tidy (dentryNr_obeys buf entry)) fun nr =>
          keeps_bind (cl_of_tidy (iget_tidy d.dev nr)) fun inode =>
            keeps_bind (cl_of_tidy (descGet_obeys inode _)) fun mode =>
              keeps_bind (cl_of_tidy runningTask_obeys) fun task =>
                keeps_bind (cl_of_tidy (descGet_obeys inode _)) fun uid => ?_
      refine triple_ite (fun _ => putBack_cl _ _ _ _) fun _ => ?_
      exact keeps_bind (unlinkIn_cl inode buf entry) fun _ => putBack_cl _ _ _ _

theorem sysMknod_cl (filename : List UInt8) (mode dev : Nat) :
    Keeps Apart (Cl P) (sysMknod filename mode dev) := by
  refine keeps_bind (cl_of_tidy (walks_tidy.named filename)) fun r => ?_
  rcases r with _ | ⟨dir, next⟩
  · exact keeps_pure _
  · refine triple_ite (fun _ => rollback_cl _ _ _) fun _ =>
      keeps_bind (cl_of_tidy (permission_obeys dir _)) fun ok =>
        triple_ite (fun _ => rollback_cl _ _ _) fun _ => ?_
    refine keeps_bind (cl_of_tidy (walks_tidy.findEntry dir next)) fun ⟨dir, r⟩ => ?_
    rcases r with _ | ⟨buf, _⟩
    · exact keeps_bind (mknodIn_cl dir next mode dev) fun ⟨buf, inode⟩ => putBack_cl _ _ _ _
    · exact rollback_cl _ _ _

theorem openMakeup_cl {C : List Frame → Kernel → Prop} (dir : Nat) (buf : Key) (inode flag : Nat) :
    Keeps C (Cl P) (openMakeup dir buf inode flag) := by
  refine keeps_bind (cl_of_tidy (permission_obeys inode _)) fun ok =>
    keeps_bind (cl_of_tidy (descGet_obeys inode _)) fun mode =>
      triple_ite (fun _ => putBack_cl _ _ _ _) fun _ => ?_
  have htrunc : Keeps C (Cl P) (truncateIf inode flag) :=
    triple_ite (fun _ => cl_of_at fun _ => inodeTruncate_at inode) fun _ => keeps_pure _
  exact keeps_bind htrunc fun _ => keeps_bind (cl_of_tidy (brelse_tidy buf)) fun _ =>
    keeps_bind (cl_of_tidy (iput_tidy dir)) fun _ => keeps_pure _

theorem inodeOpen_cl (pathname : List UInt8) (flag mode : Nat) :
    Keeps Apart (Cl P) (inodeOpen pathname flag mode) := by
  refine keeps_bind (cl_of_tidy (walks_tidy.named pathname)) fun r => ?_
  rcases r with _ | ⟨dir, next⟩
  · exact keeps_pure _
  · refine triple_ite (fun _ => keeps_pure _) fun _ =>
      keeps_bind (cl_of_tidy (walks_tidy.findEntry dir next)) fun ⟨dir, r⟩ => ?_
    rcases r with _ | ⟨buf, entry, _⟩
    · refine triple_ite (fun _ => rollback_cl _ _ _) fun _ =>
        keeps_bind (cl_of_tidy (permission_obeys dir _)) fun ok =>
          triple_ite (fun _ => rollback_cl _ _ _) fun _ => ?_
      exact keeps_bind (openCreate_cl dir next mode) fun ⟨buf, inode⟩ => openMakeup_cl _ _ _ _
    · exact keeps_bind (keeps_reads _) fun d =>
        keeps_bind (cl_of_tidy (dentryNr_obeys buf entry)) fun nr =>
          keeps_bind (cl_of_tidy (iget_tidy d.dev nr)) fun inode => openMakeup_cl _ _ _ _

theorem onFile_tidy (f : Nat) (g : File → File) : Obeys Tidy (onFile f g) := onTables_tidy _

theorem onTask_tidy (g : Task → Task) : Obeys Tidy (onTask g) := onTables_tidy _

theorem fileOf_tidy (fd : Nat) : Obeys Tidy (fileOf fd) :=
  obeys_bind runningTask_obeys fun _ => obeys_pure _

theorem sysOpen_cl (filename : List UInt8) (flags mode : Nat) :
    Keeps Apart (Cl P) (sysOpen filename flags mode) := by
  have hfd : Obeys Tidy taskGetFd := obeys_bind runningTask_obeys fun _ => obeys_need _ _
  have hfile : Obeys Tidy getFile := obeys_bind (obeys_reads _) fun _ =>
    obeys_bind (obeys_need _ _) fun f => obeys_bind (onFile_tidy f _) fun _ => obeys_pure _
  refine keeps_bind (inodeOpen_cl filename flags mode) fun r => ?_
  rcases r with _ | inode
  · exact keeps_pure _
  · exact cl_of_tidy (obeys_bind hfd fun fd => obeys_bind hfile fun f =>
      obeys_bind (fileOf_tidy fd) fun _ => obeys_bind (obeys_check _ _) fun _ =>
        obeys_bind (onTask_tidy _) fun _ => obeys_bind (descGet_obeys inode _) fun _ =>
          obeys_bind (descGet_obeys inode _) fun _ => obeys_bind (onFile_tidy f _) fun _ =>
            obeys_pure _)

theorem sysClose_tidy (fd : Nat) : Obeys Tidy (sysClose fd) := by
  have hput : ∀ f, Obeys Tidy (putFile f) := fun f => by
    refine obeys_bind (obeys_reads _) fun _ => obeys_bind (obeys_check _ _) fun _ =>
      obeys_bind (onFile_tidy f _) fun _ => obeys_bind (obeys_reads _) fun t =>
        obeys_ite (fun _ => ?_) fun _ => obeys_pure _
    cases (t.fileTable f).inode with
    | none => exact obeys_pure _
    | some x => exact iput_tidy x
  refine obeys_bind (obeys_check _ _) fun _ => obeys_bind (fileOf_tidy fd) fun r => ?_
  cases r with
  | none => exact obeys_pure _
  | some f =>
    exact obeys_bind (obeys_reads _) fun _ => obeys_bind (obeys_check _ _) fun _ =>
      obeys_bind (hput f) fun _ => onTask_tidy _

end Calls

/-! ## 5. Runs -/

/-- The condition on a call, and on the state before it. -/
def OpMeets : Op → Kernel → Prop
  | .inodeWrite x _ len offset, s => WriteMeets s x len offset
  | _, _ => True

theorem op_clean (op : Op) {s t : Kernel} (hs : Clean s.cache) (hok : OpMeets op s)
    (h : Runs Apart op.code s () t) : Clean t.cache := by
  have ign : ∀ {α : Type} {p : Code α}, Keeps Apart (Cl fun _ => False) p →
      Runs Apart (ignore p) s () t → Clean t.cache := fun hp hr => by
    obtain ⟨a, ha⟩ := runs_ignore.mp hr
    exact hp s a t hs ha
  cases op with
  | mkdir p m => exact ign (sysMkdir_cl p m) h
  | rmdir p => exact ign (sysRmdir_cl p) h
  | link p q => exact ign (sysLink_cl p q) h
  | unlink p => exact ign (sysUnlink_cl p) h
  | mknod p m d => exact ign (sysMknod_cl p m d) h
  | inodeOpen p f m => exact ign (inodeOpen_cl p f m) h
  | sysOpen p f m => exact ign (sysOpen_cl p f m) h
  | close fd => exact cl_of_tidy (sysClose_tidy fd) s () t hs h
  | inodeRead x buf len off => exact ign (cl_of_tidy (walks_tidy.inodeRead x buf len off)) h
  | inodeWrite x buf len off =>
    obtain ⟨a, ha⟩ := runs_ignore.mp h
    exact inodeWrite_clean hs hok ha
  | inodeTruncate x => exact cl_of_at (fun _ => inodeTruncate_at x) s () t hs h

/-- The buffer of `k` is recycled: its bytes are gone. -/
def Cache.evict (c : Cache) (k : Key) : Cache := c.setBuf k { c.buf k with data := none }

/-- Recycling a clean buffer changes nothing that can be seen. -/
theorem view_evict {c : Cache} (hc : Clean c) {k : Key} (hd : (c.buf k).dirty = false) :
    (c.evict k).view = c.view := by
  refine view_setBuf ?_
  show c.disk k = (c.buf k).data.getD (c.disk k)
  cases hb : (c.buf k).data with
  | none => rfl
  | some d => exact hc k d id hb hd

/-- **Runs whose steps meet the conditions keep every clean buffer equal to its block**, and
    recycling such a buffer loses nothing. -/
theorem clean_run {s t : Kernel} (h : Run OpMeets Apart s t) (hs : Clean s.cache) :
    Clean t.cache ∧ ∀ k, (t.cache.buf k).dirty = false → (t.cache.evict k).view = t.cache.view := by
  have hc : Clean t.cache := run_keeps (I := fun s => Clean s.cache)
    (fun op _ _ hs hok hr => op_clean op hs hok hr) h hs
  exact ⟨hc, fun k hd => view_evict hc hd⟩

/-! ### A file written twice -/

instance (s : Kernel) (x len offset : Nat) : Decidable (WriteMeets s x len offset) :=
  inferInstanceAs (Decidable (_ ∨ _ ∨ _))

instance : (op : Op) → (s : Kernel) → Decidable (OpMeets op s)
  | .inodeWrite x _ len offset, s => inferInstanceAs (Decidable (WriteMeets s x len offset))
  | .mkdir .., _ | .rmdir .., _ | .link .., _ | .unlink .., _ | .mknod .., _ | .inodeOpen .., _
  | .sysOpen .., _ | .close .., _ | .inodeRead .., _ | .inodeTruncate .., _ => .isTrue trivial

instance (l : List Frame) (s : Kernel) : Decidable (Apart l s) := by
  unfold Apart
  split <;> infer_instance

namespace Sample

theorem fresh_clean : Clean fresh.cache := fun _ _ _ hd => nomatch hd

/-- The buffer of `k` is valid, not dirty, and differs from its block. -/
def stale (k : Key) (t : Kernel) : Bool :=
  match (t.cache.buf k).data with
  | none => false
  | some d => !(t.cache.buf k).dirty && fetch d 0 64 != fetch (t.cache.disk k) 0 64

theorem not_clean_of_stale {k : Key} {t : Kernel} (h : stale k t = true) : ¬ Clean t.cache := by
  intro hc
  unfold stale at h
  split at h
  next => cases h
  next d hd =>
    rw [Bool.and_eq_true, Bool.not_eq_true', bne_iff_ne] at h
    rw [hc k d id hd h.1] at h
    exact h.2 rfl

/-- A file made and written once. -/
def writeOnce : List Op :=
  [.inodeOpen fileA (O_CREAT ||| O_RDWR) 0o644, .inodeWrite 1 (fun _ => 7) 4 0]

/-- And written again at the same place. -/
def writeTwice : List Op := writeOnce ++ [.inodeWrite 1 (fun _ => 7) 4 0]

end Sample

theorem clean_run_once : ∃ t, Run OpMeets Apart Sample.fresh t ∧ Clean t.cache := by
  obtain ⟨t, ht, -⟩ := run_of_check OpMeets Apart (fun _ => true) Sample.writeOnce Sample.fresh
    (by decide +kernel)
  exact ⟨t, ht, (clean_run ht Sample.fresh_clean).1⟩

/-- The second write stores its time in the inode's block, which is not dirty any more. -/
theorem clean_run_not_always : ¬ ∀ s t : Kernel, Clean s.cache →
    Run anyOp anyPoint s t → Clean t.cache := by
  intro h
  obtain ⟨t, ht, hf⟩ := run_of_check anyOp anyPoint (Sample.stale ⟨Sample.dev, 4⟩)
    Sample.writeTwice Sample.fresh (by decide +kernel)
  exact Sample.not_clean_of_stale hf (h _ t Sample.fresh_clean ht)

end Yuios
