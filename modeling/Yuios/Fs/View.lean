/-
  File:      Yuios/Fs/View.lean
  Subject:   WHAT A RUN SHOWS: the effect of the buffer calls and the allocators on the bytes that
             the blocks show, whatever is cached and whatever is dirty.

  * `Same s t` -- the blocks show the same bytes, the tables and the clock are the same. `bread`,
    `bwrite`, `brelse` and the dirty flag change no more than that (`bread_same`, ...).
  * `view_poke` -- only a write through a pointer into a buffer changes what a block shows.
  * `ballocLoop_spec`, ... -- an allocator sets or clears one bit of one bitmap block.
-/
import Yuios.Fs.Walk

namespace Yuios

open Lib Prog Code

/-! ## 1. The view of the cache -/

section Cache

variable {c : Cache} {k k' : Key}

@[simp] theorem setBuf_buf_self {b : Buffer} : (c.setBuf k b).buf k = b := Function.update_self ..

theorem setBuf_buf_of_ne {b : Buffer} (h : k' ≠ k) : (c.setBuf k b).buf k' = c.buf k' :=
  Function.update_of_ne h ..

/-- A buffer changed without its bytes. -/
theorem view_setBuf {b : Buffer} (h : b.data.getD (c.disk k) = c.view k) :
    (c.setBuf k b).view = c.view := by
  funext k'
  by_cases e : k' = k
  · subst e
    rw [← h]
    unfold Cache.view
    rw [setBuf_buf_self]
    rfl
  · unfold Cache.view
    rw [setBuf_buf_of_ne e]
    rfl

@[simp] theorem view_addCount {n : Int} : (c.addCount k n).view = c.view := view_setBuf rfl

@[simp] theorem view_setDirty : (c.setDirty k).view = c.view := view_setBuf rfl

@[simp] theorem view_load : (c.load k).view = c.view := by
  unfold Cache.load
  cases h : (c.buf k).data with
  | some d => rfl
  | none =>
    refine view_setBuf ?_
    simp [Cache.view, h]

@[simp] theorem view_flush : (c.flush k).view = c.view := by
  funext k'
  show (c.buf k').data.getD (Function.update c.disk k (c.view k) k') = (c.buf k').data.getD _
  by_cases e : k' = k
  · subst e
    rw [Function.update_self]
    unfold Cache.view
    cases (c.buf k').data <;> rfl
  · rw [Function.update_of_ne e]

@[simp] theorem view_flushed : (c.flushed k).view = c.view := view_setBuf rfl

theorem view_poke {f : Bytes → Bytes} :
    (c.poke k f).view k' = if k' = k then f (c.view k) else c.view k' := by
  unfold Cache.poke
  by_cases e : k' = k
  · subst e
    rw [if_pos rfl]
    unfold Cache.view
    rw [setBuf_buf_self]
    rfl
  · rw [if_neg e]
    unfold Cache.view
    rw [setBuf_buf_of_ne e]
    rfl

theorem view_poke_self {f : Bytes → Bytes} : (c.poke k f).view k = f (c.view k) := by
  rw [view_poke, if_pos rfl]

theorem view_poke_of_ne {f : Bytes → Bytes} (h : k' ≠ k) : (c.poke k f).view k' = c.view k' := by
  rw [view_poke, if_neg h]

end Cache

/-! ## 2. Steps that show nothing -/

/-- The blocks show the same bytes, and nothing outside the cache has changed. -/
structure Same (s t : Kernel) : Prop where
  view : t.cache.view = s.cache.view
  tab : t.tab = s.tab
  clock : t.clock = s.clock
  tick : t.tick = s.tick

instance : Steady Same where
  refl _ := ⟨rfl, rfl, rfl, rfl⟩
  trans h h' := ⟨h'.view.trans h.view, h'.tab.trans h.tab, h'.clock.trans h.clock,
    h'.tick.trans h.tick⟩

theorem Same.refl (s : Kernel) : Same s s := Steady.refl s

theorem Same.trans {s t u : Kernel} (h : Same s t) (h' : Same t u) : Same s u := Steady.trans h h'

theorem Same.symm {s t : Kernel} (h : Same s t) : Same t s :=
  ⟨h.view.symm, h.tab.symm, h.clock.symm, h.tick.symm⟩

theorem onCache_same {f : Cache → Cache} (h : ∀ c : Cache, (f c).view = c.view) :
    Obeys Same (onCache f) := obeys_modify fun s => ⟨h s.cache, rfl, rfl, rfl⟩

theorem hold_same (k : Key) (n : Int) : Obeys Same (onCache (·.addCount k n)) :=
  onCache_same fun _ => view_addCount

theorem setDirty_same (k : Key) : Obeys Same (setDirty k) := onCache_same fun _ => view_setDirty

theorem bread_same (dev : Int) (block : Nat) : Obeys Same (bread dev block) := by
  refine obeys_bind (hold_same _ _) fun _ => obeys_bind (obeys_reads _) fun _ => ?_
  refine obeys_ite (fun _ => obeys_pure _) fun _ => obeys_bind (obeys_sleep _) fun _ => ?_
  exact obeys_bind (onCache_same fun _ => view_load) fun _ => obeys_pure _

theorem bwrite_same (k : Key) : Obeys Same (bwrite k) := by
  refine obeys_bind (obeys_reads _) fun _ => obeys_ite (fun _ => ?_) fun _ => obeys_pure _
  refine obeys_bind (onCache_same fun _ => view_flush) fun _ => obeys_bind (obeys_sleep _) fun _ => ?_
  exact onCache_same fun _ => view_flushed

theorem brelse_same (k : Key) : Obeys Same (brelse k) :=
  obeys_bind (bwrite_same k) fun _ => obeys_bind (hold_same _ _) fun _ =>
    obeys_bind (obeys_reads _) fun _ => obeys_check _ _

theorem brelse?_same (k : Option Key) : Obeys Same (brelse? k) := by
  cases k with
  | none => exact obeys_pure _
  | some k => exact brelse_same k

theorem inodeDirty_same (x : Nat) : Obeys Same (inodeDirty x) :=
  obeys_bind (inodeAt_obeys x) fun _ => setDirty_same _

/-- `bread` answers the buffer of the block. -/
theorem bread_key {C : List Frame → Kernel → Prop} {dev : Int} {block : Nat} {s t : Kernel}
    {k : Key} (h : Runs C (bread dev block) s k t) : k = ⟨dev, block⟩ := by
  obtain ⟨_, s₁, _, h⟩ := runs_bind.mp h
  obtain ⟨_, s₂, _, h⟩ := runs_bind.mp h
  rcases runs_ite.mp h with ⟨_, h⟩ | ⟨_, h⟩
  · exact h.1.symm
  · obtain ⟨_, s₃, _, h⟩ := runs_bind.mp h
    obtain ⟨_, s₄, _, h⟩ := runs_bind.mp h
    exact h.1.symm

/-- The write of a dirty buffer waits for the disk, with the bytes handed over. -/
theorem bwrite_dirty {C : List Frame → Kernel → Prop} {k : Key} {s t : Kernel} {u : Unit}
    (h : Runs C (bwrite k) s u t) (hd : (s.cache.buf k).dirty = true) :
    C [.bwrite k] { s with cache := s.cache.flush k } ∧
      t = { s with cache := (s.cache.flush k).flushed k } := by
  obtain ⟨b, s₁, ⟨rfl, rfl⟩, h⟩ := runs_bind.mp h
  rcases runs_ite.mp h with ⟨-, h⟩ | ⟨hn, -⟩
  · obtain ⟨_, s₁, h₁, h⟩ := runs_bind.mp h
    obtain ⟨_, s₂, h₂, h₃⟩ := runs_bind.mp h
    rw [onCache, runs_modify] at h₁ h₃
    rw [runs_sleep] at h₂
    obtain ⟨hc, rfl⟩ := h₂
    subst h₁
    exact ⟨hc, h₃.symm⟩
  · exact absurd hd hn

/-! ## 3. Steps that read and steps that write -/

/-- The descriptor's field `f` of the in-memory inode `x`. -/
def Kernel.desc (s : Kernel) (x : Nat) (f : Field) : Nat :=
  fetch (s.view (s.tab.inodeTable x).buf) ((s.tab.inodeTable x).desc + f.off) f.width

/-- A write through a pointer into the buffer of `k`. -/
def Kernel.poke (s : Kernel) (k : Key) (f : Bytes → Bytes) : Kernel :=
  { s with cache := s.cache.poke k f }

theorem Kernel.view_poke (s : Kernel) (k k' : Key) (f : Bytes → Bytes) :
    (s.poke k f).view k' = if k' = k then f (s.view k) else s.view k' :=
  Yuios.view_poke

theorem Kernel.view_poke_self (s : Kernel) (k : Key) (f : Bytes → Bytes) :
    (s.poke k f).view k = f (s.view k) := Yuios.view_poke_self

theorem Kernel.view_poke_of_ne (s : Kernel) {k k' : Key} (f : Bytes → Bytes) (h : k' ≠ k) :
    (s.poke k f).view k' = s.view k' := Yuios.view_poke_of_ne h

section Runs

variable {C : List Frame → Kernel → Prop} {s t : Kernel}

@[simp] theorem runs_inodeAt {x : Nat} {i : Inode} :
    Runs C (inodeAt x) s i t ↔ s.tab.inodeTable x = i ∧ s = t := Iff.rfl

@[simp] theorem runs_bytesOf {k : Key} {b : Bytes} :
    Runs C (bytesOf k) s b t ↔ s.view k = b ∧ s = t := Iff.rfl

@[simp] theorem runs_runningTask {a : Task} :
    Runs C runningTask s a t ↔ s.tab.task s.tab.running = a ∧ s = t := Iff.rfl

@[simp] theorem runs_descGet {x : Nat} {f : Field} {v : Nat} :
    Runs C (descGet x f) s v t ↔ s.desc x f = v ∧ s = t := by
  constructor
  · intro h
    obtain ⟨i, s₁, ⟨rfl, rfl⟩, h⟩ := runs_bind.mp h
    obtain ⟨b, s₂, ⟨rfl, rfl⟩, h⟩ := runs_bind.mp h
    exact h
  · rintro ⟨rfl, rfl⟩
    exact runs_bind.mpr ⟨_, _, ⟨rfl, rfl⟩, runs_bind.mpr ⟨_, _, ⟨rfl, rfl⟩, rfl, rfl⟩⟩

@[simp] theorem runs_dentryNr {k : Key} {entry v : Nat} :
    Runs C (dentryNr k entry) s v t ↔ fetch (s.view k) entry 2 = v ∧ s = t := by
  constructor
  · intro h
    obtain ⟨b, s₁, ⟨rfl, rfl⟩, h⟩ := runs_bind.mp h
    exact h
  · rintro ⟨rfl, rfl⟩
    exact runs_bind.mpr ⟨_, _, ⟨rfl, rfl⟩, rfl, rfl⟩

@[simp] theorem runs_poke {k : Key} {f : Bytes → Bytes} {u : Unit} :
    Runs C (poke k f) s u t ↔ s.poke k f = t := runs_modify

@[simp] theorem runs_descSet {x : Nat} {f : Field} {v : Nat} {u : Unit} :
    Runs C (descSet x f v) s u t ↔ s.poke (s.tab.inodeTable x).buf (fun b =>
      store b ((s.tab.inodeTable x).desc + f.off) f.width v) = t := by
  constructor
  · intro h
    obtain ⟨i, s₁, ⟨rfl, rfl⟩, h⟩ := runs_bind.mp h
    exact runs_poke.mp h
  · intro h
    exact runs_bind.mpr ⟨_, _, ⟨rfl, rfl⟩, runs_poke.mpr h⟩

@[simp] theorem runs_time {v : Nat} :
    Runs C time s v t ↔ s.clock s.tick = v ∧ { s with tick := s.tick + 1 } = t := by
  constructor
  · intro h
    obtain ⟨i, s₁, ⟨rfl, rfl⟩, h⟩ := runs_bind.mp h
    obtain ⟨_, s₂, h', h⟩ := runs_bind.mp h
    rw [runs_modify] at h'
    exact h' ▸ h
  · rintro ⟨rfl, rfl⟩
    exact runs_bind.mpr ⟨_, _, ⟨rfl, rfl⟩, runs_bind.mpr ⟨(), _, runs_modify.mpr rfl, rfl, rfl⟩⟩

theorem runs_superOf {dev : Int} {sb : SuperBlock} :
    Runs C (superOf dev) s sb t ↔
      (∃ i, s.tab.getSuper dev = some i ∧ s.tab.superTable i = sb) ∧ s = t := by
  constructor
  · intro h
    obtain ⟨tab, s₁, ⟨rfl, rfl⟩, h⟩ := runs_bind.mp h
    obtain ⟨i, s₂, h', h⟩ := runs_bind.mp h
    rw [runs_need] at h'
    obtain ⟨hi, rfl⟩ := h'
    exact ⟨⟨i, hi, h.1⟩, h.2⟩
  · rintro ⟨⟨i, hi, rfl⟩, rfl⟩
    exact runs_bind.mpr ⟨_, _, ⟨rfl, rfl⟩, runs_bind.mpr ⟨i, _, runs_need.mpr ⟨hi, rfl⟩, rfl, rfl⟩⟩

@[simp] theorem runs_lift {α : Type} {x : Except Stop α} {a : α} :
    Runs C (lift x) s a t ↔ x = .ok a ∧ s = t := by
  cases x with
  | error e => simp [Code.lift]
  | ok b => simp [Code.lift]

@[simp] theorem runs_assert {c : Bool} {u : Unit} :
    Runs C (Code.assert c) s u t ↔ c = true ∧ s = t := runs_check

theorem runs_within {α : Type} {f : Frame} {p : Code α} {a : α} :
    Runs C (within f p) s a t ↔ Runs (fun l => C (l ++ [f])) p s a t := runs_mapLabel

end Runs

/-! ## 4. Where `bmap` starts -/

/-- The walk of `bmap` for block `block` starts at entry `index` of `zone[]`, `level` index blocks
    above the data. -/
inductive BmapStart (block : Nat) : (level index rest divider : Nat) → Prop where
  | direct (h : block < DIRECT_BLOCK) : BmapStart block 0 block block 1
  | single (h : DIRECT_BLOCK ≤ block) (h' : block - DIRECT_BLOCK < INDIRECT1_BLOCK) :
      BmapStart block 1 DIRECT_BLOCK (block - DIRECT_BLOCK) 1
  | double (h : DIRECT_BLOCK + INDIRECT1_BLOCK ≤ block) (h' : block < TOTAL_BLOCK) :
      BmapStart block 2 (DIRECT_BLOCK + 1) (block - DIRECT_BLOCK - INDIRECT1_BLOCK) BLOCK_INDEXES

set_option linter.constructorNameAsVariable false in
theorem bmap_start {C : List Frame → Kernel → Prop} {x block z : Nat} {create : Bool}
    {s t : Kernel} (h : Runs C (bmap x block create) s z t) :
    block < TOTAL_BLOCK ∧ ∃ level index rest divider s', BmapStart block level index rest divider ∧
      Same s s' ∧ Runs C (bmapReckon x create level (s.tab.inodeTable x).buf
        ((s.tab.inodeTable x).desc + (Field.zone 0).off) index rest divider) s' z t := by
  obtain ⟨_, s₁, h₁, h⟩ := runs_bind.mp h
  rw [runs_assert] at h₁
  obtain ⟨hlt, rfl⟩ := h₁
  obtain ⟨i, s₂, ⟨rfl, rfl⟩, h⟩ := runs_bind.mp h
  obtain ⟨_, s₃, h₃, h⟩ := runs_bind.mp h
  have hs := hold_same _ _ _ _ _ h₃.ends
  have hlt := of_decide_eq_true hlt
  refine ⟨hlt, ?_⟩
  rcases runs_ite.mp h with ⟨hd, h⟩ | ⟨hd, h⟩
  · exact ⟨_, _, _, _, s₃, .direct hd, hs, h⟩
  · rcases runs_ite.mp h with ⟨hi, h⟩ | ⟨hi, h⟩
    · exact ⟨_, _, _, _, s₃, .single (Nat.le_of_not_lt hd) hi, hs, h⟩
    · simp only [runs_bind, runs_assert] at h
      obtain ⟨_, s₄, ⟨-, rfl⟩, h⟩ := h
      exact ⟨_, _, _, _, s₃, .double (by omega) hlt, hs, h⟩

end Yuios
