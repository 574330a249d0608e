/-
  File:      Yuios/Fs/Picture.lean
  Subject:   A KERNEL IN OUTLINE: what a call does to the tables, the blocks, the references and the device,
             written as a change of one small record.

  * `Picture` -- the tables, what the blocks show, the buffers that references have been taken to, and what is
    known of the device: `dirty` buffers, `late` ones that are dirty or written back, `stored` ones.
  * `Shows s₀ p s` -- the kernel looks as `p` says, seen from `s₀`, where it began.
  * `Shows.bread` to `Shows.ialloc` -- one rule for each call: it comes to its end, and the picture is this.
    A long piece of kernel code is taken through these rules from line to line; what it leaves behind is then
    a matter of the last picture alone.
-/
import Yuios.Lib.Total
import Yuios.Fs.Content
import Yuios.Fs.InodeMap
import Yuios.Fs.Super

namespace Yuios

open Lib Prog Code

/-- What is known of a kernel. -/
structure Picture where
  tab : Tables
  view : View
  tick : Nat
  held : List Key
  dirty : List Key
  late : List Key
  stored : List Key

namespace Picture

variable (p : Picture)

/-- Another reference. -/
def hold (k : Key) : Picture := { p with held := k :: p.held }

/-- A buffer is read. -/
def read (k : Key) : Picture := { p with held := k :: p.held, dirty := [] }

/-- A buffer is marked. -/
def mark (k : Key) : Picture := { p with dirty := k :: p.dirty, late := k :: p.late }

/-- A marked buffer is written to. -/
def edit (k : Key) (f : Bytes → Bytes) : Picture :=
  { p with view := Function.update p.view k (f (p.view k)), stored := p.stored.filter (· ≠ k) }

/-- A buffer is written to and marked. -/
def touch (k : Key) (f : Bytes → Bytes) : Picture := (p.edit k f).mark k

/-- A buffer is written back. -/
def write (k : Key) : Picture := { p with dirty := p.dirty.filter (· ≠ k) }

/-- A buffer is given back. -/
def give (k : Key) : Picture := { p.write k with held := p.held.erase k, stored := k :: p.stored }

/-- The tables change. -/
def onTab (f : Tables → Tables) : Picture := { p with tab := f p.tab }

/-- The clock is read. -/
def ticked : Picture := { p with tick := p.tick + 1 }

/-- Two writes to a buffer are one. -/
theorem edit_edit (k : Key) (f g : Bytes → Bytes) : (p.edit k f).edit k g = p.edit k fun b => g (f b) := by
  unfold edit
  dsimp only
  rw [Function.update_self, Function.update_idem, List.filter_filter]
  simp only [Bool.and_self]

end Picture

/-- **The kernel looks as the picture says.** -/
structure Shows (s₀ : Kernel) (p : Picture) (s : Kernel) : Prop where
  tab : s.tab = p.tab
  view : s.view = p.view
  clock : s.clock = s₀.clock
  tick : s.tick = p.tick
  held : ∀ k, (s.cache.buf k).count = (s₀.cache.buf k).count + p.held.count k
  dirty : ∀ k ∈ p.dirty, (s.cache.buf k).dirty = true
  late : ∀ k ∈ p.late, (s.cache.buf k).dirty = true ∨ s.cache.disk k = p.view k
  stored : ∀ k ∈ p.stored, s.cache.disk k = p.view k
  kept : ∀ k ∉ p.late, s.cache.disk k = s₀.cache.disk k

/-- Where a call begins. -/
def Kernel.picture (s : Kernel) : Picture := ⟨s.tab, s.view, s.tick, [], [], [], []⟩

theorem Kernel.shows (s : Kernel) : Shows s s.picture s where
  tab := rfl
  view := rfl
  clock := rfl
  tick := rfl
  held _ := (Int.add_zero _).symm
  dirty _ hk := absurd hk List.not_mem_nil
  late _ hk := absurd hk List.not_mem_nil
  stored _ hk := absurd hk List.not_mem_nil
  kept _ _ := rfl

section Rules

variable {s₀ s : Kernel} {p : Picture}

/-- The references count, and less may be known. -/
theorem Shows.weaken {p' : Picture} (h : Shows s₀ p s) (htab : p.tab = p'.tab) (hview : p.view = p'.view)
    (htick : p.tick = p'.tick) (hheld : p.held.Perm p'.held) (hdirty : p'.dirty ⊆ p.dirty)
    (hlate : ∀ k, k ∈ p'.late ↔ k ∈ p.late) (hstored : p'.stored ⊆ p.stored) : Shows s₀ p' s where
  tab := h.tab.trans htab
  view := h.view.trans hview
  clock := h.clock
  tick := h.tick.trans htick
  held k := by rw [h.held k, hheld.count_eq]
  dirty k hk := h.dirty k (hdirty hk)
  late k hk := hview ▸ h.late k ((hlate k).mp hk)
  stored k hk := hview ▸ h.stored k (hstored hk)
  kept k hk := h.kept k fun hm => hk ((hlate k).mpr hm)

/-! ## 1. The cache -/

theorem Shows.addCount (h : Shows s₀ p s) (k : Key) :
    Shows s₀ (p.hold k) { s with cache := s.cache.addCount k 1 } := by
  have hdirty : ∀ k', ((s.cache.addCount k 1).buf k').dirty = (s.cache.buf k').dirty := fun k' => by
    unfold Cache.addCount
    by_cases e : k' = k
    · rw [e, setBuf_buf_self]
    · rw [setBuf_buf_of_ne e]
  refine ⟨h.tab, view_addCount.trans h.view, h.clock, h.tick, fun k' => ?_, fun k' hk => ?_, fun k' hk => ?_,
    h.stored, h.kept⟩
  · rw [Picture.hold, List.count_cons, count_addCount, h.held k']
    by_cases e : k' = k
    · simp [e]
      omega
    · simp [e, Ne.symm e]
  · rw [hdirty k']
    exact h.dirty k' hk
  · rw [hdirty k']
    exact h.late k' hk

theorem disk_load {c : Cache} {k : Key} : (c.load k).disk = c.disk := by
  unfold Cache.load
  cases (c.buf k).data <;> rfl

theorem Shows.load (h : Shows s₀ p s) (k : Key) :
    Shows s₀ { p with dirty := [] } { s with cache := s.cache.load k } := by
  refine ⟨h.tab, view_load.trans h.view, h.clock, h.tick, fun k' => count_load.trans (h.held k'),
    fun k' hk => absurd hk List.not_mem_nil, fun k' hk => ?_, fun k' hk => ?_, fun k' hk => ?_⟩
  · have hlate := h.late k' hk
    have hview : s.view k' = p.view k' := congrFun h.view k'
    show ((s.cache.load k).buf k').dirty = true ∨ (s.cache.load k).disk k' = p.view k'
    unfold Cache.load
    cases hd : (s.cache.buf k).data with
    | some d => exact hlate
    | none =>
      by_cases e : k' = k
      · right
        rw [← hview, e]
        show s.cache.disk k = (s.cache.buf k).data.getD (s.cache.disk k)
        rw [hd]
        rfl
      · dsimp only
        rw [setBuf_buf_of_ne e]
        exact hlate
  · rw [disk_load]
    exact h.stored k' hk
  · rw [disk_load]
    exact h.kept k' hk

/-- The write of a buffer; the device has a late one then. -/
theorem Shows.flushed (h : Shows s₀ p s) {k : Key} (hl : k ∈ p.late) :
    Shows s₀ (p.write k) { s with cache := (s.cache.flush k).flushed k } ∧
      ((s.cache.flush k).flushed k).disk k = p.view k := by
  have hview : ∀ k', s.cache.view k' = p.view k' := congrFun h.view
  have hdisk : ∀ k', ((s.cache.flush k).flushed k).disk k' =
      if k' = k then p.view k else s.cache.disk k' := fun k' => by
    show Function.update s.cache.disk k (s.cache.view k) k' = _
    rw [Function.update_apply, hview]
  have hbuf : ∀ k', k' ≠ k → ((s.cache.flush k).flushed k).buf k' = s.cache.buf k' := fun k' e =>
    setBuf_buf_of_ne e
  refine ⟨⟨h.tab, ?_, h.clock, h.tick, fun k' => ?_, fun k' hk => ?_, fun k' hk => ?_, fun k' hk => ?_,
    fun k' hk => ?_⟩, ?_⟩
  · exact (view_flushed.trans view_flush).trans h.view
  · exact (count_flushed.trans count_flush).trans (h.held k')
  · obtain ⟨hk, hne⟩ := List.mem_filter.mp hk
    dsimp only
    rw [hbuf k' (of_decide_eq_true hne)]
    exact h.dirty k' hk
  · dsimp only
    rw [hdisk k']
    by_cases e : k' = k
    · rw [if_pos e, e]
      exact .inr rfl
    · rw [if_neg e, hbuf k' e]
      exact h.late k' hk
  · dsimp only
    rw [hdisk k']
    by_cases e : k' = k
    · rw [if_pos e, e]
      rfl
    · rw [if_neg e]
      exact h.stored k' hk
  · dsimp only
    rw [hdisk k', if_neg fun e => hk (by rw [e]; exact hl)]
    exact h.kept k' hk
  · rw [hdisk k, if_pos rfl]

theorem Shows.mark (h : Shows s₀ p s) (k : Key) : Shows s₀ (p.mark k) (s.mark k) := by
  have hself : ((s.mark k).cache.buf k).dirty = true := mark_dirty s k
  have hbuf : ∀ k', k' ≠ k → (s.mark k).cache.buf k' = s.cache.buf k' := fun k' e => setBuf_buf_of_ne e
  refine ⟨h.tab, view_setDirty.trans h.view, h.clock, h.tick, fun k' => count_setDirty.trans (h.held k'),
    fun k' hk => ?_, fun k' hk => ?_, h.stored, fun k' hk => h.kept k' fun hm => hk (List.mem_cons_of_mem _ hm)⟩
  · obtain rfl | hk := List.mem_cons.mp hk
    · exact hself
    · by_cases e : k' = k
      · rw [e]
        exact hself
      · rw [hbuf k' e]
        exact h.dirty k' hk
  · obtain rfl | hk := List.mem_cons.mp hk
    · exact .inl hself
    · by_cases e : k' = k
      · rw [e]
        exact .inl hself
      · rw [hbuf k' e]
        exact h.late k' hk

theorem view_update {s : Kernel} (h : Shows s₀ p s) (k : Key) (f : Bytes → Bytes) :
    (s.poke k f).view = Function.update p.view k (f (p.view k)) := by
  have hview : s.view = p.view := h.view
  funext k'
  rw [Kernel.view_poke, Function.update_apply, hview]

/-- Bytes of a marked buffer change. -/
theorem Shows.edit (h : Shows s₀ p s) {k : Key} (hk : k ∈ p.dirty) (f : Bytes → Bytes) :
    Shows s₀ (p.edit k f) (s.poke k f) := by
  have hdirty : ∀ k', ((s.poke k f).cache.buf k').dirty = (s.cache.buf k').dirty := fun k' => by
    by_cases e : k' = k
    · rw [e]
      show ((s.cache.setBuf k _).buf k).dirty = _
      rw [setBuf_buf_self]
    · show ((s.cache.setBuf k _).buf k').dirty = _
      rw [setBuf_buf_of_ne e]
  refine ⟨h.tab, view_update h k f, h.clock, h.tick, fun k' => count_poke.trans (h.held k'), fun k' hk' => ?_,
    fun k' hk' => ?_, fun k' hk' => ?_, h.kept⟩
  · rw [hdirty k']
    exact h.dirty k' hk'
  · rw [hdirty k']
    by_cases e : k' = k
    · rw [e]
      exact .inl (h.dirty k hk)
    · show _ ∨ s.cache.disk k' = Function.update p.view k (f (p.view k)) k'
      rw [Function.update_of_ne e]
      exact h.late k' hk'
  · obtain ⟨hk', hne⟩ := List.mem_filter.mp hk'
    show s.cache.disk k' = Function.update p.view k (f (p.view k)) k'
    rw [Function.update_of_ne (of_decide_eq_true hne)]
    exact h.stored k' hk'

/-- Bytes of a buffer change, and it is marked. -/
theorem Shows.touch (h : Shows s₀ p s) (k : Key) (f : Bytes → Bytes) :
    Shows s₀ (p.touch k f) ((s.poke k f).mark k) := by
  -- only the flag of `k` itself is set late
  have hm := (h.mark k).edit List.mem_cons_self f
  have hsame : ((s.mark k).poke k f).cache.buf = ((s.poke k f).mark k).cache.buf := by
    funext k'
    by_cases e : k' = k
    · rw [e]
      simp only [Kernel.mark, Kernel.poke, Cache.setDirty, Cache.poke, Cache.view, setBuf_buf_self]
      rfl
    · simp [Kernel.mark, Kernel.poke, Cache.setDirty, Cache.poke, setBuf_buf_of_ne e]
  refine ⟨hm.tab, ?_, hm.clock, hm.tick, fun k' => ?_, fun k' hk => ?_, fun k' hk => ?_, hm.stored, hm.kept⟩
  · exact view_setDirty.trans (view_update h k f)
  · rw [← hsame]
    exact hm.held k'
  · rw [← hsame]
    exact hm.dirty k' hk
  · rw [← hsame]
    exact hm.late k' hk

theorem Shows.onTab (h : Shows s₀ p s) (f : Tables → Tables) :
    Shows s₀ (p.onTab f) { s with tab := f s.tab } :=
  ⟨by rw [h.tab]; rfl, h.view, h.clock, h.tick, h.held, h.dirty, h.late, h.stored, h.kept⟩

/-! ## 2. Buffers -/

/-- A check that passes. -/
theorem Shows.check (h : Shows s₀ p s) {c : Bool} {e : Stop} (hc : c = true) :
    Comes (Prog.check c e : Code Unit) s fun _ t => Shows s₀ p t := comes_check hc h

/-- A value that is there. -/
theorem Shows.need (h : Shows s₀ p s) {α : Type} {o : Option α} {a : α} {e : Stop} (ho : o = some a) :
    Comes (Prog.need e o : Code α) s fun b t => b = a ∧ Shows s₀ p t := comes_need ho ⟨rfl, h⟩

/-- A buffer is read. -/
theorem Shows.bread (h : Shows s₀ p s) (dev : Int) (block : Nat) :
    Comes (bread dev block) s fun k t => k = ⟨dev, block⟩ ∧ Shows s₀ (p.read ⟨dev, block⟩) t := by
  have hold := h.addCount ⟨dev, block⟩
  refine comes_bind (comes_modify hold) fun _ t ht => comes_bind (comes_reads (Q := fun _ u => Shows s₀ _ u) ht)
    fun b u hu => ?_
  by_cases hb : b.data.isSome = true
  · exact comes_pos hb (comes_pure ⟨rfl, hu.tab, hu.view, hu.clock, hu.tick, hu.held,
      fun k hk => absurd hk List.not_mem_nil, hu.late, hu.stored, hu.kept⟩)
  · refine comes_neg hb (comes_bind (comes_of_run run_sleep (Q := fun _ v => Shows s₀ _ v) hu) fun _ v hv => ?_)
    exact comes_bind (comes_modify (hv.load ⟨dev, block⟩)) fun _ w hw => comes_pure ⟨rfl, hw⟩

/-- A buffer is written back. -/
theorem Shows.bwrite (h : Shows s₀ p s) {k : Key} (hl : k ∈ p.late) :
    Comes (bwrite k) s fun _ t => Shows s₀ (p.write k) t ∧ t.cache.disk k = p.view k := by
  refine comes_bind (comes_reads (Q := fun b u => b = s.cache.buf k ∧ u = s) ⟨rfl, rfl⟩) fun b u hu => ?_
  obtain ⟨rfl, rfl⟩ := hu
  by_cases hd : (u.cache.buf k).dirty = true
  · obtain ⟨hf, hdisk⟩ := h.flushed hl
    refine comes_pos hd (comes_bind (comes_modify (Q := fun _ v => v = { u with cache := u.cache.flush k }) rfl)
      fun _ v hv => comes_bind (comes_of_run run_sleep (Q := fun _ w => w = v) rfl) fun _ w hw => ?_)
    rw [hw, hv]
    exact comes_modify ⟨hf, hdisk⟩
  · refine comes_neg hd (comes_pure ⟨⟨h.tab, h.view, h.clock, h.tick, h.held, fun k' hk => ?_, h.late, h.stored,
      h.kept⟩, (h.late k hl).resolve_left hd⟩)
    exact h.dirty k' (List.mem_filter.mp hk).1

/-- A reference is given back. -/
theorem Shows.brelse (h : Shows s₀ p s) (hb : s₀.Balanced) {k : Key} (hk : k ∈ p.held) (hl : k ∈ p.late) :
    Comes (brelse k) s fun _ t => Shows s₀ (p.give k) t := by
  refine comes_bind (h.bwrite hl) fun _ t ht => ?_
  obtain ⟨ht, hdisk⟩ := ht
  have hcount : ∀ k', ((t.cache.addCount k (-1)).buf k').count =
      (s₀.cache.buf k').count + (p.held.erase k).count k' := fun k' => by
    have hpos : 0 < p.held.count k := List.count_pos_iff.mpr hk
    have hle : (p.write k).held = p.held := rfl
    rw [count_addCount, ht.held k', hle, List.count_erase]
    by_cases e : k' = k
    · simp [e]
      omega
    · simp [e, Ne.symm e]
  have hdirty : ∀ k', ((t.cache.addCount k (-1)).buf k').dirty = (t.cache.buf k').dirty := fun k' => by
    unfold Cache.addCount
    by_cases e : k' = k
    · rw [e, setBuf_buf_self]
    · rw [setBuf_buf_of_ne e]
  refine comes_bind (comes_modify (Q := fun _ u => u = { t with cache := t.cache.addCount k (-1) }) rfl)
    fun _ u hu => ?_
  rw [hu]
  refine comes_bind (comes_reads (Q := fun b v => b = (t.cache.addCount k (-1)).buf k ∧
    v = { t with cache := t.cache.addCount k (-1) }) ⟨rfl, rfl⟩) fun b v hv => ?_
  obtain ⟨rfl, rfl⟩ := hv
  refine comes_check (decide_eq_true ?_) ⟨ht.tab, view_addCount.trans ht.view, ht.clock, ht.tick, hcount,
    fun k' hk' => ?_, fun k' hk' => ?_, fun k' hk' => ?_, ht.kept⟩
  · have := hb k
    rw [hcount k]
    omega
  · rw [hdirty k']
    exact ht.dirty k' hk'
  · rw [hdirty k']
    exact ht.late k' hk'
  · obtain rfl | hk' := List.mem_cons.mp hk'
    · exact hdisk
    · exact ht.stored k' hk'

theorem Shows.poke (h : Shows s₀ p s) {k : Key} (hk : k ∈ p.dirty) (f : Bytes → Bytes) :
    Comes (poke k f) s fun _ t => Shows s₀ (p.edit k f) t := comes_modify (h.edit hk f)

theorem Shows.setDirty (h : Shows s₀ p s) (k : Key) : Comes (setDirty k) s fun _ t => Shows s₀ (p.mark k) t :=
  comes_modify (h.mark k)

/-- A buffer is written to, and marked then. -/
theorem Shows.pokeMark (h : Shows s₀ p s) (k : Key) (f : Bytes → Bytes) :
    Comes (do Yuios.poke k f; Yuios.setDirty k) s fun _ t => Shows s₀ (p.touch k f) t := by
  refine comes_bind (comes_modify (Q := fun _ t => t = s.poke k f) rfl) fun _ t ht => ?_
  rw [ht]
  exact comes_modify (h.touch k f)

/-! ## 3. Tables -/

theorem Shows.onTables (h : Shows s₀ p s) (f : Tables → Tables) :
    Comes (onTables f) s fun _ t => Shows s₀ (p.onTab f) t := comes_modify (h.onTab f)

theorem Shows.inodeAt (h : Shows s₀ p s) (x : Nat) :
    Comes (inodeAt x) s fun i t => i = p.tab.inodeTable x ∧ Shows s₀ p t :=
  comes_reads ⟨by rw [h.tab], h⟩

theorem Shows.superAt (h : Shows s₀ p s) (i : Nat) :
    Comes (superAt i) s fun sb t => sb = p.tab.superTable i ∧ Shows s₀ p t :=
  comes_reads ⟨by rw [h.tab], h⟩

theorem Shows.tables (h : Shows s₀ p s) :
    Comes (Prog.reads Kernel.tab : Code Tables) s fun T t => T = p.tab ∧ Shows s₀ p t :=
  comes_reads ⟨h.tab, h⟩

theorem Shows.bytesOf (h : Shows s₀ p s) (k : Key) :
    Comes (bytesOf k) s fun b t => b = p.view k ∧ Shows s₀ p t :=
  comes_reads ⟨congrFun h.view k, h⟩

theorem Shows.superOf (h : Shows s₀ p s) {dev : Int} {i : Nat} (hi : p.tab.getSuper dev = some i) :
    Comes (superOf dev) s fun sb t => sb = p.tab.superTable i ∧ Shows s₀ p t := by
  refine comes_of_run (run_superOf (by rw [h.tab]; exact hi)) ⟨by rw [h.tab], h⟩

theorem Shows.time (h : Shows s₀ p s) :
    Comes time s fun v t => v = s₀.clock p.tick ∧ Shows s₀ p.ticked t := by
  refine comes_bind (comes_reads (Q := fun a u => a = s ∧ u = s) ⟨rfl, rfl⟩) fun a u hu => ?_
  obtain ⟨rfl, rfl⟩ := hu
  refine comes_bind (comes_modify (Q := fun _ v => Shows s₀ p.ticked v) ?_) fun _ v hv => comes_pure ⟨?_, hv⟩
  · exact ⟨h.tab, h.view, h.clock, congrArg (· + 1) h.tick, h.held, h.dirty, h.late, h.stored, h.kept⟩
  · rw [h.clock, h.tick]

/-! ## 4. The allocators -/

/-- `balloc` takes the zone of the lowest clear bit. -/
theorem Shows.balloc (h : Shows s₀ p s) {dev : Int} {i z : Nat} {sb : SuperBlock}
    (hi : p.tab.getSuper dev = some i) (hsb : p.tab.superTable i = sb) (hg : sb.Geometry)
    (hz : sb.LowestFree p.view z) :
    Comes (balloc dev) s fun bit t => bit = z ∧ Shows s₀ ((p.touch (sb.zoneKey z) fun b =>
      setBit b (sb.zoneBit z % BLOCK_BITS) true).write (sb.zoneKey z)) t := by
  refine comes_bind (h.superOf hi) fun _ t ht => ?_
  obtain ⟨rfl, ht⟩ := ht
  rw [hsb]
  have hview : t.view = p.view := ht.view
  have hloop := allocLoop_zone (s := t) hg (hview ▸ hz) ZMAP_NR 0 none (Nat.zero_le _)
    (by have := hz.loaded; have := hg.zmapBlocks; omega)
  have htouch : Shows s₀ _ (t.putBit (sb.zoneKey z) (sb.zoneBit z % BLOCK_BITS) true) :=
    ht.touch (sb.zoneKey z) fun b => setBit b (sb.zoneBit z % BLOCK_BITS) true
  refine comes_bind (comes_of_run hloop (Q := fun r u => r = (some (sb.zoneKey z), z) ∧ Shows s₀ _ u)
    ⟨rfl, htouch⟩) fun r u hu => ?_
  obtain ⟨rfl, hu⟩ := hu
  refine comes_bind (hu.need rfl) fun k v hv => ?_
  obtain ⟨rfl, hv⟩ := hv
  exact comes_bind (comes_mapLabel (hv.bwrite List.mem_cons_self)) fun _ w hw => comes_pure ⟨rfl, hw.1⟩

/-- `ialloc` takes the lowest clear bit of the first block. -/
theorem Shows.ialloc (h : Shows s₀ p s) {dev : Int} {i nr : Nat} {sb : SuperBlock}
    (hi : p.tab.getSuper dev = some i) (hsb : p.tab.superTable i = sb) (hm : 0 < sb.imapBlocks)
    (hlt : nr < BLOCK_BITS) (hlow : Lowest (p.view ⟨sb.dev, 2⟩) nr) (hnr : nr < sb.inodes) :
    Comes (ialloc dev) s fun bit t => bit = nr ∧
      Shows s₀ ((p.touch ⟨sb.dev, 2⟩ fun b => setBit b nr true).write ⟨sb.dev, 2⟩) t := by
  refine comes_bind (h.superOf hi) fun _ t ht => ?_
  obtain ⟨rfl, ht⟩ := ht
  rw [hsb]
  have hview : t.view = p.view := ht.view
  have hloop : (allocLoop sb.imap BLOCK_BITS (· * BLOCK_BITS) sb.inodes IMAP_NR 0 none).run t = _ :=
    allocLoop_found (SuperBlock.imap_eq hm) (hview ▸ hlow) hlt (by decide)
  rw [Nat.zero_mul, Nat.add_zero, if_pos hnr] at hloop
  have htouch : Shows s₀ _ (t.putBit ⟨sb.dev, 2⟩ nr true) := ht.touch _ fun b => setBit b nr true
  refine comes_bind (comes_of_run hloop (Q := fun r u => r = (some ⟨sb.dev, 2⟩, nr) ∧ Shows s₀ _ u)
    ⟨rfl, htouch⟩) fun r u hu => ?_
  obtain ⟨rfl, hu⟩ := hu
  refine comes_bind (hu.need rfl) fun k v hv => ?_
  obtain ⟨rfl, hv⟩ := hv
  exact comes_bind (comes_mapLabel (hv.bwrite List.mem_cons_self)) fun _ w hw => comes_pure ⟨rfl, hw.1⟩

end Rules

end Yuios
