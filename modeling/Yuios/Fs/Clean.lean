/-
  File:      Yuios/Fs/Clean.lean
  Subject:   CLEAN BUFFERS: a valid buffer that is not dirty holds the bytes of its block.

  Recycling such a buffer loses nothing. Every write through a pointer into a buffer has to be
  followed by `dirty = true` before the buffer is next written back or given up.

  * `CleanBut P c` -- so it is for every block outside `P`; `P` collects the blocks that have
    been written to and not marked yet.
  * `Tidy` -- the relation of the calls that write to no buffer on their own.
  * `At T P` -- the assertion the writing functions are taken through: the tables are `T`, the
    cache is clean outside `P`.
-/
import Yuios.Fs.Alloc

namespace Yuios

open Lib Prog Code

/-! ## 1. The cache -/

/-- A valid buffer of a block outside `P` is dirty or holds the bytes of its block. -/
def CleanBut (P : Key → Prop) (c : Cache) : Prop :=
  ∀ k d, ¬ P k → (c.buf k).data = some d → (c.buf k).dirty = false → c.disk k = d

/-- **Every valid buffer that is not dirty holds the bytes of its block.** -/
def Clean (c : Cache) : Prop := CleanBut (fun _ => False) c

/-- `P`, and `k` as well. -/
def orKey (P : Key → Prop) (k : Key) : Key → Prop := fun k' => P k' ∨ k' = k

section Cache

variable {c : Cache} {k : Key} {P : Key → Prop}

/-- A change of one buffer: what is to be seen is this buffer. -/
theorem cleanBut_setBuf (h : CleanBut P c) {b : Buffer}
    (hb : ¬ P k → b.dirty = false → ∀ d, b.data = some d → c.disk k = d) :
    CleanBut P (c.setBuf k b) := by
  intro k' d hP hd hdirty
  by_cases e : k' = k
  · subst e
    rw [setBuf_buf_self] at hd hdirty
    exact hb hP hdirty d hd
  · rw [setBuf_buf_of_ne e] at hd hdirty
    exact h k' d hP hd hdirty

theorem cleanBut_addCount (h : CleanBut P c) (n : Int) : CleanBut P (c.addCount k n) :=
  cleanBut_setBuf h fun hP hd d hdata => h k d hP hdata hd

theorem cleanBut_load (h : CleanBut P c) : CleanBut P (c.load k) := by
  unfold Cache.load
  split
  · exact h
  · exact cleanBut_setBuf h fun _ _ d hd => Option.some.inj hd

/-- The two halves of a write. -/
theorem cleanBut_flush_flushed (h : CleanBut P c) : CleanBut P ((c.flush k).flushed k) := by
  have hf : CleanBut P (c.flush k) := by
    intro k' d hP hd hdirty
    show Function.update c.disk k (c.view k) k' = d
    by_cases e : k' = k
    · subst e
      rw [Function.update_self, Cache.view, show (c.buf k').data = some d from hd]
      rfl
    · rw [Function.update_of_ne e]
      exact h k' d hP hd hdirty
  refine cleanBut_setBuf hf fun _ _ d hd => ?_
  rw [← Option.some.inj hd, view_flush]
  exact Function.update_self ..

theorem cleanBut_setDirty (h : CleanBut (orKey P k) c) : CleanBut P (c.setDirty k) := by
  intro k' d hP hd hdirty
  by_cases e : k' = k
  · subst e
    have hdirty' : ((c.setBuf k' { c.buf k' with dirty := true }).buf k').dirty = false := hdirty
    rw [setBuf_buf_self] at hdirty'
    cases hdirty'
  · have e' : (c.setDirty k).buf k' = c.buf k' := setBuf_buf_of_ne e
    rw [e'] at hd hdirty
    exact h k' d (fun hk => hk.elim hP e) hd hdirty

theorem cleanBut_poke (h : CleanBut P c) (f : Bytes → Bytes) :
    CleanBut (orKey P k) (c.poke k f) := by
  refine cleanBut_setBuf (fun k' d hP => h k' d fun hk => hP (.inl hk)) fun hP => ?_
  exact absurd (.inr rfl) hP

/-- A write to a dirty buffer. -/
theorem cleanBut_poke_dirty (h : CleanBut P c) (hd : (c.buf k).dirty = true) (f : Bytes → Bytes) :
    CleanBut P (c.poke k f) := by
  refine cleanBut_setBuf h fun _ hd' => ?_
  rw [show (c.buf k).dirty = false from hd'] at hd
  cases hd

/-- A write that changes nothing. -/
theorem cleanBut_poke_id (h : CleanBut P c) {f : Bytes → Bytes} (hf : f (c.view k) = c.view k)
    : CleanBut P (c.poke k f) := by
  refine cleanBut_setBuf h fun hP hd d hdata => ?_
  rw [← Option.some.inj hdata, hf]
  cases hb : (c.buf k).data with
  | none => simp [Cache.view, hb]
  | some d' =>
    rw [Cache.view, hb]
    exact h k d' hP hb hd

theorem cleanBut_mono {Q : Key → Prop} (h : CleanBut P c) (hPQ : ∀ k, P k → Q k) :
    CleanBut Q c := fun k d hQ => h k d fun hP => hQ (hPQ k hP)

theorem cleanBut_orKey_orKey (h : CleanBut (orKey (orKey P k) k) c) : CleanBut (orKey P k) c :=
  cleanBut_mono h fun _ hk => hk.elim id .inr

end Cache

/-! ## 2. Calls that write to no buffer -/

/-- Clean blocks stay clean. -/
def Tidy (s t : Kernel) : Prop := ∀ P, CleanBut P s.cache → CleanBut P t.cache

instance : Steady Tidy where
  refl _ _ h := h
  trans h h' P hs := h' P (h P hs)

theorem onTables_tidy (f : Tables → Tables) : Obeys Tidy (onTables f) :=
  obeys_modify fun _ _ h => h

theorem onInode_tidy (x : Nat) (f : Inode → Inode) : Obeys Tidy (onInode x f) := onTables_tidy _

theorem hold_tidy (k : Key) (n : Int) : Obeys Tidy (onCache (·.addCount k n)) :=
  obeys_modify fun _ _ h => cleanBut_addCount h n

theorem setDirty_tidy (k : Key) : Obeys Tidy (setDirty k) :=
  obeys_modify fun _ _ h => cleanBut_setDirty (cleanBut_mono h fun _ => .inl)

theorem bread_tidy (dev : Int) (block : Nat) : Obeys Tidy (bread dev block) := by
  refine obeys_bind (hold_tidy _ _) fun _ => obeys_bind (obeys_reads _) fun _ => ?_
  refine obeys_ite (fun _ => obeys_pure _) fun _ => obeys_bind (obeys_sleep _) fun _ => ?_
  exact obeys_bind (obeys_modify fun _ _ h => cleanBut_load h) fun _ => obeys_pure _

theorem bwrite_tidy (k : Key) : Obeys Tidy (bwrite k) := by
  refine obeys_bind (obeys_reads _) fun _ => obeys_ite (fun _ => ?_) fun _ => obeys_pure _
  intro s u t h P hs
  obtain ⟨_, s₁, h₁, h⟩ := runs_bind.mp h
  obtain ⟨_, s₂, h₂, h⟩ := runs_bind.mp h
  rw [runs_sleep] at h₂
  rw [← runs_modify.mp h, ← h₂.2, ← runs_modify.mp h₁]
  exact cleanBut_flush_flushed hs

theorem brelse_tidy (k : Key) : Obeys Tidy (brelse k) :=
  obeys_bind (bwrite_tidy k) fun _ => obeys_bind (hold_tidy _ _) fun _ =>
    obeys_bind (obeys_reads _) fun _ => obeys_check _ _

theorem walks_tidy : Walks Tidy :=
  Reading.walks ⟨bread_tidy, bwrite_tidy, brelse_tidy, fun k => hold_tidy k 1⟩ onInode_tidy
    fun _ _ => onTables_tidy _

theorem iput_tidy (x : Nat) : Obeys Tidy (iput x) := walks_tidy.iput x

theorem iget_tidy (dev : Int) (nr : Nat) : Obeys Tidy (iget dev nr) := walks_tidy.iget dev nr

/-! ## 3. Calls that write -/

/-- The tables are `T`, the cache is clean outside `P`. -/
def At (T : Tables) (P : Key → Prop) (s : Kernel) : Prop := s.tab = T ∧ CleanBut P s.cache

/-- The tables stay as they are. -/
def SameTab (s t : Kernel) : Prop := t.tab = s.tab

instance : Steady SameTab where
  refl _ := rfl
  trans h h' := Eq.trans h' h

section Writes

variable {C : List Frame → Kernel → Prop} {T : Tables} {P : Key → Prop}

theorem keeps_at {α : Type} {p : Code α} (h : Obeys Same p) (h' : Obeys Tidy p) :
    Keeps C (At T P) p :=
  fun s a t hs hr => ⟨(h s a t hr.ends).tab.trans hs.1, h' s a t hr.ends P hs.2⟩

theorem time_at : Keeps C (At T P) time := by
  intro s v t hs h
  rw [runs_time] at h
  exact h.2 ▸ hs

theorem At.poke {s : Kernel} (hs : At T P s) (k : Key) (f : Bytes → Bytes) :
    At T (orKey P k) (s.poke k f) := ⟨hs.1, cleanBut_poke hs.2 f⟩

theorem At.mark {s : Kernel} {k : Key} (hs : At T (orKey P k) s) : At T P (s.mark k) :=
  ⟨hs.1, cleanBut_setDirty hs.2⟩

theorem poke_at (k : Key) (f : Bytes → Bytes) :
    Triple C (At T P) (poke k f) fun _ => At T (orKey P k) :=
  triple_modify fun _ hs => hs.poke k f

theorem setDirty_at (k : Key) : Triple C (At T (orKey P k)) (setDirty k) fun _ => At T P :=
  triple_modify fun _ hs => ⟨hs.1, cleanBut_setDirty hs.2⟩

theorem descSet_at (x : Nat) (f : Field) (v : Nat) :
    Triple C (At T P) (descSet x f v) fun _ => At T (orKey P (T.inodeTable x).buf) := by
  rintro s u t ⟨rfl, hs⟩ h
  rw [runs_descSet] at h
  exact h ▸ At.poke ⟨rfl, hs⟩ _ _

/-- A second write to the descriptor. -/
theorem descSet_at_again (x : Nat) (f : Field) (v : Nat) :
    Keeps C (At T (orKey P (T.inodeTable x).buf)) (descSet x f v) :=
  triple_post (descSet_at x f v) fun _ _ h => ⟨h.1, cleanBut_orKey_orKey h.2⟩

theorem inodeDirty_at (x : Nat) :
    Triple C (At T (orKey P (T.inodeTable x).buf)) (inodeDirty x) fun _ => At T P := by
  rintro s u t ⟨rfl, hs⟩ h
  obtain ⟨i, s₁, ⟨rfl, rfl⟩, h⟩ := runs_bind.mp h
  exact setDirty_at _ s u t ⟨rfl, hs⟩ h

theorem brelse_at (k : Key) : Keeps C (At T P) (brelse k) := keeps_at (brelse_same k) (brelse_tidy k)

theorem bread_at (dev : Int) (block : Nat) : Keeps C (At T P) (bread dev block) :=
  keeps_at (bread_same dev block) (bread_tidy dev block)

theorem descGet_at (x : Nat) (f : Field) : Keeps C (At T P) (descGet x f) := by
  intro s v t hs h
  rw [runs_descGet] at h
  exact h.2 ▸ hs

theorem bwrite_at (k : Key) : Keeps C (At T P) (bwrite k) := keeps_at (bwrite_same k) (bwrite_tidy k)

/-! ### The allocators and the block map -/

theorem putBit_at {s : Kernel} (hs : At T P s) (k : Key) (p : Nat) (v : Bool) :
    At T P (s.putBit k p v) := (hs.poke k _).mark

theorem allocLoop_at (maps : Nat → Option Key) (len : Nat) (off : Nat → Nat) (limit n i : Nat)
    (buf : Option Key) : Keeps C (At T P) (allocLoop maps len off limit n i buf) := by
  rintro s ⟨o, bit⟩ t hs h
  rcases allocLoop_spec h with ⟨-, rfl, -⟩ | ⟨k, j, p, -, -, rfl⟩
  · exact hs
  · exact putBit_at hs k p true

theorem freeLoop_at (maps : Nat → Option Key) (len : Nat) (off : Nat → Nat) (idx n i : Nat) :
    Keeps C (At T P) (freeLoop maps len off idx n i) := by
  intro s k t hs h
  obtain ⟨j, p, -, -, -, -, rfl⟩ := freeLoop_spec h
  exact putBit_at hs k p false

theorem superOf_at (dev : Int) : Keeps C (At T P) (superOf dev) := by
  intro s sb t hs h
  rw [runs_superOf] at h
  exact h.2 ▸ hs

theorem balloc_at (dev : Int) : Keeps C (At T P) (balloc dev) :=
  keeps_bind (superOf_at dev) fun _ => keeps_bind (allocLoop_at _ _ _ _ _ _ _) fun ⟨_, _⟩ =>
    keeps_bind (keeps_need _ _) fun _ => keeps_bind (triple_mapLabel (bwrite_at _)) fun _ =>
      keeps_pure _

theorem ialloc_at (dev : Int) : Keeps C (At T P) (ialloc dev) :=
  keeps_bind (superOf_at dev) fun _ => keeps_bind (allocLoop_at _ _ _ _ _ _ _) fun ⟨_, _⟩ =>
    keeps_bind (keeps_need _ _) fun _ => keeps_bind (triple_mapLabel (bwrite_at _)) fun _ =>
      keeps_pure _

theorem bfree_at (dev : Int) (idx : Nat) : Keeps C (At T P) (bfree dev idx) :=
  keeps_bind (superOf_at dev) fun _ => keeps_bind (keeps_check _ _) fun _ =>
    keeps_bind (freeLoop_at _ _ _ _ _ _) fun _ => triple_mapLabel (bwrite_at _)

theorem ifree_at (dev : Int) (idx : Nat) : Keeps C (At T P) (ifree dev idx) :=
  keeps_bind (superOf_at dev) fun _ => keeps_bind (keeps_check _ _) fun _ =>
    keeps_bind (freeLoop_at _ _ _ _ _ _) fun _ => triple_mapLabel (bwrite_at _)

theorem bmapFill_at (x : Nat) (create : Bool) (buf : Key) (slot : Nat) :
    Keeps C (At T P) (bmapFill x create buf slot) := by
  refine keeps_bind (keeps_reads _) fun b => triple_ite (fun _ => ?_) fun _ => keeps_pure _
  refine keeps_bind (keeps_reads _) fun i => keeps_bind (balloc_at i.dev) fun bit => ?_
  exact triple_bind (poke_at buf _) fun _ => setDirty_at buf

theorem bmapSlot_at (x : Nat) (create : Bool) (level : Nat) (buf : Key) (slot : Nat) :
    Keeps C (At T P) (bmapSlot x create level buf slot) :=
  triple_mapLabel (keeps_bind (bmapFill_at x create buf slot) fun _ => brelse_at buf)

theorem bmapReckon_at (x : Nat) (create : Bool) (level : Nat) (buf : Key)
    (array index block divider : Nat) :
    Keeps C (At T P) (bmapReckon x create level buf array index block divider) := by
  induction level generalizing buf array index block divider with
  | zero =>
    exact keeps_bind (bmapSlot_at x create 0 buf _) fun _ => keeps_bind (keeps_reads _) fun _ =>
      keeps_pure _
  | succ level ih =>
    refine keeps_bind (bmapSlot_at x create _ buf _) fun _ => keeps_bind (keeps_reads _) fun _ => ?_
    refine triple_ite (fun _ => keeps_pure _) fun _ => ?_
    exact keeps_bind (keeps_reads _) fun _ => keeps_bind (bread_at _ _) fun _ => ih _ _ _ _ _

theorem bmap_at (x block : Nat) (create : Bool) : Keeps C (At T P) (bmap x block create) := by
  refine keeps_bind (keeps_check _ _) fun _ => keeps_bind (keeps_reads _) fun _ =>
    keeps_bind (keeps_at (hold_same _ _) (hold_tidy _ _)) fun _ => ?_
  refine triple_ite (fun _ => bmapReckon_at _ _ _ _ _ _ _ _) fun _ => ?_
  refine triple_ite (fun _ => bmapReckon_at _ _ _ _ _ _ _ _) fun _ => ?_
  exact keeps_bind (keeps_check _ _) fun _ => bmapReckon_at _ _ _ _ _ _ _ _

/-! ### Truncation -/

theorem inodeBfree_at (dev : Int) (level : Nat) (buf : Key) (slot : Nat) :
    Keeps C (At T P) (inodeBfree dev level buf slot) := by
  induction level generalizing buf slot with
  | zero =>
    refine keeps_bind (keeps_reads _) fun b => triple_ite (fun _ => keeps_pure _) fun _ => ?_
    exact bfree_at dev _
  | succ level ih =>
    refine keeps_bind (keeps_reads _) fun b => triple_ite (fun _ => keeps_pure _) fun _ => ?_
    refine keeps_bind (bread_at dev _) fun sub =>
      keeps_bind (keeps_forM _ fun i => ih sub (2 * i)) fun _ => ?_
    exact keeps_bind (brelse_at sub) fun _ => keeps_bind (keeps_reads _) fun _ => bfree_at dev _

/-- Entry `i` of `zone[]` is cleared; the inode's block is not marked here. -/
theorem truncateZone_at (x level i : Nat) :
    Keeps C (At T (orKey P (T.inodeTable x).buf)) (truncateZone x level i) :=
  keeps_bind (keeps_reads _) fun _ => keeps_bind (inodeBfree_at _ _ _ _) fun _ =>
    descSet_at_again x _ _

/-- The buffer of `k` is marked as well. -/
def AtMarked (T : Tables) (P : Key → Prop) (k : Key) (s : Kernel) : Prop :=
  At T P s ∧ (s.cache.buf k).dirty = true

/-- The block of the inode `x` is marked as well. -/
abbrev AtDirty (T : Tables) (P : Key → Prop) (x : Nat) : Kernel → Prop :=
  AtMarked T P (T.inodeTable x).buf

theorem inodeDirty_atDirty (x : Nat) :
    Triple C (At T (orKey P (T.inodeTable x).buf)) (inodeDirty x) fun _ => AtDirty T P x := by
  rintro s u t ⟨rfl, hs⟩ h
  obtain ⟨i, s₁, ⟨rfl, rfl⟩, h⟩ := runs_bind.mp h
  rw [runs_setDirty] at h
  exact h ▸ ⟨At.mark ⟨rfl, hs⟩, mark_dirty s _⟩

theorem poke_dirty (c : Cache) (k k' : Key) (f : Bytes → Bytes) :
    ((c.poke k f).buf k').dirty = (c.buf k').dirty := by
  unfold Cache.poke
  by_cases e : k' = k
  · rw [e, setBuf_buf_self]
  · rw [setBuf_buf_of_ne e]

theorem Kernel.poke_dirty (s : Kernel) (k k' : Key) (f : Bytes → Bytes) :
    ((s.poke k f).cache.buf k').dirty = (s.cache.buf k').dirty := Yuios.poke_dirty ..

/-- Once the buffer is marked, it may be written to. -/
theorem AtMarked.poke {k : Key} {s : Kernel} (h : AtMarked T P k s) (f : Bytes → Bytes) :
    AtMarked T P k (s.poke k f) :=
  ⟨⟨h.1.1, cleanBut_poke_dirty h.1.2 h.2 f⟩, (poke_dirty _ _ _ f).trans h.2⟩

theorem poke_atMarked (k : Key) (f : Bytes → Bytes) : Keeps C (AtMarked T P k) (poke k f) :=
  triple_modify fun _ hs => hs.poke f

theorem setDirty_atMarked (k : Key) :
    Triple C (At T P) (setDirty k) fun _ => AtMarked T P k :=
  triple_modify fun s hs => ⟨⟨hs.1, cleanBut_setDirty (cleanBut_mono hs.2 fun _ => .inl)⟩,
    mark_dirty s k⟩

theorem descSet_atDirty (x : Nat) (f : Field) (v : Nat) :
    Keeps C (AtDirty T P x) (descSet x f v) := by
  rintro s u t ⟨⟨rfl, hs⟩, hd⟩ h
  rw [runs_descSet] at h
  exact h ▸ AtMarked.poke ⟨⟨rfl, hs⟩, hd⟩ _

theorem time_atDirty (x : Nat) : Keeps C (AtDirty T P x) time := by
  intro s v t hs h
  rw [runs_time] at h
  exact h.2 ▸ hs

theorem inodeTruncate_at (x : Nat) : Keeps C (At T P) (inodeTruncate x) := by
  refine keeps_bind (descGet_at x _) fun mode => triple_ite (fun _ => keeps_pure _) fun _ => ?_
  refine triple_pre (P := At T (orKey P (T.inodeTable x).buf)) ?_ fun s hs =>
    ⟨hs.1, cleanBut_mono hs.2 fun _ => .inl⟩
  refine triple_bind (keeps_forM _ fun i => truncateZone_at x 0 i) fun _ =>
    triple_bind (truncateZone_at x 1 _) fun _ => triple_bind (truncateZone_at x 2 _) fun _ =>
      triple_bind (descSet_at_again x _ _) fun _ => triple_bind (inodeDirty_atDirty x) fun _ => ?_
  refine triple_bind (time_atDirty x) fun now => triple_bind (descSet_atDirty x _ _) fun _ => ?_
  exact triple_bind (triple_post (keeps_reads _) fun _ _ h => h.1) fun ino => bwrite_at ino.buf

/-! ### Directories and new inodes -/

/-- A new entry at the end of a directory is free, or its block is marked with the directory's. -/
theorem extendDir_at (dir i : Nat) (k : Key) (entry : Nat) :
    Triple C (At T P) (extendDir dir i k entry) fun _ s => At T P s ∨
      (At T (orKey P k) s ∧ fetch (s.view k) entry 2 = 0) := by
  rintro s u t ⟨rfl, hs⟩ h
  obtain ⟨size, s₁, h₁, h⟩ := runs_bind.mp h
  rw [runs_descGet] at h₁
  obtain ⟨-, rfl⟩ := h₁
  rcases runs_ite.mp h with ⟨-, h⟩ | ⟨-, -, rfl⟩
  · obtain ⟨_, s₂, h₂, h⟩ := runs_bind.mp h
    obtain ⟨_, s₃, h₃, hd⟩ := runs_bind.mp h
    rw [setDentryNr, runs_poke] at h₂
    rw [runs_descSet] at h₃
    subst h₂
    have hz : fetch ((s.poke k fun b => store b entry 2 0).view k) entry 2 = 0 := by
      rw [Kernel.view_poke_self, fetch_store_self]
      rfl
    have hw : At s.tab (orKey (orKey P k) (s.tab.inodeTable dir).buf) s₃ :=
      h₃ ▸ (At.poke ⟨rfl, hs⟩ k _).poke _ _
    by_cases e : (s.tab.inodeTable dir).buf = k
    · -- the entry lies in the inode's own block
      rw [e] at hw
      refine .inl (inodeDirty_at dir s₃ u t ?_ hd)
      rw [e]
      exact ⟨hw.1, cleanBut_orKey_orKey hw.2⟩
    · refine .inr ⟨inodeDirty_at dir s₃ u t hw hd, ?_⟩
      have hv := (inodeDirty_same dir s₃ u t hd.ends).view
      rw [Kernel.view, hv, ← h₃]
      exact (congrArg (fetch · entry 2) (Kernel.view_poke_of_ne _ _ (Ne.symm e))).trans hz
  · exact .inl ⟨rfl, hs⟩

theorem dentryAt_at (dir : Nat) (create : Bool) (i : Nat) (buf : Option Key) (entry : Nat) :
    Keeps C (At T P) (dentryAt dir create i buf entry) := by
  unfold dentryAt
  split
  · exact keeps_pure _
  · have hb : Keeps C (At T P) (brelse? buf) := by
      cases buf with
      | none => exact keeps_pure _
      | some k => exact brelse_at k
    refine keeps_bind hb fun _ => keeps_bind (bmap_at dir _ _) fun _ =>
      keeps_bind (keeps_check _ _) fun _ => keeps_bind (keeps_reads _) fun _ => ?_
    exact keeps_bind (bread_at _ _) fun _ => keeps_pure _

theorem addEntryLoop_at (dir : Nat) (name : List UInt8) (fuel i : Nat) (buf : Option Key)
    (entry : Nat) : Keeps C (At T P) (addEntryLoop dir name fuel i buf entry) := by
  induction fuel generalizing i buf entry with
  | zero => exact triple_stop _
  | succ fuel ih =>
    refine keeps_bind (dentryAt_at dir true i buf entry) fun ⟨k, entry⟩ => ?_
    refine triple_bind (extendDir_at dir i k entry) fun _ => ?_
    intro s r t hs h
    obtain ⟨nr, s₁, h₁, h⟩ := runs_bind.mp h
    rw [runs_dentryNr] at h₁
    obtain ⟨hnr, rfl⟩ := h₁
    rcases runs_ite.mp h with ⟨hc, h⟩ | ⟨hc, h⟩
    · -- a live entry: nothing was written to its block
      have hs' : At T P s := hs.resolve_right fun h' => hc (hnr.symm.trans h'.2)
      exact ih _ _ _ s r t hs' h
    · have hs' : At T (orKey P k) s := hs.elim
        (fun h' => ⟨h'.1, cleanBut_mono h'.2 fun _ => .inl⟩) fun h' => h'.1
      have tail : Triple C (At T (orKey P k)) (do
          poke k (strncpy (entry + 2) name NAME_LEN)
          setDirty k
          let now ← time
          descSet dir .mtime now
          inodeDirty dir
          return (k, entry)) fun _ => At T P := by
        refine triple_bind (triple_post (poke_at k _) fun _ s h =>
          (⟨h.1, cleanBut_orKey_orKey h.2⟩ : At T (orKey P k) s)) fun _ => ?_
        refine triple_bind (setDirty_at k) fun _ => triple_bind time_at fun _ => ?_
        exact triple_bind (descSet_at dir _ _) fun _ =>
          triple_bind (inodeDirty_at dir) fun _ => keeps_pure _
      exact tail s r t hs' h

end Writes

/-! ## 4. Calls that change the tables too -/

/-- The cache is clean outside `P`. -/
def Cl (P : Key → Prop) (s : Kernel) : Prop := CleanBut P s.cache

section Calls

variable {C : List Frame → Kernel → Prop} {P : Key → Prop}

theorem cl_of_tidy {α : Type} {p : Code α} (h : Obeys Tidy p) : Keeps C (Cl P) p :=
  h.keeps fun _ _ h' hs => h' P hs

/-- What holds for any tables. -/
theorem cl_of_at {α : Type} {p : Code α} (h : ∀ T, Keeps C (At T P) p) : Keeps C (Cl P) p :=
  fun s a t hs hr => (h s.tab s a t ⟨rfl, hs⟩ hr).2

theorem addEntry_cl (dir : Nat) (name : List UInt8) : Keeps C (Cl P) (addEntry dir name) := by
  refine keeps_bind (cl_of_tidy (walks_tidy.findEntry dir name)) fun ⟨dir, r⟩ => ?_
  cases r with
  | some e =>
    obtain ⟨k, entry, _⟩ := e
    exact keeps_pure _
  | none =>
    exact keeps_bind (keeps_check _ _) fun _ => cl_of_at fun T => addEntryLoop_at dir name _ _ _ _

theorem cl_intro {α : Type} {p : Code α} {Q : α → Kernel → Prop}
    (h : ∀ T, Triple C (At T P) p Q) : Triple C (Cl P) p Q :=
  fun s a t hs hr => h s.tab s a t ⟨rfl, hs⟩ hr

/-- `new_inode` leaves the new inode's block marked. -/
theorem newInode_cl (dev : Int) (nr : Nat) :
    Triple C (Cl P) (newInode dev nr) fun x s => ∃ T, AtDirty T P x s := by
  refine triple_bind (cl_of_tidy runningTask_obeys) fun task =>
    triple_bind (cl_of_tidy (iget_tidy dev nr)) fun x => cl_intro fun T => ?_
  refine triple_pre (P := At T (orKey P (T.inodeTable x).buf)) ?_ fun s hs =>
    ⟨hs.1, cleanBut_mono hs.2 fun _ => .inl⟩
  refine triple_bind (inodeDirty_atDirty x) fun _ => triple_bind (descSet_atDirty x _ _) fun _ =>
    triple_bind (descSet_atDirty x _ _) fun _ => triple_bind (descSet_atDirty x _ _) fun _ =>
      triple_bind (time_atDirty x) fun _ => triple_bind (descSet_atDirty x _ _) fun _ => ?_
  exact triple_bind (descSet_atDirty x _ _) fun _ => triple_bind (descSet_atDirty x _ _) fun _ =>
    triple_pure fun _ h => ⟨T, h⟩

/-- Assertions about some tables. -/
theorem triple_exists {α ι : Type} {p : Code α} {A : ι → Kernel → Prop} {Q : α → Kernel → Prop}
    (h : ∀ i, Triple C (A i) p Q) : Triple C (fun s => ∃ i, A i s) p Q :=
  fun s a t ⟨i, hs⟩ hr => h i s a t hs hr

/-- **Where a creating call waits in `ialloc`**, its entry's block is marked, and is not the
    bitmap's block; `bmap` and `inode_write` write to blocks that are not the inode's own, but
    for the slots in the descriptor. -/
def Apart (l : List Frame) (s : Kernel) : Prop :=
  match l with
  | .bwrite k :: .ialloc _ _ :: .create e _ :: _ => k ≠ e ∧ (s.cache.buf e).dirty = true
  | .bwrite k :: .inodeWrite x :: _ => k ≠ (s.tab.inodeTable x).buf
  | .bwrite k :: .balloc _ _ :: .bmap x _ _ _ :: _ => k ≠ (s.tab.inodeTable x).buf
  | .bwrite k :: .bmap x _ off _ :: _ =>
    k = (s.tab.inodeTable x).buf → (s.tab.inodeTable x).desc + 14 ≤ off
  | _ => True

/-- `ialloc` in a creating call leaves the entry's block marked. -/
theorem ialloc_create (dev : Int) (e : Key) (entry : Nat) {T : Tables} :
    Triple Apart (At T P) (within (.create e entry) (ialloc dev)) fun _ => AtMarked T P e := by
  intro s nr t hs h
  refine ⟨triple_mapLabel (ialloc_at dev) s nr t hs h, ?_⟩
  rw [runs_within] at h
  obtain ⟨sb, s₁, h₁, h⟩ := runs_bind.mp h
  obtain ⟨-, rfl⟩ := runs_superOf.mp h₁
  obtain ⟨⟨o, bit⟩, s₂, h₂, h⟩ := runs_bind.mp h
  obtain ⟨k, s₃, h₃, h⟩ := runs_bind.mp h
  rw [runs_need] at h₃
  obtain ⟨ho, rfl⟩ := h₃
  obtain ⟨_, s₄, h₄, hr⟩ := runs_bind.mp h
  obtain ⟨rfl, rfl⟩ := hr
  rcases allocLoop_spec h₂ with ⟨-, -, hn | hlen⟩ | ⟨k', j, p, ho', -, rfl⟩
  · cases hn
  · exact absurd hlen (by decide)
  · cases ho.symm.trans ho'
    rw [runs_within] at h₄
    obtain ⟨⟨hne, hd⟩, rfl⟩ := bwrite_dirty h₄ (mark_dirty _ _)
    exact (congrArg Buffer.dirty (setBuf_buf_of_ne (Ne.symm hne))).trans hd

theorem nameNewInode_cl (dir : Nat) (k : Key) (entry : Nat) :
    Keeps Apart (Cl P) (nameNewInode dir k entry) :=
  cl_intro fun _ => triple_bind (keeps_reads _) fun ino =>
    triple_bind (ialloc_create ino.dev k entry) fun _ => triple_bind (poke_atMarked k _) fun _ =>
      triple_post (keeps_of_eq (dentryNr_obeys k entry)) fun _ _ h => h.1.2

/-- A write to the new inode's descriptor, and what follows it. -/
theorem descSet_new {x : Nat} (f : Field) (v : Nat) :
    Keeps C (fun s => ∃ T, AtDirty T P x s) (descSet x f v) :=
  triple_exists fun T => triple_post (descSet_atDirty x f v) fun _ _ h => ⟨T, h⟩

theorem cl_of_new {x : Nat} {s : Kernel} (h : ∃ T, AtDirty T P x s) : Cl P s :=
  let ⟨_, h⟩ := h
  h.1.2

theorem poke_setDirty_cl (k : Key) (f : Bytes → Bytes) {β : Type} {p : Code β}
    (hp : Keeps C (Cl P) p) : Keeps C (Cl P) (poke k f >>= fun _ => setDirty k >>= fun _ => p) :=
  cl_intro fun _ => triple_bind (poke_at k f) fun _ => triple_bind (setDirty_at k) fun _ =>
    triple_pre hp fun _ h => h.2

theorem descSet_inodeDirty_cl (x : Nat) (f : Field) (v : Nat) {β : Type} {p : Code β}
    (hp : Keeps C (Cl P) p) :
    Keeps C (Cl P) (descSet x f v >>= fun _ => inodeDirty x >>= fun _ => p) :=
  cl_intro fun _ => triple_bind (descSet_at x f v) fun _ => triple_bind (inodeDirty_at x) fun _ =>
    triple_pre hp fun _ h => h.2

theorem setDentry_atMarked {T : Tables} (k : Key) (entry : Nat) (name : List UInt8) (nr : Nat) :
    Keeps C (AtMarked T P k) (setDentry k entry name nr) :=
  keeps_bind (poke_atMarked k _) fun _ => poke_atMarked k _

theorem mkdirIn_cl (dir : Nat) (name : List UInt8) (mode : Nat) :
    Keeps Apart (Cl P) (mkdirIn dir name mode) := by
  refine keeps_bind (addEntry_cl dir name) fun ⟨ebuf, entry⟩ =>
    keeps_bind (cl_of_tidy (setDirty_tidy ebuf)) fun _ =>
      keeps_bind (nameNewInode_cl dir ebuf entry) fun nr =>
        keeps_bind (cl_of_tidy runningTask_obeys) fun task =>
          keeps_bind (cl_of_tidy (inodeAt_obeys dir)) fun d => ?_
  refine triple_bind (newInode_cl d.dev nr) fun inode => triple_bind (descSet_new _ _) fun _ =>
    triple_bind (descSet_new _ _) fun _ => triple_bind (descSet_new _ _) fun _ => ?_
  refine triple_pre (P := Cl P) ?_ fun _ => cl_of_new
  refine cl_intro fun T => ?_
  -- the parent's link count
  refine triple_bind (triple_pre (P := At T (orKey P (T.inodeTable dir).buf))
    (inodeDirty_atDirty dir) fun s hs => ⟨hs.1, cleanBut_mono hs.2 fun _ => .inl⟩) fun _ =>
      triple_bind (keeps_of_eq (descGet_obeys dir _)) fun nlinks =>
        triple_bind (descSet_atDirty dir _ _) fun _ => ?_
  -- the two entries of the new directory
  refine triple_pre (P := At T P) ?_ fun _ h => h.1
  refine triple_bind (bmap_at inode 0 true) fun zone => triple_bind (keeps_reads _) fun ino =>
    triple_bind (bread_at ino.dev zone) fun zbuf => triple_bind (setDirty_atMarked zbuf) fun _ =>
      triple_bind (setDentry_atMarked zbuf _ _ _) fun _ => triple_bind (keeps_reads _) fun d =>
        triple_bind (setDentry_atMarked zbuf _ _ _) fun _ => ?_
  refine triple_pre (P := Cl P) ?_ fun _ h => h.1.2
  exact keeps_bind (cl_of_tidy (iput_tidy _)) fun _ => keeps_bind (cl_of_tidy (iput_tidy _)) fun _ =>
    keeps_bind (cl_of_tidy (brelse_tidy _)) fun _ => cl_of_tidy (brelse_tidy _)

theorem rmdirIn_cl (dir inode : Nat) (ebuf : Key) (entry : Nat) :
    Keeps C (Cl P) (rmdirIn dir inode ebuf entry) := by
  refine keeps_bind (cl_of_tidy (descGet_obeys inode _)) fun _ => keeps_bind (keeps_check _ _) fun _ =>
    keeps_bind (cl_of_at fun T => inodeTruncate_at inode) fun _ =>
      keeps_bind (cl_of_tidy (inodeAt_obeys inode)) fun ino =>
        keeps_bind (cl_of_at fun T => ifree_at _ _) fun _ => ?_
  refine descSet_inodeDirty_cl inode _ _ (keeps_bind (cl_of_tidy (onInode_tidy _ _)) fun _ =>
    keeps_bind (cl_of_tidy (descGet_obeys dir _)) fun nlinks => ?_)
  -- two fields of the parent are written before its block is marked
  refine cl_intro fun T => triple_bind (descSet_at dir _ _) fun _ => triple_bind time_at fun now =>
    triple_bind (descSet_at_again dir _ _) fun _ => triple_bind (inodeDirty_at dir) fun _ => ?_
  refine triple_pre (P := Cl P) ?_ fun _ h => h.2
  refine keeps_bind (cl_of_tidy (descGet_obeys dir _)) fun _ => keeps_bind (keeps_check _ _) fun _ => ?_
  exact cl_intro fun T => triple_bind (poke_at ebuf _) fun _ =>
    triple_post (setDirty_at ebuf) fun _ _ h => h.2

theorem linkIn_cl (dir inode : Nat) (name : List UInt8) :
    Keeps C (Cl P) (linkIn dir inode name) :=
  keeps_bind (addEntry_cl dir name) fun ⟨buf, _⟩ => keeps_bind (cl_of_tidy (inodeAt_obeys inode))
    fun _ => poke_setDirty_cl buf _ (keeps_bind (cl_of_tidy (descGet_obeys inode _)) fun _ =>
      descSet_inodeDirty_cl inode _ _ (keeps_pure _))

theorem unlinkIn_cl (inode : Nat) (buf : Key) (entry : Nat) :
    Keeps C (Cl P) (unlinkIn inode buf entry) := by
  refine poke_setDirty_cl buf _ (keeps_bind (cl_of_tidy (descGet_obeys inode _)) fun _ =>
    descSet_inodeDirty_cl inode _ _ (keeps_bind (cl_of_tidy (descGet_obeys inode _)) fun _ => ?_))
  refine triple_ite (fun _ => ?_) fun _ => keeps_pure _
  exact keeps_bind (cl_of_at fun T => inodeTruncate_at inode) fun _ =>
    keeps_bind (cl_of_tidy (inodeAt_obeys inode)) fun _ => cl_of_at fun T => ifree_at _ _

theorem mknodIn_cl (dir : Nat) (name : List UInt8) (mode dev : Nat) :
    Keeps Apart (Cl P) (mknodIn dir name mode dev) := by
  refine keeps_bind (addEntry_cl dir name) fun ⟨buf, entry⟩ =>
    keeps_bind (cl_of_tidy (setDirty_tidy buf)) fun _ =>
      keeps_bind (nameNewInode_cl dir buf entry) fun nr =>
        keeps_bind (cl_of_tidy (inodeAt_obeys dir)) fun d => ?_
  refine triple_bind (newInode_cl d.dev nr) fun inode => triple_bind (descSet_new _ _) fun _ => ?_
  have hdev : Keeps Apart (fun s => ∃ T, AtDirty T P inode s) (setDevice inode mode dev) :=
    triple_ite (fun _ => descSet_new _ _) fun _ => keeps_pure _
  exact triple_bind hdev fun _ => triple_pure fun _ => cl_of_new

theorem openCreate_cl (dir : Nat) (name : List UInt8) (mode : Nat) :
    Keeps Apart (Cl P) (openCreate dir name mode) := by
  refine keeps_bind (addEntry_cl dir name) fun ⟨buf, entry⟩ =>
    keeps_bind (nameNewInode_cl dir buf entry) fun nr =>
      keeps_bind (cl_of_tidy (inodeAt_obeys dir)) fun d => ?_
  exact triple_bind (newInode_cl d.dev nr) fun inode =>
    triple_bind (keeps_of_eq runningTask_obeys) fun task =>
      triple_bind (descSet_new _ _) fun _ => triple_pure fun _ => cl_of_new

end Calls

end Yuios
