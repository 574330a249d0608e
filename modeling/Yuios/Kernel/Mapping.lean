/-
  File:      Yuios/Kernel/Mapping.lean
  Subject:   WHICH PAGES ARE THERE: what the calls of `memory.c` do to the pages of an address space and
             to the bits of its `vmap`.

  * `Space.frameAt` -- the frame of the page at an address.
  * `Keeps` -- between two address spaces: the tables stay, and so do the pages outside `R`.
  * `mmapPages_keeps`, `munmapPages_keeps` -- the loops of `sys_mmap` and `sys_munmap`.
  * `Booked` -- the invariant: a page between `USER_MMAP_ADDR` and the stack has its bit set.
  * **`kept_booked`** -- in every state reached.
-/
import Yuios.Kernel.KernelPages
import Yuios.Kernel.KernelStore

namespace Yuios.Paging

open Lib Relation
open Kernel (of_assert)

/-- The frame of the page at an address. -/
def Space.frameAt (S : Space) (v : Nat) : Option Nat :=
  if (S.pde (DIDX v)).present then target (S.entry v) else none

/-- **What stays**: the tables there were, and the pages whose number is not in `R`. -/
structure Keeps (R : Nat → Prop) (S S' : Space) : Prop where
  slots : ∀ d, (S.pde d).present = true → S'.pde d = S.pde d
  pages : ∀ v, UserAddr v → ¬R (IDX v) → S'.frameAt v = S.frameAt v

/-- The numbers of `n` pages from `v` on. -/
def Within (v n k : Nat) : Prop := IDX v ≤ k ∧ k < IDX v + n

/-! ## 1. One page -/

section Page

variable {A : Finset Nat} {R R' : Nat → Prop} {S S' S₁ : Space} {v u d g n free : Nat} {e : Word}

theorem frameAt_some : S.frameAt v = some g ↔ S.mapped v = true ∧ (S.entry v).index = g := by
  unfold Space.frameAt Space.mapped target
  cases (S.pde (DIDX v)).present <;> cases (S.entry v).present <;> simp

theorem frameAt_none : S.frameAt v = none ↔ S.mapped v = false := by
  unfold Space.frameAt Space.mapped target
  cases (S.pde (DIDX v)).present <;> cases (S.entry v).present <;> simp

theorem mapped_frameAt : S.mapped v = (S.frameAt v).isSome := by
  unfold Space.frameAt Space.mapped target
  cases (S.pde (DIDX v)).present <;> cases (S.entry v).present <;> rfl

/-- The page is the same for all addresses in it. -/
theorem frameAt_page (h : IDX u = IDX v) : S.frameAt u = S.frameAt v := by
  have hd : DIDX u = DIDX v := by
    unfold IDX PAGE_SIZE at h
    unfold DIDX
    omega
  have ht : TIDX u = TIDX v := by
    unfold IDX PAGE_SIZE at h
    unfold TIDX
    omega
  rw [Space.frameAt, Space.frameAt, Space.entry, Space.entry, hd, ht]

theorem Keeps.refl (S : Space) : Keeps R S S := ⟨fun _ _ => rfl, fun _ _ _ => rfl⟩

theorem Keeps.mono (h : Keeps R S S') (hR : ∀ k, R k → R' k) : Keeps R' S S' :=
  ⟨h.slots, fun v hv hno => h.pages v hv fun hr => hno (hR _ hr)⟩

theorem Keeps.trans (h : Keeps R S S₁) (h' : Keeps R S₁ S') : Keeps R S S' :=
  ⟨fun d hd => (h'.slots d (by rw [h.slots d hd]; exact hd)).trans (h.slots d hd),
    fun v hv hno => (h'.pages v hv hno).trans (h.pages v hv hno)⟩

/-- The page that may have changed has not. -/
theorem Keeps.same (h : Keeps (· = IDX v) S S') (hv : S'.frameAt v = S.frameAt v) : Keeps R S S' := by
  refine ⟨h.slots, fun u hu _ => ?_⟩
  by_cases e : IDX u = IDX v
  · rw [frameAt_page e, frameAt_page e, hv]
  · exact h.pages u hu e

/-- The tables and their entries are the same. -/
theorem keeps_frames (hp : S'.pde = S.pde)
    (hf : ∀ T ∈ tables S.pde FIRST_SLOT LAST_SLOT, S'.mem.frame T = S.mem.frame T) : Keeps R S S' := by
  refine ⟨fun d _ => by rw [hp], fun v hv _ => ?_⟩
  unfold Space.frameAt Space.entry
  rw [hp]
  split
  · next hd => rw [hf _ (mem_tables_of hv.slot.1 hv.slot.2 hd)]
  · rfl

theorem frameAt_setEntry (hd : (S.pde (DIDX v)).present = true) (e : Word) :
    (S.setEntry v e).frameAt v = target e := by
  rw [Space.frameAt, entry_setEntry]
  exact if_pos hd

/-- An entry is written. -/
theorem keeps_setEntry (hr : Rooted A S.pde FIRST_SLOT LAST_SLOT) (hv : UserAddr v)
    (hd : (S.pde (DIDX v)).present = true) (e : Word) : Keeps (· = IDX v) S (S.setEntry v e) := by
  refine ⟨fun _ _ => rfl, fun u hu hne => ?_⟩
  unfold Space.frameAt
  show (if (S.pde (DIDX u)).present = true then target ((S.setEntry v e).entry u) else none) = _
  split
  · next hd' =>
      refine congrArg target (setWord_ne ?_)
      intro ⟨h1, h2⟩
      exact hne (idx_eq hu hv (hr.inj _ _ hu.slot.1 hu.slot.2 hv.slot.1 hv.slot.2 hd' hd h1) h2)
  · rfl

/-- A table is made: it is empty. -/
theorem keeps_newTable (hf : Fits A S) (ha : (S.pde d).present = false) (hg : S.mem.memoryMap g = 0) :
    Keeps R S (S.newTable d g free) := by
  have hslot : ∀ d', d' ≠ d → (S.newTable d g free).pde d' = S.pde d' :=
    fun d' hd' => Function.update_of_ne hd' _ _
  refine ⟨fun d' hd' => hslot d' ?_, fun v hv _ => ?_⟩
  · rintro rfl
    rw [ha] at hd'
    cases hd'
  · by_cases e : DIDX v = d
    · have hnone : S.frameAt v = none := by
        rw [Space.frameAt, e, ha]
        rfl
      rw [hnone]
      simp [Space.frameAt, Space.entry, Space.newTable, e, entryInit, fill_self, target, Word.zero]
    · unfold Space.frameAt Space.entry
      rw [hslot _ e]
      split
      · next hd =>
          have hne : (S.pde (DIDX v)).index ≠ g := by
            rintro rfl
            exact (hf.counted.free hg).1 (table_mem hv hd)
          rw [newTable_ne hne]
      · rfl

/-- **A page is linked.** -/
theorem linkPage_keeps (hf : Fits A S) (hv : UserAddr v) (h : linkPage S v = .ok S') :
    Keeps (· = IDX v) S S' ∧ S'.mapped v = true := by
  refine ⟨?_, (linkPage_moves (P := fun _ _ => True) hv h).2⟩
  rcases linkPage_cases h with ⟨-, rfl⟩ | ⟨S₁, g, free, hS₁, hd, he, hg, rfl⟩
  · exact .refl _
  · have h1 : Fits A S₁ ∧ Keeps (· = IDX v) S S₁ := by
      rcases hS₁ with rfl | ⟨g₁, free₁, ha, hg₁, rfl⟩
      · exact ⟨hf, .refl _⟩
      · exact ⟨(Move.table (P := fun _ _ => True) _ g₁ free₁ hv.slot ha hg₁).fits hf, keeps_newTable hf ha hg₁⟩
    refine h1.2.trans ⟨fun _ _ => rfl, fun u hu hne => ?_⟩
    exact (keeps_setEntry h1.1.rooted hv hd (entryInit g)).pages u hu hne

/-- **A page is unlinked.** -/
theorem unlinkPage_keeps (hf : Fits A S) (hv : UserAddr v) (h : unlinkPage S v = .ok S') :
    Keeps (· = IDX v) S S' ∧ S'.mapped v = false := by
  unfold unlinkPage at h
  obtain ⟨-, h⟩ := of_assert h
  split at h
  · next he =>
      cases h
      refine ⟨.refl _, ?_⟩
      unfold Space.mapped
      cases hd : (S.pde (DIDX v)).present with
      | false => rfl
      | true => simpa [hd] using he
  · next he =>
      simp only [Bool.or_eq_true, Bool.not_eq_true', not_or, Bool.not_eq_false] at he
      obtain ⟨m, hm, h⟩ := ok_of_bind h
      obtain ⟨-, -, free, rfl⟩ := putPage_ok hm
      cases h
      have hk := keeps_setEntry hf.rooted hv he.1 { S.entry v with present := false }
      refine ⟨⟨fun _ _ => rfl, hk.pages⟩, frameAt_none.mp ?_⟩
      exact frameAt_setEntry he.1 { S.entry v with present := false }

end Page

/-! ## 2. The loops -/

section Loops

variable {A : Finset Nat} {R : Nat → Prop} {S S' : Space} {b b' : Bitmap} {fl : MapFlags} {v n i : Nat} {x : Bool}

theorem idx_next (v : Nat) : IDX (v + PAGE_SIZE) = IDX v + 1 := by
  unfold IDX PAGE_SIZE
  omega

theorem idx_pages (v i : Nat) : IDX (v + i * PAGE_SIZE) = IDX v + i := by
  unfold IDX PAGE_SIZE
  omega

theorem not_within_next (v n : Nat) : ¬Within (v + PAGE_SIZE) n (IDX v) := by
  unfold Within
  rw [idx_next]
  omega

theorem within_next {k : Nat} (h : Within (v + PAGE_SIZE) n k) : Within v (n + 1) k := by
  unfold Within at *
  rw [idx_next] at h
  omega

theorem within_self (v n : Nat) : Within v (n + 1) (IDX v) := by
  unfold Within
  omega

/-- The bit of a page is written. -/
theorem getBit_page {k : Nat} (hb : UserMap b) (hv : USER_MMAP_ADDR ≤ v) (h : bitmapSet b (IDX v) x = .ok b') :
    UserMap b' ∧ b'.length = b.length ∧ getBit b'.bits k =
      if k + USER_MMAP_ADDR / PAGE_SIZE = IDX v then x else getBit b.bits k := by
  have hk : k = IDX v - b.offset ↔ k + USER_MMAP_ADDR / PAGE_SIZE = IDX v := by
    rw [hb.offset]
    unfold USER_MMAP_ADDR at hv
    unfold IDX USER_MMAP_ADDR PAGE_SIZE
    omega
  refine ⟨(bitmapSet_page hb h).1, by rw [bitmapSet_ok h], ?_⟩
  rw [bitmapSet_ok h]
  show getBit (setBit b.bits (IDX v - b.offset) x) k = _
  rw [getBit_setBit]
  simp only [hk]

/-- **The pages of `sys_mmap`**: they are there afterwards, with their bits. -/
theorem mmapPages_keeps (hf : Fits A S) (hb : UserMap b) (hv : USER_MMAP_ADDR ≤ v)
    (h : mmapPages fl n v S b = .ok (S', b')) :
    Keeps (Within v n) S S' ∧ (∀ i < n, S'.mapped (v + i * PAGE_SIZE) = true) ∧ b'.length = b.length ∧
      ∀ k, getBit b'.bits k = true ↔
        getBit b.bits k = true ∨ Within v n (k + USER_MMAP_ADDR / PAGE_SIZE) := by
  induction n generalizing v S b with
  | zero =>
    cases h
    refine ⟨.refl _, nofun, rfl, fun k => (or_iff_left ?_).symm⟩
    unfold Within
    omega
  | succ n ih =>
    obtain ⟨S₁, h1, h⟩ := ok_of_bind h
    obtain ⟨b₁, hset, h⟩ := ok_of_bind h
    have hu := userAddr_of_mmap hv (bitmapSet_page hb hset).2
    obtain ⟨hk₁, hmap₁⟩ := linkPage_keeps hf hu h1
    have hd := hmap₁
    simp only [Space.mapped, Bool.and_eq_true] at hd
    rw [getPte_same hd.1] at h
    have hf₁ : Fits A S₁ := Moves.fits (linkPage_moves (P := fun _ _ => True) hu h1).1 hf
    have hf₂ : Fits A (S₁.setEntry v (mapEntry fl (S₁.entry v))) :=
      (Move.edit (P := fun _ _ => True) v (mapEntry fl (S₁.entry v)) hu hd.1 rfl fun _ => trivial).fits hf₁
    have hk₂ := keeps_setEntry hf₁.rooted hu hd.1 (mapEntry fl (S₁.entry v))
    have hsame : (S₁.setEntry v (mapEntry fl (S₁.entry v))).frameAt v = S₁.frameAt v := by
      rw [frameAt_setEntry hd.1, Space.frameAt, if_pos hd.1]
      rfl
    obtain ⟨hk₃, hall, hl, hbits⟩ := ih hf₂ (bitmapSet_page hb hset).1 (by omega) h
    have hk : Keeps (Within v (n + 1)) S S' := by
      refine (hk₁.mono fun k hk => ?_).trans ((hk₂.same hsame).trans (hk₃.mono fun k => within_next))
      rw [hk]
      exact within_self v n
    refine ⟨hk, fun i hi => ?_, hl.trans (getBit_page (k := 0) hb hv hset).2.1, fun k => ?_⟩
    · cases i with
      | zero =>
        rw [Nat.zero_mul, Nat.add_zero, mapped_frameAt, hk₃.pages v hu (not_within_next v n), hsame,
          ← mapped_frameAt]
        exact hmap₁
      | succ i =>
        rw [← page_add]
        exact hall i (by omega)
    · rw [hbits, (getBit_page hb hv hset).2.2]
      unfold Within
      rw [idx_next]
      split
      · next e => simp [e]
      · next e =>
          refine or_congr_right ?_
          omega

/-- **The pages of `sys_munmap`**: they are gone, and so are their bits. -/
theorem munmapPages_keeps (hf : Fits A S) (hb : UserMap b) (hv : USER_MMAP_ADDR ≤ v)
    (h : munmapPages n v S b = .ok (S', b')) :
    Keeps (Within v n) S S' ∧ (∀ i < n, S'.mapped (v + i * PAGE_SIZE) = false) ∧ b'.length = b.length ∧
      ∀ k, getBit b'.bits k = true ↔
        getBit b.bits k = true ∧ ¬Within v n (k + USER_MMAP_ADDR / PAGE_SIZE) := by
  induction n generalizing v S b with
  | zero =>
    cases h
    refine ⟨.refl _, nofun, rfl, fun k => (and_iff_left ?_).symm⟩
    unfold Within
    omega
  | succ n ih =>
    obtain ⟨S₁, h1, h⟩ := ok_of_bind h
    obtain ⟨set, ht, h⟩ := ok_of_bind h
    obtain ⟨-, h⟩ := of_assert h
    obtain ⟨b₁, hset, h⟩ := ok_of_bind h
    have hu := userAddr_of_mmap hv (bitmapSet_page hb hset).2
    obtain ⟨hk₁, hmap₁⟩ := unlinkPage_keeps hf hu h1
    have hf₁ : Fits A S₁ := Moves.fits (unlinkPage_moves (P := fun _ _ => True) hu h1) hf
    obtain ⟨hk₂, hall, hl, hbits⟩ := ih hf₁ (bitmapSet_page hb hset).1 (by omega) h
    have hk : Keeps (Within v (n + 1)) S S' := by
      refine (hk₁.mono fun k hk => ?_).trans (hk₂.mono fun k => within_next)
      rw [hk]
      exact within_self v n
    refine ⟨hk, fun i hi => ?_, hl.trans (getBit_page (k := 0) hb hv hset).2.1, fun k => ?_⟩
    · cases i with
      | zero =>
        rw [Nat.zero_mul, Nat.add_zero, mapped_frameAt, hk₂.pages v hu (not_within_next v n),
          ← mapped_frameAt]
        exact hmap₁
      | succ i =>
        rw [← page_add]
        exact hall i (by omega)
    · rw [hbits, (getBit_page hb hv hset).2.2]
      unfold Within
      rw [idx_next]
      split
      · next e => simp [e]
      · next e =>
          refine and_congr_right fun _ => ?_
          omega

theorem linkSegment_keeps (hf : Fits A S) (h : linkSegment n v S = .ok S') :
    Keeps (fun k => k < USER_MMAP_ADDR / PAGE_SIZE) S S' := by
  induction n generalizing v S with
  | zero =>
    cases h
    exact .refl _
  | succ n ih =>
    obtain ⟨hr, h⟩ := of_assert h
    obtain ⟨S₁, h1, h⟩ := ok_of_bind h
    simp only [Bool.and_eq_true, decide_eq_true_eq] at hr
    have hu := userAddr_of_heap hr.1 hr.2.le
    have hf₁ : Fits A S₁ := Moves.fits (linkPage_moves (P := fun _ _ => True) hu h1).1 hf
    refine ((linkPage_keeps hf hu h1).1.mono fun k hk => ?_).trans (ih hf₁ h)
    have hlow := hr.2
    unfold USER_MMAP_ADDR at hlow
    rw [hk]
    unfold IDX USER_MMAP_ADDR PAGE_SIZE
    omega

theorem protectSegment_keeps (hf : Fits A S) (h1 : ∀ i < n, UserAddr (v + i * PAGE_SIZE))
    (h : protectSegment n v S = .ok S') : Keeps R S S' := by
  induction n generalizing v S with
  | zero =>
    cases h
    exact .refl _
  | succ n ih =>
    obtain ⟨S₁, hS₁, h'⟩ := ok_of_bind h
    have hv : UserAddr v := by simpa using h1 0 (Nat.succ_pos n)
    obtain ⟨rfl, hd⟩ := getPte_false hS₁
    have hf₂ := (Move.edit (P := fun _ _ => True) v { S₁.entry v with write := false, readonly := true } hv hd rfl
      fun _ => trivial).fits hf
    have hsame : (S₁.setEntry v { S₁.entry v with write := false, readonly := true }).frameAt v = S₁.frameAt v := by
      rw [frameAt_setEntry hd, Space.frameAt, if_pos hd]
      rfl
    exact ((keeps_setEntry hf.rooted hv hd _).same hsame).trans
      (ih hf₂ (fun i hi => page_add v i ▸ h1 (i + 1) (by omega)) h')

theorem unlinkPages_keeps (hf : Fits A S) (h1 : ∀ i < n, UserAddr (v + i * PAGE_SIZE))
    (h : unlinkPages n v S = .ok S') : Keeps (Within v n) S S' := by
  induction n generalizing v S with
  | zero =>
    cases h
    exact .refl _
  | succ n ih =>
    obtain ⟨S₁, hS₁, h⟩ := ok_of_bind h
    have hv : UserAddr v := by simpa using h1 0 (Nat.succ_pos n)
    have hf₁ : Fits A S₁ := Moves.fits (unlinkPage_moves (P := fun _ _ => True) hv hS₁) hf
    refine ((unlinkPage_keeps hf hv hS₁).1.mono fun k hk => ?_).trans
      ((ih hf₁ (fun i hi => page_add v i ▸ h1 (i + 1) (by omega)) h).mono fun k => within_next)
    rw [hk]
    exact within_self v n

end Loops

/-! ## 3. The calls -/

/-- No page is new but those with a number in `R`. -/
def Adds (R : Nat → Prop) (S S' : Space) : Prop :=
  ∀ v, UserAddr v → S'.mapped v = true → S.mapped v = true ∨ R (IDX v)

/-- The page is not between `USER_MMAP_ADDR` and the stack. -/
def Elsewhere (k : Nat) : Prop := k < USER_MMAP_ADDR / PAGE_SIZE ∨ USER_STACK_BOTTOM / PAGE_SIZE ≤ k

/-- **A page between `USER_MMAP_ADDR` and the stack has its bit**, in a bitmap of one page. -/
structure Booked (m : Mem) (q : Proc) : Prop where
  length : q.vmap.length = PAGE_SIZE
  bits : ∀ v, USER_MMAP_ADDR ≤ v → v < USER_STACK_BOTTOM → Space.mapped ⟨m, q.pde⟩ v = true →
    getBit q.vmap.bits (IDX v - USER_MMAP_ADDR / PAGE_SIZE) = true

section Calls

variable {A : Finset Nat} {R R' : Nat → Prop} {S S' S₁ : Space} {m m' : Mem} {q q' : Proc} {v n : Nat}
  {present write : Bool}

theorem Keeps.adds (h : Keeps R S S') : Adds R S S' := by
  intro v hv hm
  by_cases hr : R (IDX v)
  · exact .inr hr
  · rw [mapped_frameAt, h.pages v hv hr, ← mapped_frameAt] at hm
    exact .inl hm

theorem Adds.trans (h : Adds R S S₁) (h' : Adds R S₁ S') : Adds R S S' := by
  intro v hv hm
  cases h' v hv hm with
  | inl hm => exact h v hv hm
  | inr hr => exact .inr hr

theorem Adds.mono (h : Adds R S S') (hR : ∀ k, R k → R' k) : Adds R' S S' :=
  fun v hv hm => (h v hv hm).imp_right (hR _)

/-- The entry of a page that is there is written. -/
theorem setEntry_adds (hr : Rooted A S.pde FIRST_SLOT LAST_SLOT) (hv : UserAddr v) (hmap : S.mapped v = true)
    (e : Word) : Adds R S (S.setEntry v e) := by
  have hd := hmap
  rw [Space.mapped, Bool.and_eq_true] at hd
  intro u hu hm
  cases (keeps_setEntry hr hv hd.1 e).adds u hu hm with
  | inl hm => exact .inl hm
  | inr hu =>
    rw [mapped_frameAt, frameAt_page hu, ← mapped_frameAt]
    exact .inl hmap

/-- **A page fault** adds a page of the heap or the stack, or none. -/
theorem pageFault_adds (hs : Sane q) (hf : Fits A ⟨m, q.pde⟩)
    (h : pageFault m q v present write = .ok (some (m', q'))) :
    Adds Elsewhere ⟨m, q.pde⟩ ⟨m', q'.pde⟩ ∧ q'.vmap = q.vmap := by
  unfold pageFault at h
  split at h
  · cases h
  · next hv =>
      simp only [Bool.or_eq_true, decide_eq_true_eq, not_or, not_lt, not_le] at hv
      have hu : UserAddr v := ⟨hv.1, by unfold SELF_MAP; unfold USER_STACK_TOP at hv; omega⟩
      split at h
      · obtain ⟨-, h⟩ := of_assert h
        obtain ⟨S, hS, h⟩ := ok_of_bind h
        obtain ⟨he, h⟩ := of_assert h
        obtain ⟨-, h⟩ := of_assert h
        obtain ⟨-, h⟩ := of_assert h
        obtain ⟨-, h⟩ := of_assert h
        obtain ⟨rfl, hd⟩ := getPte_false hS
        have hmap : Space.mapped ⟨m, q.pde⟩ v = true := by
          rw [Space.mapped, Bool.and_eq_true]
          exact ⟨hd, he⟩
        split at h
        · cases h
          exact ⟨setEntry_adds hf.rooted hu hmap _, rfl⟩
        · obtain ⟨⟨m₁, g⟩, hc, h⟩ := ok_of_bind h
          obtain ⟨hg, free, rfl⟩ := copyPage_ok hc
          cases h
          obtain ⟨S₁, hS₁⟩ : ∃ S₁ : Space, S₁ = ⟨((m.recount g 1 free).fill g
              (m.frame (Space.entry ⟨m, q.pde⟩ v).index)).setCount (Space.entry ⟨m, q.pde⟩ v).index
              (((m.recount g 1 free).fill g (m.frame (Space.entry ⟨m, q.pde⟩ v).index)).memoryMap
                (Space.entry ⟨m, q.pde⟩ v).index - 1), q.pde⟩ := ⟨_, rfl⟩
          -- the frame that is taken is no table
          have hk : Keeps (fun _ => False) ⟨m, q.pde⟩ S₁ := by
            rw [hS₁]
            refine keeps_frames rfl fun T hT => fill_ne ?_
            rintro rfl
            exact (hf.counted.free hg).1 (Finset.mem_union_right _ hT)
          have hr : Rooted A S₁.pde FIRST_SLOT LAST_SLOT := by
            rw [hS₁]
            exact hf.rooted
          have hmap₁ : S₁.mapped v = true := by
            rw [mapped_frameAt, hk.pages v hu id, ← mapped_frameAt]
            exact hmap
          have ha := (hk.adds.mono fun _ => False.elim).trans
            (setEntry_adds (R := Elsewhere) hr hu hmap₁ (entryInit g))
          rw [hS₁] at ha
          exact ⟨ha, rfl⟩
      · split at h
        · next hin =>
            obtain ⟨S', hS', h⟩ := ok_of_bind h
            cases h
            refine ⟨(linkPage_keeps hf (userAddr_page hu) hS').1.adds.mono fun k hk => ?_, rfl⟩
            have hhigh := hs.high
            rw [hk, show IDX (PAGE (IDX v)) = IDX v from idx_page _]
            simp only [Bool.or_eq_true, decide_eq_true_eq] at hin
            unfold USER_STACK_BOTTOM USER_STACK_TOP USER_STACK_SIZE at hin
            unfold USER_MMAP_ADDR at hhigh
            unfold Elsewhere IDX USER_MMAP_ADDR USER_STACK_BOTTOM USER_STACK_TOP USER_STACK_SIZE PAGE_SIZE
            omega
        · cases h

theorem sysBrk_adds {brk : Nat} {r : Int} (hs : Sane q) (hf : Fits A ⟨m, q.pde⟩)
    (h : sysBrk m q brk = .ok (m', q', r)) : Adds Elsewhere ⟨m, q.pde⟩ ⟨m', q'.pde⟩ ∧ q'.vmap = q.vmap := by
  unfold sysBrk at h
  obtain ⟨-, h⟩ := of_assert h
  obtain ⟨hr, h⟩ := of_assert h
  simp only [Bool.and_eq_true, decide_eq_true_eq] at hr
  have hlow := hs.low
  have hhigh := hs.high
  split at h
  · obtain ⟨S', hS', h⟩ := ok_of_bind h
    cases h
    have hbelow : ∀ i < divRoundUp (q.brk - brk) PAGE_SIZE, brk + i * PAGE_SIZE < q.brk := fun i hi =>
      divRoundUp_below (by unfold USER_MMAP_ADDR at hhigh; omega) hi
    have hu : ∀ i < divRoundUp (q.brk - brk) PAGE_SIZE, UserAddr (brk + i * PAGE_SIZE) := by
      intro i hi
      have := hbelow i hi
      exact userAddr_of_heap (by omega) (by omega)
    refine ⟨(unlinkPages_keeps hf hu hS').adds.mono fun k hk => .inl ?_, rfl⟩
    have hlast := hbelow (k - IDX brk) (by unfold Within at hk; omega)
    unfold Within at hk
    unfold USER_MMAP_ADDR at hhigh
    unfold IDX PAGE_SIZE at hk hlast
    unfold USER_MMAP_ADDR PAGE_SIZE
    omega
  · split at h
    · cases h
      exact ⟨(Keeps.refl _).adds, rfl⟩
    · cases h
      exact ⟨(Keeps.refl _).adds, rfl⟩

theorem execve_adds (hs : Sane q) (hf : Fits A ⟨m, q.pde⟩) (h : execve m q = .ok (m', q')) :
    Adds Elsewhere ⟨m, q.pde⟩ ⟨m', q'.pde⟩ ∧ q'.vmap = q.vmap := by
  obtain ⟨⟨m₁, q₁, r⟩, h1, h⟩ := ok_of_bind h
  obtain ⟨S', h2, h⟩ := ok_of_bind h
  cases h
  have hs₀ : Sane { q with end_ := USER_EXEC_ADDR } := ⟨hs.vmap, Nat.le_refl _, hs.high, hs.segment⟩
  obtain ⟨ha, hv⟩ := sysBrk_adds hs₀ hf h1
  have hf₁ : Fits A ⟨m₁, q₁.pde⟩ := Moves.fits (sysBrk_moves (P := fun _ _ => True) hs₀ h1).1 hf
  refine ⟨ha.trans ((linkPage_keeps hf₁ (userAddr_of_heap (Nat.le_refl _) (by decide)) h2).1.adds.mono
    fun k hk => ?_), hv⟩
  rw [hk]
  exact .inl (by decide)

theorem loadSegment_adds {ptr : Nat} {ph : Phdr} (hf : Fits A ⟨m, q.pde⟩)
    (h : loadSegment m q ptr ph = .ok (m', q')) :
    Adds Elsewhere ⟨m, q.pde⟩ ⟨m', q'.pde⟩ ∧ q'.vmap = q.vmap := by
  unfold loadSegment at h
  obtain ⟨-, h⟩ := of_assert h
  obtain ⟨-, h⟩ := of_assert h
  obtain ⟨S', h1, h⟩ := ok_of_bind h
  cases h
  exact ⟨(linkSegment_keeps hf h1).adds.mono fun k => .inl, rfl⟩

theorem endSegment_adds {sg : Segment} {writable : Bool} (hs : Sane q) (hseg : q.segment = some sg)
    (hf : Fits A ⟨m, q.pde⟩) (h : endSegment m q { sg.ph with writable } = .ok (m', q')) :
    Adds Elsewhere ⟨m, q.pde⟩ ⟨m', q'.pde⟩ ∧ q'.vmap = q.vmap := by
  obtain ⟨S', h1, h⟩ := ok_of_bind h
  cases h
  refine ⟨(protectSegment_keeps hf (fun i hi => ?_) h1).adds, rfl⟩
  have hi' : i < sg.ph.pages := by
    split at hi
    · omega
    · exact hi
  obtain ⟨h1, h2⟩ := hs.segment sg hseg _ (pages_below hi')
  exact userAddr_of_heap h1 h2.le

/-- What an access does that is not a store to a page. -/
theorem load_adds (hs : Sane q) (hf : Fits A ⟨m, q.pde⟩) (h : load m q v = .ok (some (m', q'))) :
    Adds Elsewhere ⟨m, q.pde⟩ ⟨m', q'.pde⟩ ∧ q'.vmap = q.vmap := by
  unfold load at h
  split at h
  · cases h
    exact ⟨(Keeps.refl _).adds, rfl⟩
  · exact pageFault_adds hs hf h

/-- A store to a page changes no entry. -/
theorem put_adds {w : Word} (hf : Fits A ⟨m, q.pde⟩) (hv : UserAddr v) (hmap : Space.mapped ⟨m, q.pde⟩ v = true) :
    Adds R ⟨m, q.pde⟩ ⟨Space.put ⟨m, q.pde⟩ v w, q.pde⟩ := by
  have hk : Keeps R ⟨m, q.pde⟩ ⟨Space.put ⟨m, q.pde⟩ v w, q.pde⟩ :=
    keeps_frames rfl fun T hT => put_frame hf hv hmap (Finset.mem_union_right _ hT)
  exact hk.adds

theorem userStore_adds {w : Word} (hs : Sane q) (hf : Fits A ⟨m, q.pde⟩) (hv : v < SELF_MAP)
    (h : userStore m q v w = .ok (some (m', q'))) :
    Adds Elsewhere ⟨m, q.pde⟩ ⟨m', q'.pde⟩ ∧ q'.vmap = q.vmap := by
  unfold userStore at h
  rw [if_neg (not_le.mpr hv)] at h
  split at h
  · exact pageFault_adds hs hf h
  · next hu =>
      split at h
      · next hmap =>
          split at h
          · cases h
            exact ⟨put_adds hf ⟨not_lt.mp hu, hv⟩ hmap, rfl⟩
          · exact pageFault_adds hs hf h
      · exact pageFault_adds hs hf h

theorem kernelStore_adds {w : Word} (hs : Sane q) (hf : Fits A ⟨m, q.pde⟩) (hv : UserAddr v)
    (h : kernelStore m q v w = .ok (some (m', q'))) :
    Adds Elsewhere ⟨m, q.pde⟩ ⟨m', q'.pde⟩ ∧ q'.vmap = q.vmap := by
  rw [kernelStore_user hv] at h
  split at h
  · next hmap =>
      cases h
      exact ⟨put_adds hf hv hmap, rfl⟩
  · exact pageFault_adds hs hf h

/-- **What `sys_mmap` leaves** at `vaddr`, in `n` pages. -/
structure Mapped (m : Mem) (q : Proc) (addr n : Nat) (m' : Mem) (q' : Proc) (vaddr : Nat) : Prop where
  low : USER_MMAP_ADDR ≤ vaddr
  high : vaddr < USER_STACK_BOTTOM
  keeps : Keeps (Within vaddr n) ⟨m, q.pde⟩ ⟨m', q'.pde⟩
  pages : ∀ i < n, Space.mapped ⟨m', q'.pde⟩ (vaddr + i * PAGE_SIZE) = true
  length : q'.vmap.length = q.vmap.length
  bits : ∀ k, getBit q'.vmap.bits k = true ↔
    getBit q.vmap.bits k = true ∨ Within vaddr n (k + USER_MMAP_ADDR / PAGE_SIZE)
  given : addr ≠ 0 → vaddr = addr
  found : addr = 0 → 0 < n ∧ ∃ i, vaddr = PAGE (i + USER_MMAP_ADDR / PAGE_SIZE) ∧ Found q.vmap n (some i)

/-- The address that `sys_mmap` takes: the one it is given, or the lowest run that is clear. -/
theorem mmapAddr_spec {addr vaddr : Nat} {b : Bitmap} (hs : UserMap q.vmap) (hl : q.vmap.length = PAGE_SIZE)
    (h : mmapAddr q addr n = .ok (vaddr, b)) : UserMap b ∧ b.length = q.vmap.length ∧
      (∀ k, getBit b.bits k = true ↔
        getBit q.vmap.bits k = true ∨ (addr = 0 ∧ Within vaddr n (k + USER_MMAP_ADDR / PAGE_SIZE))) ∧
      (addr ≠ 0 → vaddr = addr) ∧
      (addr = 0 → 0 < n ∧ ∃ i, vaddr = PAGE (i + USER_MMAP_ADDR / PAGE_SIZE) ∧ Found q.vmap n (some i)) := by
  unfold mmapAddr at h
  split at h
  · next h0 =>
      have hmap := scanPage_map hs h
      unfold scanPage at h
      obtain ⟨hn, h⟩ := of_assert h
      rw [decide_eq_true_eq] at hn
      rcases bitmapScan_spec (hl.trans hs.room.symm).le hn with ⟨hscan, -⟩ | ⟨i, map', hscan, hf, hl', ho, hr, hb⟩
      · rw [hscan] at h
        cases h
      · rw [hscan] at h
        cases h
        refine ⟨hmap, hl', fun k => ?_, fun hne => absurd h0 hne, fun _ => ⟨hn, i, by rw [hs.offset], hf⟩⟩
        rw [hb, Within, idx_page, hs.offset]
        have : i ≤ k ∧ k < i + n ↔ i + USER_MMAP_ADDR / PAGE_SIZE ≤ k + USER_MMAP_ADDR / PAGE_SIZE ∧
            k + USER_MMAP_ADDR / PAGE_SIZE < i + USER_MMAP_ADDR / PAGE_SIZE + n := by omega
        rw [this, or_comm]
        simp [h0]
  · next h0 =>
      cases h
      exact ⟨hs, rfl, fun k => by simp [h0], fun _ => rfl, fun e => absurd e h0⟩

theorem sysMmap_mapped {addr length vaddr : Nat} {fl : MapFlags} (hs : Sane q) (hl : q.vmap.length = PAGE_SIZE)
    (hf : Fits A ⟨m, q.pde⟩) (h : sysMmap m q addr length fl = .ok (m', q', vaddr)) :
    Mapped m q addr (divRoundUp length PAGE_SIZE) m' q' vaddr := by
  unfold sysMmap at h
  obtain ⟨-, h⟩ := of_assert h
  obtain ⟨⟨v, b⟩, hb, h⟩ := ok_of_bind h
  obtain ⟨hr, h⟩ := of_assert h
  obtain ⟨⟨S', b'⟩, hp, h⟩ := ok_of_bind h
  cases h
  simp only [Bool.and_eq_true, decide_eq_true_eq] at hr
  obtain ⟨hmap, hlen, hbits, hgiven, hfound⟩ := mmapAddr_spec hs.vmap hl hb
  obtain ⟨hk, hall, hlen', hbits'⟩ := mmapPages_keeps hf hmap hr.1 hp
  refine ⟨hr.1, hr.2, hk, hall, hlen'.trans hlen, fun k => ?_, hgiven, hfound⟩
  rw [hbits', hbits]
  constructor
  · intro hor
    rcases hor with (hk | ⟨-, hk⟩) | hk
    · exact .inl hk
    · exact .inr hk
    · exact .inr hk
  · intro hor
    rcases hor with hk | hk
    · exact .inl (.inl hk)
    · exact .inr hk

/-- **What `sys_munmap` leaves.** -/
structure Unmapped (m : Mem) (q : Proc) (vaddr n : Nat) (m' : Mem) (q' : Proc) : Prop where
  keeps : Keeps (Within vaddr n) ⟨m, q.pde⟩ ⟨m', q'.pde⟩
  pages : ∀ i < n, Space.mapped ⟨m', q'.pde⟩ (vaddr + i * PAGE_SIZE) = false
  map : UserMap q'.vmap ∧ q'.vmap.length = q.vmap.length
  bits : ∀ k, getBit q'.vmap.bits k = true ↔
    getBit q.vmap.bits k = true ∧ ¬Within vaddr n (k + USER_MMAP_ADDR / PAGE_SIZE)

theorem sysMunmap_unmapped {addr length : Nat} {r : Int} (hs : Sane q) (hf : Fits A ⟨m, q.pde⟩)
    (h : sysMunmap m q addr length = .ok (m', q', r)) :
    Unmapped m q addr (divRoundUp length PAGE_SIZE) m' q' := by
  have hs' := (sysMunmap_moves (P := fun _ _ => True) hs h).2.vmap
  unfold sysMunmap at h
  obtain ⟨hr, h⟩ := of_assert h
  obtain ⟨-, h⟩ := of_assert h
  obtain ⟨⟨S', b'⟩, hp, h⟩ := ok_of_bind h
  cases h
  simp only [Bool.and_eq_true, decide_eq_true_eq] at hr
  obtain ⟨hk, hall, hlen, hbits⟩ := munmapPages_keeps hf hs.vmap hr.1 hp
  exact ⟨hk, hall, ⟨hs', hlen⟩, hbits⟩

/-- A page has a number. -/
theorem within_page {u : Nat} (h : Within v n (IDX u)) :
    ∃ i < n, IDX u = IDX (v + i * PAGE_SIZE) := by
  unfold Within at h
  exact ⟨IDX u - IDX v, by omega, by rw [idx_pages]; omega⟩

/-! ### The invariant -/

theorem Booked.adds (hb : Booked m q) (ha : Adds Elsewhere ⟨m, q.pde⟩ ⟨m', q'.pde⟩) (hv : q'.vmap = q.vmap) :
    Booked m' q' := by
  refine ⟨by rw [hv]; exact hb.length, fun v h1 h2 hm => ?_⟩
  have hu := userAddr_of_mmap h1 (h2.trans (by decide))
  rw [hv]
  refine hb.bits v h1 h2 ((ha v hu hm).resolve_right fun he => ?_)
  unfold Elsewhere USER_STACK_BOTTOM USER_STACK_TOP USER_STACK_SIZE USER_MMAP_ADDR IDX PAGE_SIZE at he
  unfold USER_MMAP_ADDR at h1
  unfold USER_STACK_BOTTOM USER_STACK_TOP USER_STACK_SIZE at h2
  omega

/-- The number of a page among those of the bitmap. -/
theorem idx_bit (h : USER_MMAP_ADDR ≤ v) : IDX v - USER_MMAP_ADDR / PAGE_SIZE + USER_MMAP_ADDR / PAGE_SIZE = IDX v := by
  unfold USER_MMAP_ADDR at h
  unfold IDX USER_MMAP_ADDR PAGE_SIZE
  omega

theorem Booked.mapped {addr vaddr : Nat} (hb : Booked m q) (h : Mapped m q addr n m' q' vaddr) : Booked m' q' := by
  refine ⟨h.length.trans hb.length, fun v h1 h2 hm => ?_⟩
  have hu := userAddr_of_mmap h1 (h2.trans (by decide))
  rw [h.bits, idx_bit h1]
  exact (h.keeps.adds v hu hm).imp_left (hb.bits v h1 h2)

theorem Booked.unmapped {vaddr : Nat} (hb : Booked m q) (h : Unmapped m q vaddr n m' q') :
    Booked m' q' := by
  refine ⟨h.map.2.trans hb.length, fun v h1 h2 hm => ?_⟩
  have hu := userAddr_of_mmap h1 (h2.trans (by decide))
  have hout : ¬Within vaddr n (IDX v) := by
    intro hin
    obtain ⟨i, hi, e⟩ := within_page hin
    rw [mapped_frameAt, frameAt_page e, ← mapped_frameAt, h.pages i hi] at hm
    cases hm
  rw [h.bits, idx_bit h1]
  refine ⟨hb.bits v h1 h2 ?_, hout⟩
  rw [mapped_frameAt, ← h.keeps.pages v hu hout, ← mapped_frameAt]
  exact hm

end Calls

/-! ## 4. `copy_pde` -/

section Copy

variable {m m' m₀ : Mem} {T n t d : Nat} {pde pde' pde₀ : Nat → Word} {B : Finset Nat}

/-- The inner loop: what the entries name stays, and no count goes down. -/
theorem copyEntries_targets (h : copyEntries T n t m = .ok m') :
    (∀ U u, target (m'.frame U u) = target (m.frame U u)) ∧ ∀ f, m.memoryMap f ≤ m'.memoryMap f := by
  induction n generalizing t m with
  | zero =>
    cases h
    exact ⟨fun _ _ => rfl, fun _ => Nat.le_refl _⟩
  | succ n ih =>
    rw [copyEntries] at h
    split at h
    · exact ih h
    · obtain ⟨-, h⟩ := of_assert h
      obtain ⟨-, h⟩ := of_assert h
      obtain ⟨hframe, hcount⟩ := ih h
      refine ⟨fun U u => (hframe U u).trans ?_, fun f => Nat.le_trans ?_ (hcount f)⟩
      · show target ((m.setWord T t (shareEntry (m.frame T t))).frame U u) = _
        by_cases e : U = T ∧ u = t
        · obtain ⟨rfl, rfl⟩ := e
          rw [setWord_self, target_share]
        · rw [setWord_ne e]
      · show m.memoryMap f ≤ Function.update m.memoryMap _ (m.memoryMap _ + 1) f
        by_cases e : f = (m.frame T t).index
        · rw [e, Function.update_self]
          exact Nat.le_succ _
        · rw [Function.update_of_ne e]

/-- Between two moments of the outer loop, at slot `d`: the tables `B` name what they named in `m₀`,
    and so do the copies in the slots before. -/
structure Copied (B : Finset Nat) (m₀ : Mem) (pde₀ : Nat → Word) (d : Nat) (m : Mem) (pde : Nat → Word) :
    Prop where
  olds : ∀ T ∈ B, m.memoryMap T ≠ 0 ∧ ∀ t, target (m.frame T t) = target (m₀.frame T t)
  rest : ∀ e, d ≤ e → pde e = pde₀ e
  news : ∀ e, FIRST_SLOT ≤ e → e < d → (pde e).present = (pde₀ e).present ∧ ((pde e).present = true →
    m.memoryMap (pde e).index ≠ 0 ∧ ∀ t, target (m.frame (pde e).index t) = target (m₀.frame (pde₀ e).index t))

theorem copyTables_copied (hB : ∀ d, UserSlot d → (pde₀ d).present = true → (pde₀ d).index ∈ B)
    (hd : FIRST_SLOT ≤ d) (hn : d + n ≤ LAST_SLOT) (hc : Copied B m₀ pde₀ d m pde)
    (h : copyTables n d m pde = .ok (m', pde')) : Copied B m₀ pde₀ (d + n) m' pde' := by
  induction n generalizing d m pde with
  | zero =>
    cases h
    exact hc
  | succ n ih =>
    rw [copyTables] at h
    rw [show d + (n + 1) = d + 1 + n by omega]
    split at h
    · next ha =>
        rw [Bool.not_eq_true'] at ha
        refine ih (by omega) (by omega) ⟨hc.olds, fun e he => hc.rest e (by omega), fun e h1 h2 => ?_⟩ h
        by_cases e' : e = d
        · rw [e', ← hc.rest d (Nat.le_refl d)]
          exact ⟨rfl, fun hp => absurd hp (by simp [ha])⟩
        · exact hc.news e h1 (by omega)
    · next hp =>
        have hp : (pde d).present = true := by simpa using hp
        obtain ⟨m₁, h1, h⟩ := ok_of_bind h
        obtain ⟨⟨m₂, g⟩, h2, h⟩ := ok_of_bind h
        obtain ⟨hg, free, rfl⟩ := copyPage_ok h2
        obtain ⟨htargets, hcounts⟩ := copyEntries_targets h1
        have hstay : ∀ f, m.memoryMap f ≠ 0 → f ≠ g ∧ ((m₁.recount g 1 free).fill g
            (m₁.frame (pde d).index)).memoryMap f ≠ 0 := by
          intro f hf
          have hf₁ : m₁.memoryMap f ≠ 0 := Nat.ne_of_gt (Nat.lt_of_lt_of_le (Nat.pos_of_ne_zero hf) (hcounts f))
          have hne : f ≠ g := by
            rintro rfl
            exact hf₁ hg
          refine ⟨hne, ?_⟩
          show Function.update m₁.memoryMap g 1 f ≠ 0
          rwa [Function.update_of_ne hne]
        have hframe : ∀ f, f ≠ g → ((m₁.recount g 1 free).fill g (m₁.frame (pde d).index)).frame f = m₁.frame f :=
          fun f hf => fill_ne hf
        refine ih (by omega) (by omega) ⟨fun T hT => ?_, fun e he => ?_, fun e h1 h2 => ?_⟩ h
        · obtain ⟨hpos, hold⟩ := hc.olds T hT
          obtain ⟨hne, hpos'⟩ := hstay T hpos
          refine ⟨hpos', fun t => ?_⟩
          rw [hframe T hne, htargets, hold]
        · rw [Function.update_of_ne (by omega)]
          exact hc.rest e (by omega)
        · by_cases e' : e = d
          · rw [e', Function.update_self, ← hc.rest d (Nat.le_refl d)]
            refine ⟨rfl, fun _ => ⟨?_, fun t => ?_⟩⟩
            · show Function.update m₁.memoryMap g 1 g ≠ 0
              rw [Function.update_self]
              exact Nat.one_ne_zero
            · have hin : (pde d).index ∈ B := by
                rw [hc.rest d (Nat.le_refl d)] at hp ⊢
                exact hB d ⟨hd, by omega⟩ hp
              show target (((m₁.recount g 1 free).fill g (m₁.frame (pde d).index)).frame g t) = _
              rw [fill_self, htargets]
              exact (hc.olds _ hin).2 t
          · rw [Function.update_of_ne e']
            obtain ⟨hpres, hnew⟩ := hc.news e h1 (by omega)
            refine ⟨hpres, fun hp' => ?_⟩
            obtain ⟨hpos, hold⟩ := hnew hp'
            obtain ⟨hne, hpos'⟩ := hstay _ hpos
            exact ⟨hpos', fun t => by rw [hframe _ hne, htargets, hold]⟩

/-- **`copy_pde`**: the copy has the pages of the original, and every table names what it named. -/
theorem copyPde_frames {S : Space} (hB : tables S.pde FIRST_SLOT LAST_SLOT ⊆ B) (hpos : ∀ T ∈ B, S.mem.memoryMap T ≠ 0)
    (h : copyPde S = .ok (m', pde')) :
    (∀ T ∈ B, ∀ t, target (m'.frame T t) = target (S.mem.frame T t)) ∧
      ∀ v, UserAddr v → Space.frameAt ⟨m', pde'⟩ v = S.frameAt v := by
  have hstart : Copied B S.mem S.pde FIRST_SLOT S.mem S.pde :=
    ⟨fun T hT => ⟨hpos T hT, fun _ => rfl⟩, fun _ _ => rfl, fun e h1 h2 => absurd h2 (not_lt.mpr h1)⟩
  have hend := copyTables_copied (fun d hd hp => hB (mem_tables_of hd.1 hd.2 hp)) (Nat.le_refl _)
    (by decide : FIRST_SLOT + (LAST_SLOT - FIRST_SLOT) ≤ LAST_SLOT) hstart h
  refine ⟨fun T hT => (hend.olds T hT).2, fun v hv => ?_⟩
  obtain ⟨hpres, hnew⟩ := hend.news (DIDX v) hv.slot.1 hv.slot.2
  unfold Space.frameAt Space.entry
  show (if (pde' (DIDX v)).present = true then _ else none) = _
  rw [hpres]
  split
  · next hp => exact (hnew (hpres.trans hp)).2 _
  · rfl

end Copy

/-! ## 5. Runs -/

section Runs

variable {s s' : State} {p : Nat} {q q' : Proc} {m' : Mem}

/-- Every process's pages are booked. -/
def AllBooked (s : State) : Prop := ∀ p q, s.procs p = some q → Booked s.mem q

/-- The tables of a process name what they named. -/
theorem Booked.congr {r : Proc} (hb : Booked s.mem r) (h : ∀ T ∈ tables r.pde FIRST_SLOT LAST_SLOT,
    ∀ t, target (m'.frame T t) = target (s.mem.frame T t)) : Booked m' r := by
  refine ⟨hb.length, fun v h1 h2 hm => hb.bits v h1 h2 ?_⟩
  have hu := userAddr_of_mmap h1 (h2.trans (by decide))
  rw [mapped_frameAt] at hm ⊢
  unfold Space.frameAt Space.entry at hm ⊢
  dsimp only at hm ⊢
  split at hm
  · next hd =>
      rw [if_pos hd, ← h _ (mem_tables_of hu.slot.1 hu.slot.2 hd)]
      exact hm
  · cases hm

/-- One process has a new record, and the tables of the others stay. -/
theorem booked_born (hs : Held s) (hall : AllBooked s) (hq : Booked m' q')
    (h : ∀ T ∈ s.tablesOf (s.live.erase p), ∀ t, target (m'.frame T t) = target (s.mem.frame T t)) :
    AllBooked (born s m' p q') := by
  intro u r hu
  have hu : Function.update s.procs p (some q') u = some r := hu
  by_cases e : u = p
  · rw [e, Function.update_self] at hu
    cases hu
    exact hq
  · rw [Function.update_of_ne e] at hu
    refine (hall u r hu).congr fun T hT => h T ?_
    rw [← pde_some hu] at hT
    exact tables_others hs e hT

theorem booked_setProc (hs : Held s) (hall : AllBooked s) (hp : s.procs p = some q)
    (hm : Moves (fun _ _ => True) ⟨s.mem, q.pde⟩ ⟨m', q'.pde⟩) (hq : Booked m' q') :
    AllBooked (s.setProc p m' q') := by
  rw [setProc_born hs hp]
  refine booked_born hs hall hq fun T hT t => ?_
  rw [Moves.keeps hm (hs.fits hp) T (.inl hT)]

theorem booked_exit (hs : Held s) (hall : AllBooked s) (hp : s.procs p = some q) (h : taskExit s p q = .ok s') :
    AllBooked s' := by
  obtain ⟨m₁, h1, h⟩ := ok_of_bind h
  cases h
  have hframe := (freePde_counted (hs.fits hp) h1).2
  intro u r hu
  have hu : Function.update s.procs p none u = some r := hu
  by_cases e : u = p
  · rw [e, Function.update_self] at hu
    cases hu
  · rw [Function.update_of_ne e] at hu
    refine (hall u r hu).congr fun T _ t => ?_
    have hframe : m₁.frame = s.mem.frame := hframe
    rw [hframe]

/-- An access, which may have ended the process. -/
theorem booked_accessed {o : Option (Mem × Proc)} (hs : Held s) (hall : AllBooked s) (hp : s.procs p = some q)
    (ha : ∀ m' q', o = some (m', q') → Adds Elsewhere ⟨s.mem, q.pde⟩ ⟨m', q'.pde⟩ ∧ q'.vmap = q.vmap)
    (ho : ∀ m' q', o = some (m', q') → (Moves (fun _ _ => True) ⟨s.mem, q.pde⟩ ⟨m', q'.pde⟩ ∧ Sane q') ∨
      ∃ v w, Stores s.mem q v w m' q')
    (h : accessed s p q o = .ok s') : AllBooked s' := by
  cases o with
  | none => exact booked_exit hs hall hp h
  | some r =>
    cases h
    obtain ⟨hadds, hv⟩ := ha r.1 r.2 rfl
    have hq := (hall p q hp).adds hadds hv
    rcases ho r.1 r.2 rfl with ⟨hm, -⟩ | ⟨v, w, hu, hmap, hm, -⟩
    · exact booked_setProc hs hall hp hm hq
    · rw [setProc_born hs hp]
      refine booked_born hs hall hq fun T hT t => ?_
      rw [hm, put_frame (hs.fits hp) hu hmap (Finset.mem_union_left _ hT)]

theorem booked_taskToUserMode (m : Mem) : Booked m taskToUserMode := ⟨rfl, fun _ _ _ hm => nomatch hm⟩

/-- **Every action keeps the pages booked.** -/
theorem act_booked {a : Action} (hs : Held s) (hall : AllBooked s) (ha : Enabled s a = true)
    (hok : Proper a = true) (h : act s a = .ok s') : AllBooked s' := by
  rcases act_run h with ⟨c, rfl, rfl⟩ | ⟨q, hp, h⟩
  · exact booked_born hs hall (booked_taskToUserMode s.mem) fun _ _ _ => rfl
  have hq := hs.sane a.actor q hp
  have hf := hs.fits hp
  have hb := hall a.actor q hp
  cases a with
  | start c => cases h
  | fork p c =>
    obtain ⟨⟨m, pde⟩, h1, h⟩ := ok_of_bind h
    cases h
    obtain ⟨htables, hpages⟩ := copyPde_frames (S := ⟨s.mem, q.pde⟩) (tables_subset hs hp)
      (fun T hT => by rw [hs.counted.table T hT]; exact Nat.one_ne_zero) h1
    refine booked_born hs hall ⟨hb.length, fun v h1 h2 hm => hb.bits v h1 h2 ?_⟩ fun T hT t => htables T ?_ t
    · rw [mapped_frameAt] at hm ⊢
      rwa [← hpages v (userAddr_of_mmap h1 (h2.trans (by decide)))]
    · rwa [erase_new hs (Option.isNone_iff_eq_none.mp ha)] at hT
  | load p v =>
    obtain ⟨o, ho, h⟩ := ok_of_bind h
    exact booked_accessed hs hall hp (fun m' q' e => load_adds hq hf (e ▸ ho))
      (fun m' q' e => .inl (load_moves admits_true hq (e ▸ ho))) h
  | userStore p v w =>
    obtain ⟨o, ho, h⟩ := ok_of_bind h
    refine booked_accessed hs hall hp (fun m' q' e => userStore_adds hq hf (of_decide_eq_true hok) (e ▸ ho))
      (fun m' q' e => ?_) h
    rcases userStore_cases admits_true hq (of_decide_eq_true hok) (e ▸ ho) with hm | ⟨hst, -⟩
    · exact .inl hm
    · exact .inr ⟨v, w, hst⟩
  | kernelStore p v w =>
    obtain ⟨o, ho, h⟩ := ok_of_bind h
    have hu := userAddr_of_proper hok
    exact booked_accessed hs hall hp (fun m' q' e => kernelStore_adds hq hf hu (e ▸ ho))
      (fun m' q' e => (kernelStore_cases admits_true hq hu (e ▸ ho)).imp_right fun hst => ⟨v, w, hst⟩) h
  | mmap p addr length fl =>
    obtain ⟨⟨m, q', r⟩, h1, h⟩ := ok_of_bind h
    cases h
    have hm := sysMmap_moves (P := fun _ _ => True) (Q := fun _ _ _ => True)
      (fun _ _ _ _ _ _ _ _ => ⟨trivial, trivial⟩) hq h1 fun _ _ _ => trivial
    exact booked_setProc hs hall hp hm.1 (hb.mapped (sysMmap_mapped hq hb.length hf h1))
  | munmap p addr length =>
    obtain ⟨⟨m, q', r⟩, h1, h⟩ := ok_of_bind h
    cases h
    exact booked_setProc hs hall hp (sysMunmap_moves hq h1).1 (hb.unmapped (sysMunmap_unmapped hq hf h1))
  | brk p addr =>
    obtain ⟨⟨m, q', r⟩, h1, h⟩ := ok_of_bind h
    cases h
    obtain ⟨hadds, hv⟩ := sysBrk_adds hq hf h1
    exact booked_setProc hs hall hp (sysBrk_moves hq h1).1 (hb.adds hadds hv)
  | execve p =>
    obtain ⟨⟨m, q'⟩, h1, h⟩ := ok_of_bind h
    cases h
    obtain ⟨hadds, hv⟩ := execve_adds hq hf h1
    exact booked_setProc hs hall hp (execve_moves hq h1).1 (hb.adds hadds hv)
  | loadSegment p ptr ph =>
    obtain ⟨⟨m, q'⟩, h1, h⟩ := ok_of_bind h
    cases h
    rw [Proper, decide_eq_true_eq] at hok
    obtain ⟨hadds, hv⟩ := loadSegment_adds hf h1
    exact booked_setProc hs hall hp (loadSegment_moves hq hok h1).1 (hb.adds hadds hv)
  | segmentWord p i w =>
    obtain ⟨sg, o, hsg, hfills, ho, h⟩ := segmentWord_of hp ha h
    have hu := segment_addr hq hsg hfills
    exact booked_accessed hs hall hp (fun m' q' e => kernelStore_adds hq hf hu (e ▸ ho))
      (fun m' q' e => (kernelStore_cases admits_true hq hu (e ▸ ho)).imp_right fun hst => ⟨_, w, hst⟩) h
  | readAgain p ph =>
    obtain ⟨sg, -, rfl⟩ := readAgain_of h
    exact booked_setProc hs hall hp .refl ⟨hb.length, hb.bits⟩
  | segmentZero p v w =>
    obtain ⟨o, ho, h⟩ := ok_of_bind h
    have hu := userAddr_of_proper hok
    exact booked_accessed hs hall hp (fun m' q' e => kernelStore_adds hq hf hu (e ▸ ho))
      (fun m' q' e => (kernelStore_cases admits_true hq hu (e ▸ ho)).imp_right fun hst => ⟨v, w, hst⟩) h
  | endSegment p ph =>
    obtain ⟨sg, m, q', hsg, h1, rfl⟩ := endSegment_of h
    obtain ⟨hadds, hv⟩ := endSegment_adds hq hsg hf h1
    exact booked_setProc hs hall hp (endSegment_moves admits_true hq hsg h1).1 (hb.adds hadds hv)
  | exit p => exact booked_exit hs hall hp h

/-- **In every state reached, what is mapped between `USER_MMAP_ADDR` and the stack is booked.** -/
theorem kept_booked {pages : Nat} (h : Kept pages s) : AllBooked s := by
  induction h with
  | boot h => exact fun p q hp => by simp [h.procs p] at hp
  | step h a ha hok hs ih => exact act_booked (kept_held h) ih ha hok hs

end Runs

end Yuios.Paging
