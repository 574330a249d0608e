/-
  File:      Yuios/Kernel/FreePages.lean
  Subject:   THE COUNTER `free_pages` against the frames that `memory_map` has free.

  `memory_map_init` takes the pages of the memory array off `free_pages`, and `mapping_init` marks the
  kernel's first 4096 frames in `memory_map` only.

  * `Surplus` -- the counter is so much larger than the number of free frames. `get_page` and
    `put_page` keep the difference, whichever call they are made from (`act_surplus`).
  * **`freePages_over`** -- in every state reached the counter is larger by the kernel's frames from
    `start_page` on, so `sys_brk` is right to refuse or not exactly where that makes no difference.
  * `brk_unbacked` -- a heap of 1000 pages on a machine with 304 free frames.
-/
import Yuios.Kernel.Faulting

namespace Yuios.Paging

open Lib
open Kernel (of_assert)

/-- `free_pages` is `d` more than the number of free frames. -/
structure Surplus (d : Nat) (m : Mem) : Prop where
  free : m.freePages = (freeFrames m).card + d
  small : m.totalPages + d < 2 ^ 32
  enough : KERNEL_MEMORY_SIZE / PAGE_SIZE ≤ m.totalPages

/-! ## 1. `get_page` and `put_page` -/

section Frames

variable {d f g i n : Nat} {m m' : Mem}

theorem freeFrames_le (m : Mem) : (freeFrames m).card ≤ m.totalPages := by
  calc (freeFrames m).card ≤ (Finset.Ico m.startPage m.totalPages).card := Finset.card_filter_le _ _
    _ = m.totalPages - m.startPage := Nat.card_Ico _ _
    _ ≤ m.totalPages := Nat.sub_le _ _

/-- A count that was not zero and is not zero. -/
theorem freeFrames_setCount (h0 : m.memoryMap f ≠ 0) (hn : n ≠ 0) :
    freeFrames (m.setCount f n) = freeFrames m := by
  ext i
  have hcount : (m.setCount f n).memoryMap i = if i = f then n else m.memoryMap i := by
    simp [Mem.setCount, Function.update_apply]
  rw [freeFrames, freeFrames, Finset.mem_filter, Finset.mem_filter, hcount]
  by_cases e : i = f
  · simp [e, h0, hn]
  · rw [if_neg e]
    rfl

/-- A frame whose last reference goes. -/
theorem freeFrames_last (hi : m.startPage ≤ i) (ht : i < m.totalPages) (free : Nat) :
    freeFrames (m.recount i 0 free) = insert i (freeFrames m) := by
  ext f
  have hcount : (m.recount i 0 free).memoryMap f = if f = i then 0 else m.memoryMap f := by
    simp [Mem.recount, Mem.setCount, Function.update_apply]
  have hin : f ∈ Finset.Ico (m.recount i 0 free).startPage (m.recount i 0 free).totalPages ↔
      f ∈ Finset.Ico m.startPage m.totalPages := Iff.rfl
  rw [Finset.mem_insert, freeFrames, freeFrames, Finset.mem_filter, Finset.mem_filter, hcount, hin]
  by_cases e : f = i
  · simp [e, hi, ht]
  · simp [e]

theorem Surplus.setCount (h : Surplus d m) (h0 : m.memoryMap f ≠ 0) (hn : n ≠ 0) :
    Surplus d (m.setCount f n) :=
  ⟨by rw [freeFrames_setCount h0 hn]; exact h.free, h.small, h.enough⟩

/-- The counts are the same. -/
theorem Surplus.frames (h : Surplus d m) (frame : Nat → Nat → Word) : Surplus d { m with frame := frame } :=
  ⟨h.free, h.small, h.enough⟩

/-- **`get_page`**: a frame less, and one less in the counter. -/
theorem getPage_surplus (hs : Surplus d m) (h : getPage m = .ok (m', g)) : Surplus d m' := by
  obtain ⟨hless, -⟩ := getPage_free h
  obtain ⟨hg, hlow, hhigh, free, rfl⟩ := getPage_ok h
  have hmem : g ∈ freeFrames m := Finset.mem_filter.mpr ⟨Finset.mem_Ico.mpr ⟨hlow, hhigh⟩, hg⟩
  have hcard := Finset.card_pos.mpr ⟨g, hmem⟩
  have hle := freeFrames_le m
  have hfree := hs.free
  have hsmall := hs.small
  refine ⟨?_, hs.small, hs.enough⟩
  rw [freeFrames_recount, Finset.card_erase_of_mem hmem, hless, hfree]
  omega

/-- **`put_page`**: the counter goes up where a frame becomes free. -/
theorem putPage_surplus (hs : Surplus d m) (h : putPage m i = .ok m') : Surplus d m' := by
  unfold putPage at h
  obtain ⟨hin, h⟩ := of_assert h
  obtain ⟨hpos, h⟩ := of_assert h
  obtain ⟨-, h⟩ := of_assert h
  cases h
  simp only [Bool.and_eq_true, decide_eq_true_eq] at hin hpos
  by_cases e : m.memoryMap i - 1 = 0
  · have hnot : i ∉ freeFrames m := by
      intro hi
      have h0 := (Finset.mem_filter.mp hi).2
      omega
    refine ⟨?_, hs.small, hs.enough⟩
    rw [if_pos e, e]
    show m.freePages + 1 = (freeFrames (m.recount i 0 (m.freePages + 1))).card + d
    rw [freeFrames_last hin.1 hin.2, Finset.card_insert_of_notMem hnot, hs.free]
    omega
  · rw [if_neg e]
    exact hs.setCount (by omega) e

theorem copyPage_surplus {page : Nat} (hs : Surplus d m) (h : copyPage m page = .ok (m', g)) : Surplus d m' := by
  obtain ⟨⟨m₁, g₁⟩, h1, h⟩ := ok_of_bind h
  cases h
  exact (getPage_surplus hs h1).frames _

end Frames

/-! ## 2. The calls -/

section Calls

variable {d n v : Nat} {m m' : Mem} {S S' : Space} {q q' : Proc} {b b' : Bitmap}

theorem Surplus.setEntry (hs : Surplus d S.mem) (v : Nat) (e : Word) : Surplus d (S.setEntry v e).mem :=
  ⟨hs.free, hs.small, hs.enough⟩

theorem getPte_surplus {create : Bool} (hs : Surplus d S.mem) (h : getPte S v create = .ok S') :
    Surplus d S'.mem := by
  unfold getPte at h
  obtain ⟨-, h⟩ := of_assert h
  split at h
  · cases h
    exact hs
  · obtain ⟨⟨m₁, g⟩, h1, h⟩ := ok_of_bind h
    cases h
    exact (getPage_surplus hs h1).frames _

theorem linkPage_surplus (hs : Surplus d S.mem) (h : linkPage S v = .ok S') : Surplus d S'.mem := by
  unfold linkPage at h
  obtain ⟨-, h⟩ := of_assert h
  obtain ⟨S₁, h1, h⟩ := ok_of_bind h
  have hs₁ := getPte_surplus hs h1
  split at h
  · cases h
    exact hs₁
  · obtain ⟨⟨m₁, g⟩, h2, h⟩ := ok_of_bind h
    cases h
    exact (getPage_surplus hs₁ h2).frames _

theorem unlinkPage_surplus (hs : Surplus d S.mem) (h : unlinkPage S v = .ok S') : Surplus d S'.mem := by
  unfold unlinkPage at h
  obtain ⟨-, h⟩ := of_assert h
  split at h
  · cases h
    exact hs
  · obtain ⟨m₁, h1, h⟩ := ok_of_bind h
    cases h
    exact putPage_surplus (hs.frames _) h1

theorem unlinkPages_surplus (hs : Surplus d S.mem) (h : unlinkPages n v S = .ok S') : Surplus d S'.mem := by
  induction n generalizing v S with
  | zero =>
    cases h
    exact hs
  | succ n ih =>
    obtain ⟨S₁, h1, h⟩ := ok_of_bind h
    exact ih (unlinkPage_surplus hs h1) h

theorem mmapPages_surplus {fl : MapFlags} (hs : Surplus d S.mem) (h : mmapPages fl n v S b = .ok (S', b')) :
    Surplus d S'.mem := by
  induction n generalizing v S b with
  | zero =>
    cases h
    exact hs
  | succ n ih =>
    obtain ⟨S₁, h1, h⟩ := ok_of_bind h
    obtain ⟨b₁, -, h⟩ := ok_of_bind h
    obtain ⟨S₂, h2, h⟩ := ok_of_bind h
    exact ih ((getPte_surplus (linkPage_surplus hs h1) h2).setEntry _ _) h

theorem munmapPages_surplus (hs : Surplus d S.mem) (h : munmapPages n v S b = .ok (S', b')) :
    Surplus d S'.mem := by
  induction n generalizing v S b with
  | zero =>
    cases h
    exact hs
  | succ n ih =>
    obtain ⟨S₁, h1, h⟩ := ok_of_bind h
    obtain ⟨_, -, h⟩ := ok_of_bind h
    obtain ⟨-, h⟩ := of_assert h
    obtain ⟨b₁, -, h⟩ := ok_of_bind h
    exact ih (unlinkPage_surplus hs h1) h

theorem linkSegment_surplus (hs : Surplus d S.mem) (h : linkSegment n v S = .ok S') : Surplus d S'.mem := by
  induction n generalizing v S with
  | zero =>
    cases h
    exact hs
  | succ n ih =>
    obtain ⟨-, h⟩ := of_assert h
    obtain ⟨S₁, h1, h⟩ := ok_of_bind h
    exact ih (linkPage_surplus hs h1) h

theorem protectSegment_surplus (hs : Surplus d S.mem) (h : protectSegment n v S = .ok S') :
    Surplus d S'.mem := by
  induction n generalizing v S with
  | zero =>
    cases h
    exact hs
  | succ n ih =>
    obtain ⟨S₁, h1, h⟩ := ok_of_bind h
    exact ih ((getPte_surplus hs h1).setEntry _ _) h

/-- An entry of `copy_pde`: one more reference to a frame that has some. -/
theorem copyEntries_surplus {T t : Nat} (hs : Surplus d m) (h : copyEntries T n t m = .ok m') :
    Surplus d m' := by
  induction n generalizing t m with
  | zero =>
    cases h
    exact hs
  | succ n ih =>
    rw [copyEntries] at h
    split at h
    · exact ih hs h
    · obtain ⟨hpos, h⟩ := of_assert h
      obtain ⟨-, h⟩ := of_assert h
      rw [decide_eq_true_eq] at hpos
      have hpos' : (m.setWord T t (shareEntry (m.frame T t))).memoryMap (m.frame T t).index ≠ 0 :=
        Nat.ne_of_gt hpos
      exact ih ((hs.frames _).setCount hpos' (Nat.succ_ne_zero _)) h

theorem copyTables_surplus {t : Nat} {pde pde' : Nat → Word} (hs : Surplus d m)
    (h : copyTables n t m pde = .ok (m', pde')) : Surplus d m' := by
  induction n generalizing t m pde with
  | zero =>
    cases h
    exact hs
  | succ n ih =>
    rw [copyTables] at h
    split at h
    · exact ih hs h
    · obtain ⟨m₁, h1, h⟩ := ok_of_bind h
      obtain ⟨⟨m₂, g⟩, h2, h⟩ := ok_of_bind h
      exact ih (copyPage_surplus (copyEntries_surplus hs h1) h2) h

theorem freeEntries_surplus {T t : Nat} (hs : Surplus d m) (h : freeEntries T n t m = .ok m') :
    Surplus d m' := by
  induction n generalizing t m with
  | zero =>
    cases h
    exact hs
  | succ n ih =>
    rw [freeEntries] at h
    split at h
    · exact ih hs h
    · obtain ⟨-, h⟩ := of_assert h
      obtain ⟨m₁, h1, h⟩ := ok_of_bind h
      exact ih (putPage_surplus hs h1) h

theorem freeTables_surplus {t : Nat} {pde : Nat → Word} (hs : Surplus d m)
    (h : freeTables pde n t m = .ok m') : Surplus d m' := by
  induction n generalizing t m with
  | zero =>
    cases h
    exact hs
  | succ n ih =>
    rw [freeTables] at h
    split at h
    · exact ih hs h
    · obtain ⟨m₁, h1, h⟩ := ok_of_bind h
      obtain ⟨m₂, h2, h⟩ := ok_of_bind h
      exact ih (putPage_surplus (freeEntries_surplus hs h1) h2) h

theorem sysMmap_surplus {addr length r : Nat} {fl : MapFlags} (hs : Surplus d m)
    (h : sysMmap m q addr length fl = .ok (m', q', r)) : Surplus d m' := by
  unfold sysMmap at h
  obtain ⟨-, h⟩ := of_assert h
  obtain ⟨⟨a, b⟩, -, h⟩ := ok_of_bind h
  obtain ⟨-, h⟩ := of_assert h
  obtain ⟨⟨S, b'⟩, h1, h⟩ := ok_of_bind h
  cases h
  exact mmapPages_surplus (S := ⟨m, q.pde⟩) hs h1

theorem sysMunmap_surplus {addr length : Nat} {r : Int} (hs : Surplus d m)
    (h : sysMunmap m q addr length = .ok (m', q', r)) : Surplus d m' := by
  unfold sysMunmap at h
  obtain ⟨-, h⟩ := of_assert h
  obtain ⟨-, h⟩ := of_assert h
  obtain ⟨⟨S, b'⟩, h1, h⟩ := ok_of_bind h
  cases h
  exact munmapPages_surplus (S := ⟨m, q.pde⟩) hs h1

theorem sysBrk_surplus {brk : Nat} {r : Int} (hs : Surplus d m) (h : sysBrk m q brk = .ok (m', q', r)) :
    Surplus d m' := by
  unfold sysBrk at h
  obtain ⟨-, h⟩ := of_assert h
  obtain ⟨-, h⟩ := of_assert h
  split at h
  · obtain ⟨S, h1, h⟩ := ok_of_bind h
    cases h
    exact unlinkPages_surplus (S := ⟨m, q.pde⟩) hs h1
  · split at h
    · cases h
      exact hs
    · cases h
      exact hs

theorem execve_surplus (hs : Surplus d m) (h : execve m q = .ok (m', q')) : Surplus d m' := by
  obtain ⟨⟨m₁, q₁, r⟩, h1, h⟩ := ok_of_bind h
  obtain ⟨S, h2, h⟩ := ok_of_bind h
  cases h
  exact linkPage_surplus (S := ⟨m₁, q₁.pde⟩) (sysBrk_surplus hs h1) h2

/-- **`page_fault`**: the count of a page that is copied stays above zero. -/
theorem pageFault_surplus {present write : Bool} (hs : Surplus d m)
    (h : pageFault m q v present write = .ok (some (m', q'))) : Surplus d m' := by
  unfold pageFault at h
  split at h
  · cases h
  · split at h
    · obtain ⟨-, h⟩ := of_assert h
      obtain ⟨S, h1, h⟩ := ok_of_bind h
      obtain ⟨rfl, -⟩ := getPte_false h1
      obtain ⟨-, h⟩ := of_assert h
      obtain ⟨-, h⟩ := of_assert h
      obtain ⟨-, h⟩ := of_assert h
      obtain ⟨hpos, h⟩ := of_assert h
      rw [decide_eq_true_eq] at hpos
      split at h
      · cases h
        exact hs.setEntry (S := ⟨m, q.pde⟩) _ _
      · next hone =>
          have hone : m.memoryMap (Space.entry ⟨m, q.pde⟩ v).index ≠ 1 := hone
          have hpos : 0 < m.memoryMap (Space.entry ⟨m, q.pde⟩ v).index := hpos
          obtain ⟨⟨m₁, g⟩, h2, h⟩ := ok_of_bind h
          cases h
          have hs₁ := copyPage_surplus hs h2
          obtain ⟨hg, free, rfl⟩ := copyPage_ok h2
          have hne : (Space.entry ⟨m, q.pde⟩ v).index ≠ g := by
            rintro rfl
            exact Nat.ne_of_gt hpos hg
          have hcount : ((m.recount g 1 free).fill g (m.frame (Space.entry ⟨m, q.pde⟩ v).index)).memoryMap
              (Space.entry ⟨m, q.pde⟩ v).index = m.memoryMap (Space.entry ⟨m, q.pde⟩ v).index :=
            Function.update_of_ne hne _ _
          refine (hs₁.setCount ?_ ?_).frames _
          · rw [hcount]
            exact Nat.ne_of_gt hpos
          · rw [hcount]
            omega
    · split at h
      · obtain ⟨S, h1, h⟩ := ok_of_bind h
        cases h
        exact linkPage_surplus (S := ⟨m, q.pde⟩) hs h1
      · cases h

theorem load_surplus (hs : Surplus d m) (h : load m q v = .ok (some (m', q'))) : Surplus d m' := by
  unfold load at h
  split at h
  · cases h
    exact hs
  · exact pageFault_surplus hs h

/-- A store to a table changes no count. -/
theorem tableStore_surplus {w : Word} (hs : Surplus d m) (h : tableStore m q v w = some (m', q')) : Surplus d m' := by
  unfold tableStore at h
  dsimp only at h
  split at h
  · cases h
    exact hs
  · split at h
    · cases h
      exact hs.frames _
    · cases h

theorem userStore_surplus {w : Word} (hs : Surplus d m) (h : userStore m q v w = .ok (some (m', q'))) :
    Surplus d m' := by
  unfold userStore at h
  dsimp only at h
  split at h
  · split at h
    · cases h
    · exact tableStore_surplus hs (Except.ok.inj h)
  · split at h
    · exact pageFault_surplus hs h
    · split at h
      · split at h
        · cases h
          exact hs.frames _
        · exact pageFault_surplus hs h
      · exact pageFault_surplus hs h

/-- A store to the user's memory. -/
theorem kernelStore_surplus {w : Word} (hs : Surplus d m) (hv : UserAddr v)
    (h : kernelStore m q v w = .ok (some (m', q'))) : Surplus d m' := by
  rw [kernelStore_user hv] at h
  split at h
  · cases h
    exact hs.frames _
  · exact pageFault_surplus hs h

theorem taskExit_surplus {s s' : State} {p : Nat} (hs : Surplus d s.mem) (h : taskExit s p q = .ok s') :
    Surplus d s'.mem := by
  obtain ⟨m₁, h1, h⟩ := ok_of_bind h
  cases h
  exact freeTables_surplus hs h1

theorem accessed_surplus {s s' : State} {p : Nat} {o : Option (Mem × Proc)} (hs : Surplus d s.mem)
    (ho : ∀ m' q', o = some (m', q') → Surplus d m') (h : accessed s p q o = .ok s') : Surplus d s'.mem := by
  cases o with
  | none => exact taskExit_surplus hs h
  | some r =>
    cases h
    exact ho r.1 r.2 rfl

/-- **Every action keeps the difference.** -/
theorem act_surplus {s s' : State} {a : Action} (hk : Held s) (hs : Surplus d s.mem) (ha : Enabled s a = true)
    (hok : Proper a = true) (h : act s a = .ok s') : Surplus d s'.mem := by
  rcases act_run h with ⟨c, rfl, rfl⟩ | ⟨q, hp, h⟩
  · exact hs
  have hq := hk.sane a.actor q hp
  cases a with
  | start c => cases h
  | fork p c =>
    obtain ⟨⟨m, pde⟩, h1, h⟩ := ok_of_bind h
    cases h
    exact copyTables_surplus hs h1
  | load p v =>
    obtain ⟨o, ho, h⟩ := ok_of_bind h
    exact accessed_surplus hs (fun m' q' e => load_surplus hs (e ▸ ho)) h
  | userStore p v w =>
    obtain ⟨o, ho, h⟩ := ok_of_bind h
    exact accessed_surplus hs (fun m' q' e => userStore_surplus hs (e ▸ ho)) h
  | kernelStore p v w =>
    obtain ⟨o, ho, h⟩ := ok_of_bind h
    exact accessed_surplus hs (fun m' q' e => kernelStore_surplus hs (userAddr_of_proper hok) (e ▸ ho)) h
  | mmap p addr length fl =>
    obtain ⟨⟨m, q', r⟩, h1, h⟩ := ok_of_bind h
    cases h
    exact sysMmap_surplus hs h1
  | munmap p addr length =>
    obtain ⟨⟨m, q', r⟩, h1, h⟩ := ok_of_bind h
    cases h
    exact sysMunmap_surplus hs h1
  | brk p addr =>
    obtain ⟨⟨m, q', r⟩, h1, h⟩ := ok_of_bind h
    cases h
    exact sysBrk_surplus hs h1
  | execve p =>
    obtain ⟨⟨m, q'⟩, h1, h⟩ := ok_of_bind h
    cases h
    exact execve_surplus hs h1
  | loadSegment p ptr ph =>
    obtain ⟨⟨m, q'⟩, h1, h⟩ := ok_of_bind h
    cases h
    unfold loadSegment at h1
    obtain ⟨-, h1⟩ := of_assert h1
    obtain ⟨-, h1⟩ := of_assert h1
    obtain ⟨S, h2, h1⟩ := ok_of_bind h1
    cases h1
    exact linkSegment_surplus (S := ⟨s.mem, q.pde⟩) hs h2
  | segmentWord p i w =>
    obtain ⟨sg, o, hsg, hfills, ho, h⟩ := segmentWord_of hp ha h
    exact accessed_surplus hs (fun m' q' e => kernelStore_surplus hs (segment_addr hq hsg hfills) (e ▸ ho)) h
  | readAgain p ph =>
    obtain ⟨sg, -, rfl⟩ := readAgain_of h
    exact hs
  | segmentZero p v w =>
    obtain ⟨o, ho, h⟩ := ok_of_bind h
    exact accessed_surplus hs (fun m' q' e => kernelStore_surplus hs (userAddr_of_proper hok) (e ▸ ho)) h
  | endSegment p ph =>
    obtain ⟨sg, m, q', hsg, h1, rfl⟩ := endSegment_of h
    obtain ⟨S, h2, h1⟩ := ok_of_bind h1
    cases h1
    exact protectSegment_surplus (S := ⟨s.mem, q.pde⟩) hs h2
  | exit p => exact taskExit_surplus hs h

end Calls

/-! ## 3. Runs -/

/-- The kernel's frames from `start_page` on: `mapping_init` marks them and leaves `free_pages`. -/
def surplus (pages : Nat) : Nat :=
  KERNEL_MEMORY_SIZE / PAGE_SIZE - (MEMORY_BASE / PAGE_SIZE + divRoundUp pages PAGE_SIZE)

section Runs

variable {pages : Nat} {s : State}

theorem surplus_pos (h : pages ≤ 2 ^ 20) : 3584 ≤ surplus pages ∧ surplus pages ≤ 4096 := by
  unfold surplus divRoundUp KERNEL_MEMORY_SIZE MEMORY_BASE PAGE_SIZE
  omega

/-- The end of `mapping_init`. -/
theorem boot_surplus (h : Boot pages s) : Surplus (surplus pages) s.mem := by
  have hlow := h.enough
  have hhigh := h.small
  have hpos := surplus_pos hhigh
  have hstart : MEMORY_BASE / PAGE_SIZE + divRoundUp pages PAGE_SIZE ≤ KERNEL_MEMORY_SIZE / PAGE_SIZE := by
    unfold surplus at hpos
    omega
  have hset : freeFrames s.mem = Finset.Ico (KERNEL_MEMORY_SIZE / PAGE_SIZE) pages := by
    ext f
    rw [freeFrames, Finset.mem_filter, Finset.mem_Ico, Finset.mem_Ico, h.startPage, h.totalPages, h.memoryMap]
    split <;> omega
  refine ⟨?_, ?_, ?_⟩
  · have hkernel : KERNEL_MEMORY_SIZE / PAGE_SIZE = 4096 := by decide
    have hbase : MEMORY_BASE / PAGE_SIZE = 256 := by decide
    rw [h.freePages, hset, Nat.card_Ico, surplus, hkernel, hbase]
    rw [hkernel, hbase] at hlow hstart
    omega
  · rw [h.totalPages]
    omega
  · rw [h.totalPages]
    exact Nat.le_trans (Nat.le_add_right _ _) hlow

theorem kept_small (h : Kept pages s) : pages ≤ 2 ^ 20 := by
  induction h with
  | boot h => exact h.small
  | step _ _ _ _ _ ih => exact ih

theorem kept_surplus (h : Kept pages s) : Surplus (surplus pages) s.mem := by
  induction h with
  | boot h => exact boot_surplus h
  | step h a ha hok hs ih => exact act_surplus (kept_held h) ih ha hok hs

/-- The heap may end at `brk`, and does not shrink. -/
structure Grows (q : Proc) (brk : Nat) : Prop where
  aligned : brk % PAGE_SIZE = 0
  low : q.end_ ≤ brk
  high : brk ≤ USER_MMAP_ADDR
  up : q.brk ≤ brk

/-- **The test of `sys_brk`.** -/
theorem sysBrk_refuses {m : Mem} {q : Proc} {brk : Nat} (hg : Grows q brk) :
    sysBrk m q brk = .ok (m, q, -1) ↔ m.freePages < IDX (brk - q.brk) := by
  have hup : ¬brk < q.brk := not_lt.mpr hg.up
  have hstart : sysBrk m q brk =
      if m.freePages < IDX (brk - q.brk) then .ok (m, q, -1) else .ok (m, { q with brk }, 0) := by
    simp only [sysBrk, hg.aligned, hg.low, hg.high, hup, decide_true, Bool.and_self, Kernel.assert_true]
    rfl
  rw [hstart]
  split
  · next h => simp [h]
  · next h => simp [h]

/-- **`free_pages` is larger than the number of free frames**, in every state reached, by the kernel's
    frames from `start_page` on. `sys_brk` refuses exactly the growths for which too few frames are
    left, but for those that the surplus seems to cover. -/
theorem freePages_over (h : Kept pages s) :
    s.mem.freePages = (freeFrames s.mem).card + surplus pages ∧
    s.mem.freePages ≠ (freeFrames s.mem).card ∧
    ∀ q brk, Grows q brk →
      ((sysBrk s.mem q brk = .ok (s.mem, q, -1) ↔ (freeFrames s.mem).card < IDX (brk - q.brk)) ↔
        ¬((freeFrames s.mem).card < IDX (brk - q.brk) ∧
          IDX (brk - q.brk) ≤ (freeFrames s.mem).card + surplus pages)) := by
  have hfree := (kept_surplus h).free
  have hpos := (surplus_pos (kept_small h)).1
  refine ⟨hfree, by omega, fun q brk hg => ?_⟩
  rw [sysBrk_refuses hg, hfree]
  omega

/-- After the first process has started. -/
theorem freePages_over_start : ∃ s, Kept 4400 s ∧ s.mem.freePages ≠ (freeFrames s.mem).card :=
  have hboot : Boot 4400 (bootState 4400) := boot_bootState (by decide) (by decide)
  have h : Kept 4400 (bootState 4400) := .boot hboot
  ⟨_, h, (freePages_over h).2.1⟩

/-- **A heap of 1000 pages where 304 frames are free**: `free_pages` is 4142, and nothing is refused. -/
theorem brk_unbacked : ∃ s, Kept 4400 s ∧ (freeFrames s.mem).card = 304 ∧ s.mem.freePages = 4142 ∧
    Grows taskToUserMode (USER_EXEC_ADDR + 1000 * PAGE_SIZE) ∧
    sysBrk s.mem taskToUserMode (USER_EXEC_ADDR + 1000 * PAGE_SIZE) ≠ .ok (s.mem, taskToUserMode, -1) := by
  have hboot : Boot 4400 (bootState 4400) := boot_bootState (by decide) (by decide)
  have hg : Grows taskToUserMode (USER_EXEC_ADDR + 1000 * PAGE_SIZE) :=
    ⟨by decide, by decide, by decide, by decide⟩
  have hfree := (boot_surplus hboot).free
  have hcount : (bootState 4400).mem.freePages = 4142 := by decide
  have hsur : surplus 4400 = 3838 := by decide
  refine ⟨_, .boot hboot, by omega, hcount, hg, fun h => ?_⟩
  have hlt := (sysBrk_refuses hg).mp h
  have hpages : IDX (USER_EXEC_ADDR + 1000 * PAGE_SIZE - taskToUserMode.brk) = 1000 := by decide
  omega

end Runs

end Yuios.Paging
