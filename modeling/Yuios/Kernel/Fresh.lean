/-
  File:      Yuios/Kernel/Fresh.lean
  Subject:   WHAT A NEW PAGE HOLDS: heap and stack growth, `sys_mmap` without a file, and the rest of
             the last page of a segment.

  * `linkFrame` -- the frame that `link_page` takes: the first free one, or the one after it if there
    is no table yet. The choice reads `memory_map` and nothing that is stored.
  * **`linkPage_fresh`** -- the page reads as what this frame held before, in every two states in which
    the same frames are free. Only page tables are cleared.
  * `fresh_leaks` -- a process reads what another one has stored, after the other one's exit.
-/
import Yuios.Kernel.Cow

namespace Yuios.Paging

open Lib Relation
open Kernel (of_assert)

/-- The first free frame. -/
def leastFree (m : Mem) : Option Nat := firstFree m.memoryMap (m.totalPages - m.startPage) m.startPage

/-- The frame that `link_page` takes for the page. -/
def linkFrame (S : Space) (v : Nat) : Option Nat :=
  if (S.pde (DIDX v)).present then leastFree S.mem
  else (leastFree S.mem).bind fun g => leastFree (S.mem.setCount g 1)

/-- The same frames are free. -/
structure SameFrames (m m' : Mem) : Prop where
  totalPages : m.totalPages = m'.totalPages
  startPage : m.startPage = m'.startPage
  free : ∀ f < m.totalPages, m.memoryMap f = 0 ↔ m'.memoryMap f = 0

section Fresh

variable {pages : Nat} {s t : State} {m m' : Mem} {A : Finset Nat} {S S' : Space} {p p' v v' g : Nat}
  {q q' : Proc}

theorem firstFree_congr {map map' : Nat → Nat} {n i : Nat}
    (h : ∀ j, i ≤ j → j < i + n → (map j = 0 ↔ map' j = 0)) : firstFree map n i = firstFree map' n i := by
  induction n generalizing i with
  | zero => rfl
  | succ n ih =>
    rw [firstFree, firstFree, ih fun j hj hj' => h j (by omega) (by omega)]
    exact if_congr (h i (Nat.le_refl i) (by omega)) rfl rfl

theorem SameFrames.leastFree (h : SameFrames m m') : leastFree m = leastFree m' := by
  unfold Paging.leastFree
  rw [← h.totalPages, ← h.startPage]
  exact firstFree_congr fun j hj hj' => h.free j (by omega)

theorem SameFrames.setCount (h : SameFrames m m') (g n : Nat) :
    SameFrames (m.setCount g n) (m'.setCount g n) := by
  refine ⟨h.totalPages, h.startPage, fun f hf => ?_⟩
  show Function.update m.memoryMap g n f = 0 ↔ Function.update m'.memoryMap g n f = 0
  by_cases e : f = g
  · rw [e, Function.update_self, Function.update_self]
  · rw [Function.update_of_ne e, Function.update_of_ne e]
    exact h.free f hf

/-- The choice depends on the counts alone. -/
theorem SameFrames.linkFrame (h : SameFrames S.mem S'.mem)
    (hd : (S.pde (DIDX v)).present = (S'.pde (DIDX v)).present) : linkFrame S v = linkFrame S' v := by
  unfold Paging.linkFrame
  rw [hd, h.leastFree]
  exact if_congr Iff.rfl rfl (congrArg _ (funext fun g => (h.setCount g 1).leastFree))

theorem getPage_least (h : getPage m = .ok (m', g)) : leastFree m = some g := by
  unfold getPage at h
  split at h
  · cases h
  · next i hi =>
      obtain ⟨-, h⟩ := of_assert h
      cases h
      exact hi

/-- **The frame of a new page is the one chosen, and is as it was.** -/
theorem linkPage_frame (hf : Fits A S) (hv : UserAddr v) (hun : S.mapped v = false)
    (h : linkPage S v = .ok S') : ∃ f, linkFrame S v = some f ∧ S.mem.memoryMap f = 0 ∧
      S'.mapped v = true ∧ (S'.entry v).index = f ∧ S'.mem.frame f = S.mem.frame f := by
  have hmap' := (linkPage_moves (P := fun _ _ => True) hv h).2
  unfold linkPage at h
  obtain ⟨-, h⟩ := of_assert h
  obtain ⟨S₁, h1, h⟩ := ok_of_bind h
  unfold getPte at h1
  obtain ⟨-, h1⟩ := of_assert h1
  by_cases hd : (S.pde (DIDX v)).present = true
  · rw [if_pos hd] at h1
    cases h1
    have he : (S.entry v).present = false := by rwa [Space.mapped, hd, Bool.true_and] at hun
    rw [if_neg (by simp [he])] at h
    obtain ⟨⟨m, g⟩, hget, h⟩ := ok_of_bind h
    cases h
    obtain ⟨hg, -, -, free, rfl⟩ := getPage_ok hget
    refine ⟨g, by rw [Paging.linkFrame, if_pos hd, getPage_least hget], hg, hmap', ?_, ?_⟩
    · rw [entry_setEntry]
      rfl
    · have hT := table_mem (A := A) (S := S) hv hd
      have hne : g ≠ (S.pde (DIDX v)).index := fun e => (hf.counted.free hg).1 (e ▸ hT)
      exact Function.update_of_ne hne _ _
  · rw [if_neg hd] at h1
    obtain ⟨⟨m₁, g₁⟩, hget₁, h1⟩ := ok_of_bind h1
    obtain ⟨hg₁, -, -, free₁, rfl⟩ := getPage_ok hget₁
    cases h1
    have he : (Space.entry (S.newTable (DIDX v) g₁ free₁) v).present = false := by
      simp [Space.entry, Space.newTable, fill_self, entryInit, Word.zero]
    replace h : (if (Space.entry (S.newTable (DIDX v) g₁ free₁) v).present = true then _ else _) = _ := h
    rw [if_neg (by simp [he])] at h
    obtain ⟨⟨m, g⟩, hget, h⟩ := ok_of_bind h
    cases h
    obtain ⟨hg, -, -, free, rfl⟩ := getPage_ok hget
    have hne : g ≠ g₁ := by
      rintro rfl
      have : Function.update S.mem.memoryMap g 1 g = 0 := hg
      rw [Function.update_self] at this
      cases this
    refine ⟨g, ?_, (Function.update_of_ne hne _ _).symm.trans hg, hmap', ?_, ?_⟩
    · rw [Paging.linkFrame, if_neg hd, getPage_least hget₁]
      have hsame : SameFrames (S.newTable (DIDX v) g₁ free₁).mem (S.mem.setCount g₁ 1) :=
        ⟨rfl, rfl, fun _ _ => Iff.rfl⟩
      exact hsame.leastFree.symm.trans (getPage_least hget)
    · rw [entry_setEntry]
      rfl
    · have hT : (Function.update S.pde (DIDX v) (entryInit g₁) (DIDX v)).index = g₁ := by
        rw [Function.update_self]
        rfl
      exact (Function.update_of_ne (by rwa [← hT] at hne) _ _).trans (newTable_ne (d := DIDX v) hne)

/-- The words of a page that is there. -/
theorem read_frame {f : Nat} (hmap : S.mapped v = true) (hi : (S.entry v).index = f)
    (he : IDX v' = IDX v) : S.read v' = some (S.mem.frame f (WIDX v')) := by
  have hd : DIDX v' = DIDX v := by
    unfold DIDX
    unfold IDX PAGE_SIZE at he
    omega
  have ht : TIDX v' = TIDX v := by
    unfold TIDX
    unfold IDX PAGE_SIZE at he
    omega
  have hentry : S.entry v' = S.entry v := by rw [Space.entry, Space.entry, hd, ht]
  have hmap' : S.mapped v' = true := by rwa [Space.mapped, hd, hentry]
  rw [Space.read, if_pos hmap', hentry, hi]

/-- **A new page reads as what its frame held.** In any two states in which the same frames are free,
    the pages that `link_page` maps get the same frame, which no live address space refers to; so they
    read the same exactly where the frame held the same. -/
theorem linkPage_fresh (hs : Kept pages s) (ht : Kept pages t) (hst : SameFrames s.mem t.mem)
    (hp : s.procs p = some q) (hp' : t.procs p' = some q') (hv : UserAddr v)
    (hd : (q.pde (DIDX v)).present = (q'.pde (DIDX v)).present)
    (hun : Space.mapped ⟨s.mem, q.pde⟩ v = false) (hun' : Space.mapped ⟨t.mem, q'.pde⟩ v = false)
    (hl : linkPage ⟨s.mem, q.pde⟩ v = .ok S) (hl' : linkPage ⟨t.mem, q'.pde⟩ v = .ok S') :
    ∃ f, linkFrame ⟨s.mem, q.pde⟩ v = some f ∧ references s f = 0 ∧ references t f = 0 ∧
      ∀ v', IDX v' = IDX v → S.read v' = some (s.mem.frame f (WIDX v')) ∧
        S'.read v' = some (t.mem.frame f (WIDX v')) := by
  have hheld := kept_held hs
  have hheld' := kept_held ht
  obtain ⟨f, hf, hfree, hmap, hi, hframe⟩ := linkPage_frame (hheld.fits hp) hv hun hl
  obtain ⟨f', hf', hfree', hmap', hi', hframe'⟩ := linkPage_frame (hheld'.fits hp') hv hun' hl'
  have hsame : linkFrame ⟨s.mem, q.pde⟩ v = linkFrame ⟨t.mem, q'.pde⟩ v :=
    SameFrames.linkFrame hst hd
  have heq : f = f' := Option.some.inj ((hf.symm.trans hsame).trans hf')
  subst heq
  have hzero : ∀ {u : State}, Held u → u.mem.memoryMap f = 0 → references u f = 0 := by
    intro u hu h0
    rw [hu.counted.total f] at h0
    rw [references_eq hu]
    omega
  refine ⟨f, hf, hzero hheld hfree, hzero hheld' hfree', fun v' he => ⟨?_, ?_⟩⟩
  · rw [read_frame hmap hi he, hframe]
  · rw [read_frame hmap' hi' he, hframe']

end Fresh

/-! ## Two processes, one after the other -/

/-- Process 1 stores a word in a page of its own and exits; process 2 starts. -/
def leaving (w : Word) : List Action :=
  [.start 1, .mmap 1 USER_MMAP_ADDR 4096 ⟨true, false, false⟩, .userStore 1 USER_MMAP_ADDR w, .exit 1, .start 2]

/-- What the state is asked for: is there a table for the page in process 2, can the page be linked. -/
def askPage (s : State) : Option (Bool × Bool) :=
  (s.procs 2).map fun q => ((q.pde (DIDX USER_MMAP_ADDR)).present, (linkPage ⟨s.mem, q.pde⟩ USER_MMAP_ADDR).isOk)

theorem askPage_ok {s : State} (h : askPage s = some (false, true)) : ∃ q S, s.procs 2 = some q ∧
    (q.pde (DIDX USER_MMAP_ADDR)).present = false ∧ Space.mapped ⟨s.mem, q.pde⟩ USER_MMAP_ADDR = false ∧
    linkPage ⟨s.mem, q.pde⟩ USER_MMAP_ADDR = .ok S := by
  obtain ⟨q, hp, e⟩ := Option.map_eq_some_iff.mp h
  obtain ⟨hd, hok⟩ := Prod.mk.inj e
  cases hl : linkPage ⟨s.mem, q.pde⟩ USER_MMAP_ADDR with
  | error e =>
    rw [hl] at hok
    cases hok
  | ok S => exact ⟨q, S, hp, hd, by rw [Space.mapped, hd, Bool.false_and], hl⟩

/-- The same frames behind the kernel's are free. -/
def sameBehind (n : Nat) (s t : State) : Bool :=
  (List.range n).all fun i => decide (s.mem.memoryMap (KERNEL_MEMORY_SIZE / PAGE_SIZE + i) = 0) ==
    decide (t.mem.memoryMap (KERNEL_MEMORY_SIZE / PAGE_SIZE + i) = 0)

/-- The kernel's frames are not free. -/
theorem Held.kernel_counted {s : State} {f : Nat} (h : Held s) (hf : f < KERNEL_MEMORY_SIZE / PAGE_SIZE) :
    s.mem.memoryMap f ≠ 0 := by
  have := h.counted.total f
  rw [kernelFrames, if_pos hf] at this
  omega

theorem sameBehind_frames {s t : State} {n : Nat} (hs : Held s) (ht : Held t)
    (hn : s.mem.totalPages ≤ KERNEL_MEMORY_SIZE / PAGE_SIZE + n) (h : sameBehind n s t = true) (f : Nat)
    (hf : f < s.mem.totalPages) : s.mem.memoryMap f = 0 ↔ t.mem.memoryMap f = 0 := by
  by_cases hk : f < KERNEL_MEMORY_SIZE / PAGE_SIZE
  · exact iff_of_false (hs.kernel_counted hk) (ht.kernel_counted hk)
  · have := List.all_eq_true.mp h (f - KERNEL_MEMORY_SIZE / PAGE_SIZE) (List.mem_range.mpr (by omega))
    rw [Nat.add_sub_cancel' (not_lt.mp hk)] at this
    exact decide_eq_decide.mp (beq_iff_eq.mp this)

/-- **Two runs that differ in a word of process 1** give process 2 a page in the same frame. -/
theorem linkPage_fresh_pair : ∃ s t q q' S S' f,
    actAll (fun _ a => Proper a) (bootState 4400) (leaving .zero) = some s ∧
    actAll (fun _ a => Proper a) (bootState 4400) (leaving (entryInit 7)) = some t ∧
    linkPage ⟨s.mem, q⟩ USER_MMAP_ADDR = .ok S ∧ linkPage ⟨t.mem, q'⟩ USER_MMAP_ADDR = .ok S' ∧
    references s f = 0 ∧ references t f = 0 ∧
    ∀ v', IDX v' = IDX USER_MMAP_ADDR → S.read v' = some (s.mem.frame f (WIDX v')) ∧
      S'.read v' = some (t.mem.frame f (WIDX v')) := by
  have h : ((actAll (fun _ a => Proper a) (bootState 4400) (leaving .zero)).bind fun s =>
      (actAll (fun _ a => Proper a) (bootState 4400) (leaving (entryInit 7))).map fun t =>
        (askPage s, askPage t, s.mem.totalPages, t.mem.totalPages, s.mem.startPage == t.mem.startPage,
          sameBehind 304 s t)) =
      some (some (false, true), some (false, true), 4400, 4400, true, true) := by decide +kernel
  obtain ⟨s, hs, h⟩ := Option.bind_eq_some_iff.mp h
  obtain ⟨t, ht, e⟩ := Option.map_eq_some_iff.mp h
  simp only [Prod.mk.injEq] at e
  obtain ⟨hask, hask', hn, hn', hstart, hsame⟩ := e
  have hboot : Boot 4400 (bootState 4400) := boot_bootState (by decide) (by decide)
  obtain ⟨q, S, hp, hd, hun, hl⟩ := askPage_ok hask
  obtain ⟨q', S', hp', hd', hun', hl'⟩ := askPage_ok hask'
  have hfree : SameFrames s.mem t.mem :=
    ⟨hn.trans hn'.symm, beq_iff_eq.mp hstart, sameBehind_frames (kept_held ((Run.boot hboot).all hs))
      (kept_held ((Run.boot hboot).all ht)) (by rw [hn]; decide) hsame⟩
  obtain ⟨f, -, h0, h0', hread⟩ := linkPage_fresh ((Run.boot hboot).all hs) ((Run.boot hboot).all ht) hfree hp hp'
    ⟨by decide, by decide⟩ (hd.trans hd'.symm) hun hun' hl hl'
  exact ⟨s, t, q.pde, q'.pde, S, S', f, hs, ht, hl, hl', h0, h0', hread⟩

/-- Process 2 maps a page and reads it. -/
def handing (w : Word) : List Action :=
  leaving w ++ [.mmap 2 USER_MMAP_ADDR 4096 ⟨true, false, false⟩, .load 2 USER_MMAP_ADDR]

/-- **Process 2 reads what process 1 stored.** -/
theorem fresh_leaks : ∃ s t, actAll (fun _ a => Proper a) (bootState 4400) (handing .zero) = some s ∧
    actAll (fun _ a => Proper a) (bootState 4400) (handing (entryInit 7)) = some t ∧
    s.read 2 USER_MMAP_ADDR ≠ t.read 2 USER_MMAP_ADDR := by
  have h1 : (actAll (fun _ a => Proper a) (bootState 4400) (handing .zero)).map (fun s =>
      s.read 2 USER_MMAP_ADDR) = some (some .zero) := by decide +kernel
  have h2 : (actAll (fun _ a => Proper a) (bootState 4400) (handing (entryInit 7))).map (fun s =>
      s.read 2 USER_MMAP_ADDR) = some (some (entryInit 7)) := by decide +kernel
  obtain ⟨s, hs, he⟩ := Option.map_eq_some_iff.mp h1
  obtain ⟨t, ht, he'⟩ := Option.map_eq_some_iff.mp h2
  refine ⟨s, t, hs, ht, ?_⟩
  rw [he, he']
  decide

end Yuios.Paging
