/-
  File:      Yuios/Kernel/ArenaInv.lean
  Subject:   THE INVARIANT OF THE KERNEL'S HEAP.

  * `State` -- the heap, the blocks in use, and the pages that others have.
  * `Inv` -- the headers, the free lists and the blocks in use fit the runs of pages that the heap has.
  * `Rests` -- the words the heap rests on: a write to any other leaves the invariant alone.
  * `Inv.release`, `Inv.adopt` -- a run of pages leaves the heap, and enters it; `Inv.use` -- a block goes
    into use; `Inv.relist` -- a list changes.
  * `Inv.largeArena`, `Inv.newArena`, `Inv.popBlock` -- the parts of `kmalloc`.
-/
import Yuios.Kernel.Arena

namespace Yuios.Paging.Arena

open Lib

/-! ## 1. States -/

/-- The heap, the blocks in use with the sizes that were asked for, and the runs of pages that others
    have. -/
structure State where
  heap : Heap
  live : List (Nat × Nat)
  others : List PageRun

/-- The word belongs to a block in use, or is not the heap's: not in its pages, and not in
    `descriptors`. -/
def Writable (L : Layout) (s : State) (a : Nat) : Prop :=
  a % 4 = 0 ∧ ((∃ b ∈ s.live, b.1 ≤ a ∧ a < b.1 + b.2) ∨
    ((∀ r ∈ s.heap.runs, a ∉ extent r) ∧
      ¬ (L.descriptors ≤ a ∧ a < L.descriptors + DESC_COUNT * DESC_SIZE)))

/-! ## 2. The invariant -/

/-- A block of an arena of descriptor `i`; `cls` says which runs are arenas of which descriptor. -/
def BlockOf (runs : List PageRun) (cls : Nat → Option Nat) (i b : Nat) : Prop :=
  ∃ p, (p, 1) ∈ runs ∧ cls p = some i ∧ b ∈ blocksFrom p i 0 (totalBlock i)

/-- A block in use is where its run has it, and is large enough. -/
def Placed (runs : List PageRun) (cls : Nat → Option Nat) (b : Nat × Nat) : Prop :=
  (∃ i < DESC_COUNT, BlockOf runs cls i b.1 ∧ b.2 ≤ blockSize i) ∨
    ∃ r ∈ runs, cls r.1 = none ∧ b.1 = r.1 + ARENA_SIZE ∧ b.2 + ARENA_SIZE ≤ r.2 * PAGE_SIZE

/-- How many blocks of the page are on the list. -/
def freeIn (F : List Nat) (p : Nat) : Nat := (F.filter fun b => getBlockArena b = p).length

/-- The header at the beginning of a run: of an arena, or of a large block. -/
def Header (L : Layout) (mem : Nat → Nat) (cls : Nat → Option Nat) (free : Nat → List Nat) (r : PageRun) :
    Prop :=
  mem (r.1 + MAGIC) = YUI_MAGIC ∧
    match cls r.1 with
    | some i => i < DESC_COUNT ∧ r.2 = 1 ∧ mem r.1 = L.desc i ∧ mem (r.1 + LARGE) = 0 ∧
        mem (r.1 + COUNT) = freeIn (free i) r.1
    | none => mem (r.1 + LARGE) = 1 ∧ mem (r.1 + COUNT) = r.2

/-- **What holds between calls.** -/
structure Inv (L : Layout) (n : Nat) (s : State) (cls : Nat → Option Nat) (free : Nat → List Nat) : Prop where
  marked : Marked n ⟨s.heap.map, s.heap.runs ++ s.others⟩
  described : Described L s.heap.mem
  lists : ∀ i < DESC_COUNT, OnList L i (free i) s.heap.mem
  header : ∀ r ∈ s.heap.runs, Header L s.heap.mem cls free r
  free_iff : ∀ i < DESC_COUNT, ∀ b, b ∈ free i ↔ BlockOf s.heap.runs cls i b ∧ b ∉ s.live.map Prod.fst
  placed : ∀ b ∈ s.live, Placed s.heap.runs cls b
  nodup : (s.live.map Prod.fst).Nodup

/-- Every run has a block in use. -/
def Used (s : State) : Prop := ∀ r ∈ s.heap.runs, ∃ b ∈ s.live, getBlockArena b.1 = r.1

/-- The words the heap rests on. -/
def Rests (L : Layout) (runs : List PageRun) (free : Nat → List Nat) (x : Nat) : Prop :=
  (L.descriptors ≤ x ∧ x < L.descriptors + DESC_COUNT * DESC_SIZE) ∨
    (∃ r ∈ runs, r.1 ≤ x ∧ x < r.1 + ARENA_SIZE) ∨
    ∃ i < DESC_COUNT, ∃ b ∈ free i, x = b ∨ x = b + NEXT

section Invariant

variable {L : Layout} {n i : Nat} {s : State} {cls : Nat → Option Nat} {free : Nat → List Nat}
  {r r' : PageRun} {b b' : Nat × Nat} {runs : List PageRun} {mem : Nat → Nat}

/-- A header rests on its four words, and counts the free blocks of its page. -/
theorem Header.congr {mem' : Nat → Nat} {cls' : Nat → Option Nat} {free' : Nat → List Nat}
    (h : Header L mem cls free r) (hw : ∀ k < ARENA_SIZE, mem' (r.1 + k) = mem (r.1 + k))
    (hc : cls' r.1 = cls r.1) (hf : ∀ i, cls r.1 = some i → freeIn (free' i) r.1 = freeIn (free i) r.1) :
    Header L mem' cls' free' r := by
  obtain ⟨hmagic, hrest⟩ := h
  have h0 : mem' r.1 = mem r.1 := hw 0 (by decide)
  refine ⟨(hw MAGIC (by decide)).trans hmagic, ?_⟩
  rw [hw LARGE (by decide), hw COUNT (by decide), h0, hc]
  cases hcls : cls r.1 with
  | none =>
    rw [hcls] at hrest
    exact hrest
  | some i =>
    rw [hcls] at hrest
    obtain ⟨hi, hone, hdesc, hlarge, hcount⟩ := hrest
    exact ⟨hi, hone, hdesc, hlarge, hcount.trans (hf i hcls).symm⟩

/-- The free blocks of a page are counted by what they are. -/
theorem freeIn_congr {F G : List Nat} {p : Nat} (hF : F.Nodup) (hG : G.Nodup)
    (h : ∀ c, getBlockArena c = p → (c ∈ F ↔ c ∈ G)) : freeIn F p = freeIn G p := by
  refine List.Perm.length_eq ((List.perm_ext_iff_of_nodup (hF.filter _) (hG.filter _)).mpr fun c => ?_)
  rw [List.mem_filter, List.mem_filter, decide_eq_true_eq]
  exact and_congr_left (h c)

theorem marked_perm {map : Bitmap} {l l' : List PageRun} (h : Marked n ⟨map, l⟩) (hp : l.Perm l') :
    Marked n ⟨map, l'⟩ := by
  refine ⟨h.length, h.offset, h.room, fun k => ?_, fun r hr => h.inside r (hp.mem_iff.mpr hr), ?_⟩
  · rw [h.bits]
    exact or_congr Iff.rfl (exists_congr fun r => and_congr hp.mem_iff Iff.rfl)
  · exact (hp.pairwise_iff Or.symm).mp h.apart

theorem Inv.page (h : Inv L n s cls free) (hr : r ∈ s.heap.runs) :
    r.1 % PAGE_SIZE = 0 ∧ 0 < r.2 ∧ MEMORY_BASE ≤ r.1 ∧ r.1 + r.2 * PAGE_SIZE ≤ KERNEL_MEMORY_SIZE := by
  obtain ⟨h1, h2, h3, h4⟩ := h.marked.inside r (List.mem_append_left _ hr)
  unfold IDX MEMORY_BASE KERNEL_MEMORY_SIZE PAGE_SIZE at *
  omega

theorem Inv.kernelPage (h : Inv L n s cls free) (hr : r ∈ s.heap.runs) : KernelPage r.1 := by
  obtain ⟨h1, h2, h3, h4⟩ := h.page hr
  refine ⟨h1, h3, ?_⟩
  unfold PAGE_SIZE at *
  omega

/-- Two runs keep apart. -/
theorem Inv.apart (h : Inv L n s cls free) (hr : r ∈ s.heap.runs) (hr' : r' ∈ s.heap.runs ++ s.others)
    (hne : r ≠ r') : r.1 + r.2 * PAGE_SIZE ≤ r'.1 ∨ r'.1 + r'.2 * PAGE_SIZE ≤ r.1 := by
  have hmr : r ∈ s.heap.runs ++ s.others := List.mem_append_left _ hr
  have hap := h.marked.apart_of hmr hr' hne
  have h1 := (h.marked.inside r hmr).1
  have h2 := (h.marked.inside r' hr').1
  unfold Apart IDX PAGE_SIZE at *
  omega

/-- A run is known by its page. -/
theorem Inv.run_inj (h : Inv L n s cls free) (hr : r ∈ s.heap.runs) (hr' : r' ∈ s.heap.runs ++ s.others)
    (e : r.1 = r'.1) : r = r' := by
  by_contra hne
  have hap := h.apart hr hr' hne
  have h1 := (h.marked.inside r (List.mem_append_left _ hr)).2.1
  have h2 := (h.marked.inside r' hr').2.1
  unfold PAGE_SIZE at hap
  omega

/-- The page of a block. -/
theorem Inv.blockOf (h : Inv L n s cls free) {a : Nat} (ha : BlockOf s.heap.runs cls i a) :
    Inner a ∧ (getBlockArena a, 1) ∈ s.heap.runs ∧ cls (getBlockArena a) = some i ∧
      a ∈ blocksFrom (getBlockArena a) i 0 (totalBlock i) := by
  obtain ⟨p, hp, hc, hb⟩ := ha
  obtain ⟨m, -, hm, e⟩ := mem_blocksFrom.mp hb
  obtain ⟨hin, hpage⟩ := (h.kernelPage hp).block (i := i) (k := m) (by omega)
  rw [← e] at hin hpage
  rw [hpage]
  exact ⟨hin, hp, hc, hb⟩

theorem Inv.free_inner (h : Inv L n s cls free) (hi : i < DESC_COUNT) : ∀ a ∈ free i, Inner a :=
  fun a ha => (h.blockOf ((h.free_iff i hi a).mp ha).1).1

/-- **The invariant rests on some of the words only.** -/
theorem Inv.congr (h : Inv L n s cls free) (hw : ∀ x, Rests L s.heap.runs free x → mem x = s.heap.mem x) :
    Inv L n { s with heap := { s.heap with mem } } cls free := by
  have hstatic {x : Nat} (hx : L.descriptors ≤ x ∧ x < L.descriptors + 168) : mem x = s.heap.mem x :=
    hw x (.inl hx)
  refine ⟨h.marked, fun i hi => ?_, fun i hi => ?_, fun r hr => ?_, h.free_iff, h.placed, h.nodup⟩
  · obtain ⟨h1, h2⟩ := h.described i hi
    unfold DESC_COUNT at hi
    unfold BLOCK_SIZE_AT at *
    refine ⟨(hstatic ?_).trans h1, (hstatic ?_).trans h2⟩
    · rw [desc_eq]
      omega
    · rw [desc_eq]
      omega
  · refine (h.lists i hi).congr fun a ha => ?_
    unfold NEXT
    obtain ha | ha | ha := ha
    · rw [head_eq] at ha
      unfold DESC_COUNT at hi
      exact ⟨hstatic (by omega), hstatic (by omega)⟩
    · rw [tail_eq] at ha
      unfold DESC_COUNT at hi
      exact ⟨hstatic (by omega), hstatic (by omega)⟩
    · exact ⟨hw a (.inr (.inr ⟨i, hi, a, ha, .inl rfl⟩)), hw _ (.inr (.inr ⟨i, hi, a, ha, .inr rfl⟩))⟩
  · exact (h.header r hr).congr (fun k hk => hw _ (.inr (.inl ⟨r, hr, by omega, by omega⟩))) rfl fun _ _ => rfl

/-- A block is in its page, behind the header. -/
theorem Inv.block_in (h : Inv L n s cls free) {x : Nat} (hx : BlockOf s.heap.runs cls i x) :
    ∃ p, (p, 1) ∈ s.heap.runs ∧ cls p = some i ∧ getBlockArena x = p ∧ p + ARENA_SIZE ≤ x ∧
      x + blockSize i ≤ p + PAGE_SIZE := by
  obtain ⟨p, hp, hc, hb⟩ := hx
  obtain ⟨m, -, hm, rfl⟩ := mem_blocksFrom.mp hb
  have hlt : m < totalBlock i := by omega
  obtain ⟨hend, hstart⟩ := @blockAt_end i m p hlt
  exact ⟨p, hp, hc, ((h.kernelPage hp).block hlt).2, hstart, hend⟩

theorem Inv.block_apart (h : Inv L n s cls free) {j x y : Nat} (hx : BlockOf s.heap.runs cls i x)
    (hy : BlockOf s.heap.runs cls j y) (hne : x ≠ y) : x + blockSize i ≤ y ∨ y + blockSize j ≤ x := by
  obtain ⟨p, hp, hci, hpx, hx1, hendx⟩ := h.block_in hx
  obtain ⟨q, hq, hcj, hqy, hy1, hendy⟩ := h.block_in hy
  by_cases e : p = q
  · subst e
    obtain rfl := Option.some.inj (hci.symm.trans hcj)
    obtain ⟨-, -, -, hbx⟩ := h.blockOf hx
    obtain ⟨-, -, -, hby⟩ := h.blockOf hy
    obtain ⟨m, -, -, hm⟩ := mem_blocksFrom.mp hbx
    obtain ⟨m', -, -, hm'⟩ := mem_blocksFrom.mp hby
    rw [hpx] at hm
    rw [hqy] at hm'
    subst hm hm'
    obtain hlt | rfl | hlt := Nat.lt_trichotomy m m'
    · exact .inl (blockAt_lt hlt)
    · exact absurd rfl hne
    · exact .inr (blockAt_lt hlt)
  · have hap := h.apart hp (List.mem_append_left _ hq) fun e' => e (congrArg Prod.fst e')
    unfold ARENA_SIZE at hx1 hy1
    simp only [Nat.one_mul] at hap
    omega

/-- The block of a large run is in its first page. -/
theorem Inv.large_page (h : Inv L n s cls free) (hr : r ∈ s.heap.runs ++ s.others) :
    getBlockArena (r.1 + ARENA_SIZE) = r.1 := by
  have hal := (h.marked.inside r hr).1
  unfold getBlockArena PAGE_SIZE ARENA_SIZE at *
  omega

/-- **A block in use is inside its run**, behind the header. -/
theorem Inv.span (h : Inv L n s cls free) (hb : b ∈ s.live) :
    ∃ r ∈ s.heap.runs, getBlockArena b.1 = r.1 ∧ r.1 + ARENA_SIZE ≤ b.1 ∧
      b.1 + b.2 ≤ r.1 + r.2 * PAGE_SIZE := by
  obtain ⟨i, -, hblock, hsize⟩ | ⟨r, hr, -, hb1, hsize⟩ := h.placed b hb
  · obtain ⟨p, hp, -, hpage, hstart, hend⟩ := h.block_in hblock
    refine ⟨(p, 1), hp, hpage, hstart, ?_⟩
    show b.1 + b.2 ≤ p + 1 * PAGE_SIZE
    omega
  · exact ⟨r, hr, by rw [hb1, h.large_page (List.mem_append_left _ hr)], hb1.ge, by omega⟩

/-- **Two blocks in use do not meet.** -/
theorem Inv.live_apart (h : Inv L n s cls free) (hb : b ∈ s.live) (hb' : b' ∈ s.live) (hne : b.1 ≠ b'.1) :
    b.1 + b.2 ≤ b'.1 ∨ b'.1 + b'.2 ≤ b.1 := by
  obtain ⟨r, hr, hpage, hlow, hhigh⟩ := h.span hb
  obtain ⟨r', hr', hpage', hlow', hhigh'⟩ := h.span hb'
  by_cases e : r = r'
  · subst e
    have hlarge {q : PageRun} (hq : q ∈ s.heap.runs) (e : getBlockArena (q.1 + ARENA_SIZE) = r.1) : r = q :=
      h.run_inj hr (List.mem_append_left _ hq) (by rw [← e, h.large_page (List.mem_append_left _ hq)])
    obtain ⟨i, hi, hblock, hsize⟩ | ⟨q, hq, hc, hb1, -⟩ := h.placed b hb
    · obtain ⟨p, hp, hci, hpp, -⟩ := h.block_in hblock
      obtain ⟨j, hj, hblock', hsize'⟩ | ⟨q, hq, hc, hb1, -⟩ := h.placed b' hb'
      · have := h.block_apart hblock hblock' hne
        omega
      · obtain rfl := hlarge hq (hb1 ▸ hpage')
        rw [← hpp, hpage, hc] at hci
        cases hci
    · obtain rfl := hlarge hq (hb1 ▸ hpage)
      obtain ⟨j, hj, hblock', -⟩ | ⟨q', hq', -, hb1', -⟩ := h.placed b' hb'
      · obtain ⟨p, hp, hcj, hpp, -⟩ := h.block_in hblock'
        rw [← hpp, hpage', hc] at hcj
        cases hcj
      · obtain rfl := hlarge hq' (hb1' ▸ hpage')
        exact absurd (hb1.trans hb1'.symm) hne
  · have := h.apart hr (List.mem_append_left _ hr') e
    unfold ARENA_SIZE at *
    omega

/-- A block in use and a block on a list do not meet. -/
theorem Inv.live_free (h : Inv L n s cls free) (hb : b ∈ s.live) {c : Nat} (hi : i < DESC_COUNT)
    (hc : c ∈ free i) : b.1 + b.2 ≤ c ∨ c + blockSize i ≤ b.1 := by
  obtain ⟨hblock, hlive⟩ := (h.free_iff i hi c).mp hc
  have hne : b.1 ≠ c := fun e => hlive (e ▸ List.mem_map_of_mem hb)
  obtain ⟨p, hp, hcp, hpp, hlowc, hendc⟩ := h.block_in hblock
  obtain ⟨j, hj, hblock', hsize⟩ | ⟨q, hq, hcq, hb1, hsize⟩ := h.placed b hb
  · have := h.block_apart hblock' hblock hne
    omega
  · have hrun : q ≠ (p, 1) := fun e => by
      rw [e] at hcq
      cases hcq.symm.trans hcp
    have := h.apart hq (List.mem_append_left _ hp) hrun
    unfold ARENA_SIZE at *
    simp only [Nat.one_mul] at this
    omega

/-- A block in use and a header do not meet. -/
theorem Inv.live_header (h : Inv L n s cls free) (hb : b ∈ s.live) (hr : r ∈ s.heap.runs) :
    b.1 + b.2 ≤ r.1 ∨ r.1 + ARENA_SIZE ≤ b.1 := by
  obtain ⟨r', hr', -, hlow, hhigh⟩ := h.span hb
  by_cases e : r' = r
  · exact .inr (e ▸ hlow)
  · have hap := h.apart hr' (List.mem_append_left _ hr) e
    have hpos := (h.page hr).2.1
    unfold ARENA_SIZE PAGE_SIZE at *
    omega

/-- **What may be written is nothing the heap rests on.** -/
theorem Inv.not_rests (h : Inv L n s cls free) {a : Nat} (ha : Writable L s a) : ¬ Rests L s.heap.runs free a := by
  have hL := L.below
  obtain ⟨hal, ⟨b, hb, hlow, hhigh⟩ | ⟨hout, hstatic⟩⟩ := ha
  · obtain ⟨r, hr, -, hstart, -⟩ := h.span hb
    have hbase := (h.page hr).2.2.1
    unfold MEMORY_BASE at hbase
    rintro (hs | ⟨r', hr', h1, h2⟩ | ⟨i, hi, c, hc, hw⟩)
    · unfold DESC_COUNT DESC_SIZE at hs
      omega
    · have := h.live_header hb hr'
      omega
    · have hap := h.live_free hb hi hc
      have hsize := sixteen_le i
      have hal' := (h.free_inner hi c hc).aligned
      unfold NEXT at hw
      omega
  · rintro (hs | ⟨r, hr, h1, h2⟩ | ⟨i, hi, c, hc, hw⟩)
    · exact hstatic hs
    · refine hout r hr (Set.mem_Ico.mpr ⟨h1, ?_⟩)
      have hpos := (h.page hr).2.1
      unfold ARENA_SIZE PAGE_SIZE at *
      omega
    · obtain ⟨p, hp, -, -, hlow, hend⟩ := h.block_in ((h.free_iff i hi c).mp hc).1
      have hsize := sixteen_le i
      refine hout (p, 1) hp (Set.mem_Ico.mpr ?_)
      unfold NEXT at hw
      unfold ARENA_SIZE at hlow
      show p ≤ a ∧ a < p + 1 * PAGE_SIZE
      omega

/-- A write. -/
theorem Inv.write (h : Inv L n s cls free) {a v : Nat} (ha : Writable L s a) :
    Inv L n { s with heap := { s.heap with mem := Function.update s.heap.mem a v } } cls free := by
  refine h.congr fun x hx => Function.update_of_ne ?_ ..
  rintro rfl
  exact h.not_rests ha hx

/-! ## 3. Pages -/

/-- A run that others take. -/
theorem Inv.take (h : Inv L n s cls free) {count vaddr : Nat} {map : Bitmap}
    (ha : Paging.allocKpage s.heap.map count = .ok (vaddr, map)) :
    Inv L n { s with heap := { s.heap with map }, others := (vaddr, count) :: s.others } cls free :=
  ⟨marked_perm (allocKpage_spec h.marked ha).1 List.perm_middle.symm, h.described, h.lists, h.header,
    h.free_iff, h.placed, h.nodup⟩

/-- A run that others give back. -/
theorem Inv.give (h : Inv L n s cls free) (hr : r ∈ s.others) :
    ∃ map, Paging.freeKpage s.heap.map r.1 r.2 = .ok map ∧
      Inv L n { s with heap := { s.heap with map }, others := s.others.erase r } cls free := by
  obtain ⟨map, hf, hm⟩ := freeKpage_spec h.marked (List.mem_append_right _ hr)
  have hnot : r ∉ s.heap.runs := fun hr' => List.disjoint_of_nodup_append h.marked.nodup hr' hr
  have herase : (s.heap.runs ++ s.others).erase r = s.heap.runs ++ s.others.erase r :=
    List.erase_append_right _ hnot
  exact ⟨map, hf, herase ▸ hm, h.described, h.lists, h.header, h.free_iff, h.placed, h.nodup⟩

/-- A run of others begins in no page of the heap's. -/
theorem Inv.fresh (h : Inv L n s cls free) (hr : r ∈ s.others) (hr' : r' ∈ s.heap.runs) : r'.1 ≠ r.1 := by
  intro e
  obtain rfl := h.run_inj hr' (List.mem_append_right _ hr) e
  exact List.disjoint_of_nodup_append h.marked.nodup hr' hr

/-- **A run goes to the others**, and its blocks go off the lists. -/
theorem Inv.release (h : Inv L n s cls free) (hr : r ∈ s.heap.runs)
    (hlive : ∀ b ∈ s.live, getBlockArena b.1 ≠ r.1) {free' : Nat → List Nat} (hd : Described L mem)
    (hlists : ∀ i < DESC_COUNT, OnList L i (free' i) mem)
    (hfree : ∀ i < DESC_COUNT, ∀ c, c ∈ free' i ↔ c ∈ free i ∧ getBlockArena c ≠ r.1)
    (hw : ∀ q ∈ s.heap.runs, ∀ k < ARENA_SIZE, mem (q.1 + k) = s.heap.mem (q.1 + k)) :
    Inv L n { s with
      heap := { s.heap with mem, runs := s.heap.runs.erase r }
      others := r :: s.others } cls free' := by
  have hnodup : s.heap.runs.Nodup := (List.nodup_append.mp h.marked.nodup).1
  have hkeep {q : PageRun} (hq : q ∈ s.heap.runs) (hne : q.1 ≠ r.1) : q ∈ s.heap.runs.erase r :=
    (hnodup.mem_erase_iff).mpr ⟨fun e => hne (congrArg Prod.fst e), hq⟩
  refine ⟨marked_perm h.marked ?_, hd, hlists, fun q hq => ?_, fun i hi c => ?_, fun b hb => ?_, h.nodup⟩
  · exact ((List.perm_cons_erase hr).append_right _).trans List.perm_middle.symm
  · obtain ⟨hne, hq'⟩ := hnodup.mem_erase_iff.mp hq
    refine (h.header q hq').congr (hw q hq') rfl fun i hi => ?_
    have hi' : i < DESC_COUNT := by
      have := (h.header q hq').2
      rw [hi] at this
      exact this.1
    refine freeIn_congr (hlists i hi').nodup (h.lists i hi').nodup fun c hc => ?_
    rw [hfree i hi', hc]
    exact and_iff_left fun e => hne (h.run_inj hq' (List.mem_append_left _ hr) e)
  · rw [hfree i hi c, h.free_iff i hi c]
    constructor
    · rintro ⟨⟨⟨p, hp, hc, hb⟩, hout⟩, hpage⟩
      refine ⟨⟨p, hkeep hp ?_, hc, hb⟩, hout⟩
      obtain ⟨m, -, hm, rfl⟩ := mem_blocksFrom.mp hb
      rwa [((h.kernelPage hp).block (by omega)).2] at hpage
    · rintro ⟨⟨p, hp, hc, hb⟩, hout⟩
      obtain ⟨hne, hp'⟩ := hnodup.mem_erase_iff.mp hp
      refine ⟨⟨⟨p, hp', hc, hb⟩, hout⟩, fun e => hne (h.run_inj hp' (List.mem_append_left _ hr) ?_)⟩
      obtain ⟨m, -, hm, rfl⟩ := mem_blocksFrom.mp hb
      rwa [((h.kernelPage hp').block (by omega)).2] at e
  · obtain ⟨i, hi, ⟨p, hp, hc, hb'⟩, hsize⟩ | ⟨q, hq, hc, hb1, hsize⟩ := h.placed b hb
    · refine .inl ⟨i, hi, ⟨p, hkeep hp ?_, hc, hb'⟩, hsize⟩
      have hpage := hlive b hb
      obtain ⟨m, -, hm, e⟩ := mem_blocksFrom.mp hb'
      rwa [e, ((h.kernelPage hp).block (by omega)).2] at hpage
    · refine .inr ⟨q, hkeep hq ?_, hc, hb1, hsize⟩
      have hpage := hlive b hb
      rwa [hb1, h.large_page (List.mem_append_left _ hq)] at hpage

/-- **A run of the others becomes the heap's**, and its blocks go on the list. -/
theorem Inv.adopt (h : Inv L n s cls free) (hr : r ∈ s.others) {v : Option Nat} {free' : Nat → List Nat}
    (hv : ∀ i, v = some i → i < DESC_COUNT ∧ r.2 = 1) (hd : Described L mem)
    (hlists : ∀ i < DESC_COUNT, OnList L i (free' i) mem)
    (hfree : ∀ i < DESC_COUNT, ∀ c, c ∈ free' i ↔ c ∈ free i ∨
      (v = some i ∧ c ∈ blocksFrom r.1 i 0 (totalBlock i)))
    (hw : ∀ q ∈ s.heap.runs, ∀ k < ARENA_SIZE, mem (q.1 + k) = s.heap.mem (q.1 + k))
    (hheader : Header L mem (Function.update cls r.1 v) free' r) :
    Inv L n { s with
      heap := { s.heap with mem, runs := r :: s.heap.runs }
      others := s.others.erase r } (Function.update cls r.1 v) free' := by
  have hmr : r ∈ s.heap.runs ++ s.others := List.mem_append_right _ hr
  have hpage : ∀ i c, v = some i → c ∈ blocksFrom r.1 i 0 (totalBlock i) → getBlockArena c = r.1 := by
    intro i c hi hc
    obtain ⟨m, -, hm, rfl⟩ := mem_blocksFrom.mp hc
    obtain ⟨h1, -, h3, h4⟩ := h.marked.inside r hmr
    have hkp : KernelPage r.1 := by
      have := (hv i hi).2
      unfold IDX at h3 h4
      refine ⟨h1, ?_, ?_⟩
      · unfold MEMORY_BASE PAGE_SIZE at *
        omega
      · unfold KERNEL_MEMORY_SIZE PAGE_SIZE at *
        omega
    exact (hkp.block (by omega)).2
  refine ⟨marked_perm h.marked ?_, hd, hlists, fun q hq => ?_, fun i hi c => ?_, fun b hb => ?_, h.nodup⟩
  · exact ((List.perm_cons_erase hr).append_left _).trans List.perm_middle
  · obtain rfl | hq := List.mem_cons.mp hq
    · exact hheader
    · refine (h.header q hq).congr (hw q hq) (Function.update_of_ne (h.fresh hr hq) ..) fun i hi => ?_
      have hi' : i < DESC_COUNT := by
        have := (h.header q hq).2
        rw [hi] at this
        exact this.1
      refine freeIn_congr (hlists i hi').nodup (h.lists i hi').nodup fun c hc => ?_
      rw [hfree i hi']
      exact or_iff_left fun ⟨hv, hb⟩ => h.fresh hr hq (hc.symm.trans (hpage i c hv hb))
  · rw [hfree i hi c, h.free_iff i hi c]
    constructor
    · rintro (⟨⟨p, hp, hc, hb⟩, hout⟩ | ⟨hvi, hb⟩)
      · exact ⟨⟨p, List.mem_cons_of_mem _ hp, by rw [Function.update_of_ne (h.fresh hr hp), hc], hb⟩, hout⟩
      · refine ⟨⟨r.1, List.mem_cons.mpr (.inl ?_), by rw [Function.update_self, hvi], hb⟩, fun hlive => ?_⟩
        · rw [← (hv i hvi).2]
        · obtain ⟨b, hbl, hbe⟩ := List.mem_map.mp hlive
          obtain ⟨q, hq, hqp, -⟩ := h.span hbl
          rw [hbe, hpage i c hvi hb] at hqp
          exact h.fresh hr hq hqp.symm
    · rintro ⟨⟨p, hp, hc, hb⟩, hout⟩
      obtain hp | hp := List.mem_cons.mp hp
      · obtain rfl : p = r.1 := by rw [← hp]
        rw [Function.update_self] at hc
        exact .inr ⟨hc, hb⟩
      · rw [Function.update_of_ne (h.fresh hr hp)] at hc
        exact .inl ⟨⟨p, hp, hc, hb⟩, hout⟩
  · obtain ⟨i, hi, ⟨p, hp, hc, hb'⟩, hsize⟩ | ⟨q, hq, hc, hb1, hsize⟩ := h.placed b hb
    · exact .inl ⟨i, hi, ⟨p, List.mem_cons_of_mem _ hp, by rw [Function.update_of_ne (h.fresh hr hp), hc], hb'⟩,
        hsize⟩
    · exact .inr ⟨q, List.mem_cons_of_mem _ hq, by rw [Function.update_of_ne (h.fresh hr hq), hc], hb1, hsize⟩

/-- A block that is on no list goes into use. -/
theorem Inv.use (h : Inv L n s cls free) (hb : Placed s.heap.runs cls b) (hnew : b.1 ∉ s.live.map Prod.fst)
    (hfree : ∀ i < DESC_COUNT, b.1 ∉ free i) : Inv L n { s with live := b :: s.live } cls free := by
  refine ⟨h.marked, h.described, h.lists, h.header, fun i hi c => ?_, fun b' hb' => ?_,
    List.nodup_cons.mpr ⟨hnew, h.nodup⟩⟩
  · rw [h.free_iff i hi c]
    constructor
    · rintro ⟨hblock, hout⟩
      refine ⟨hblock, fun hc => ?_⟩
      obtain rfl | hc := List.mem_cons.mp hc
      · exact hfree i hi ((h.free_iff i hi _).mpr ⟨hblock, hout⟩)
      · exact hout hc
    · exact fun ⟨hblock, hout⟩ => ⟨hblock, fun hc => hout (List.mem_cons_of_mem _ hc)⟩
  · obtain rfl | hb' := List.mem_cons.mp hb'
    · exact hb
    · exact h.placed b' hb'

/-- The words of a run of the others are nothing the heap rests on. -/
theorem Inv.rests_outside (h : Inv L n s cls free) (hr : r ∈ s.others) {x : Nat}
    (hx : Rests L s.heap.runs free x) : ¬ (r.1 ≤ x ∧ x < r.1 + r.2 * PAGE_SIZE) := by
  have hL := L.below
  have hmr : r ∈ s.heap.runs ++ s.others := List.mem_append_right _ hr
  have hne {q : PageRun} (hq : q ∈ s.heap.runs) : q ≠ r := fun e => h.fresh hr hq (congrArg Prod.fst e)
  obtain hs | ⟨q, hq, h1, h2⟩ | ⟨i, hi, c, hc, hw⟩ := hx
  · obtain ⟨-, -, h3, -⟩ := h.marked.inside r hmr
    unfold IDX MEMORY_BASE PAGE_SIZE at h3
    unfold DESC_COUNT DESC_SIZE at hs
    omega
  · have hap := h.apart hq hmr (hne hq)
    have hpos := (h.page hq).2.1
    unfold ARENA_SIZE at h2
    unfold PAGE_SIZE at *
    omega
  · obtain ⟨p, hp, -, -, hlow, hend⟩ := h.block_in ((h.free_iff i hi c).mp hc).1
    have hap := h.apart hp hmr (hne hp)
    have hsize := sixteen_le i
    unfold NEXT at hw
    unfold ARENA_SIZE at hlow
    simp only [Nat.one_mul] at hap
    omega

/-! ## 4. `kmalloc` -/

/-- Writes to a run that has just been taken. -/
theorem Inv.fill (h : Inv L n s cls free) {count vaddr : Nat} {map : Bitmap}
    (ha : Paging.allocKpage s.heap.map count = .ok (vaddr, map))
    (hw : ∀ x, ¬ (vaddr ≤ x ∧ x < vaddr + count * PAGE_SIZE) → mem x = s.heap.mem x) :
    Inv L n ⟨⟨mem, map, s.heap.runs⟩, s.live, (vaddr, count) :: s.others⟩ cls free := by
  have h1 := h.take ha
  exact h1.congr fun x hx => hw x (h1.rests_outside (r := (vaddr, count)) List.mem_cons_self hx)

/-- **A large block.** -/
theorem Inv.largeArena (h : Inv L n s cls free) {size vaddr : Nat} {map : Bitmap} (hsize : size < 15 * 2 ^ 20)
    (ha : Paging.allocKpage s.heap.map (divRoundUp (size + ARENA_SIZE) PAGE_SIZE) = .ok (vaddr, map)) :
    ∃ heap, Arena.largeArena s.heap size = .ok (vaddr + ARENA_SIZE, heap) ∧
      heap.runs = (vaddr, divRoundUp (size + ARENA_SIZE) PAGE_SIZE) :: s.heap.runs ∧
      Inv L n ⟨heap, (vaddr + ARENA_SIZE, size) :: s.live, s.others⟩ (Function.update cls vaddr none) free := by
  obtain ⟨count, hcount⟩ : ∃ count, count = divRoundUp (size + ARENA_SIZE) PAGE_SIZE := ⟨_, rfl⟩
  have hroom : size + ARENA_SIZE ≤ count * PAGE_SIZE := by
    rw [hcount]
    unfold divRoundUp ARENA_SIZE PAGE_SIZE
    omega
  rw [← hcount] at ha ⊢
  obtain ⟨mem, hmem⟩ : ∃ mem, mem = Function.update (Function.update (Function.update (Function.update
      (memset s.heap.mem vaddr (count * PAGE_SIZE)) (vaddr + LARGE) 1) (vaddr + COUNT) count) vaddr 0)
      (vaddr + MAGIC) YUI_MAGIC := ⟨_, rfl⟩
  have hoff : ∀ x, ¬ (vaddr ≤ x ∧ x < vaddr + count * PAGE_SIZE) → mem x = s.heap.mem x := by
    intro x hx
    unfold ARENA_SIZE at hroom
    rw [hmem, Function.update_of_ne, Function.update_of_ne, Function.update_of_ne, Function.update_of_ne]
    · exact if_neg hx
    all_goals
      unfold MAGIC LARGE COUNT at *
      omega
  have h2 := h.fill ha hoff
  have hheader : Header L mem (Function.update cls vaddr none) free (vaddr, count) := by
    refine ⟨?_, ?_⟩
    · rw [hmem, Function.update_self]
    · rw [Function.update_self]
      refine ⟨?_, ?_⟩
      · rw [hmem]
        simp [LARGE, COUNT, MAGIC]
      · rw [hmem]
        simp [COUNT, MAGIC]
  have h3 := h2.adopt (r := (vaddr, count)) List.mem_cons_self (v := none) nofun h2.described h2.lists
    (fun i hi c => (or_iff_left fun hc => nomatch hc.1).symm) (fun q hq k hk => rfl) hheader
  have hpage : getBlockArena (vaddr + ARENA_SIZE) = vaddr :=
    h2.large_page (r := (vaddr, count)) (List.mem_append_right _ List.mem_cons_self)
  have hfresh {q : PageRun} (hq : q ∈ s.heap.runs) : q.1 ≠ vaddr :=
    h2.fresh (r := (vaddr, count)) List.mem_cons_self hq
  refine ⟨⟨mem, map, (vaddr, count) :: s.heap.runs⟩, ?_, rfl, ?_⟩
  · show (Heap.allocKpage s.heap (divRoundUp (size + ARENA_SIZE) PAGE_SIZE) >>= _) = _
    rw [← hcount, Heap.allocKpage, ha, hmem]
    rfl
  · have h4 := h3.use (b := (vaddr + ARENA_SIZE, size)) ?_ ?_ ?_
    · rwa [List.erase_cons_head] at h4
    · exact .inr ⟨(vaddr, count), List.mem_cons_self, Function.update_self .., rfl, hroom⟩
    · intro hlive
      obtain ⟨b, hb, hbe⟩ := List.mem_map.mp hlive
      obtain ⟨q, hq, hqp, -⟩ := h.span hb
      rw [hbe, hpage] at hqp
      exact hfresh hq hqp.symm
    · intro i hi hc
      obtain ⟨p, hp, -, hpp, -⟩ := h.block_in ((h.free_iff i hi _).mp hc).1
      exact hfresh hp (hpp.symm.trans hpage)

/-- All blocks of a page are counted. -/
theorem freeIn_all {p : Nat} (hp : KernelPage p) (i : Nat) :
    freeIn (blocksFrom p i 0 (totalBlock i)).reverse p = totalBlock i := by
  have hall : ∀ b ∈ (blocksFrom p i 0 (totalBlock i)).reverse, decide (getBlockArena b = p) = true := by
    intro b hb
    obtain ⟨m, -, hm, rfl⟩ := mem_blocksFrom.mp (List.mem_reverse.mp hb)
    exact decide_eq_true (hp.block (by omega)).2
  rw [freeIn, List.filter_eq_self.mpr hall, List.length_reverse, blocksFrom, List.length_map, List.length_range']

/-- **A new arena**, when the list is empty. -/
theorem Inv.newArena (h : Inv L n s cls free) (hi : i < DESC_COUNT) (hempty : free i = []) {p : Nat} {map : Bitmap}
    (ha : Paging.allocKpage s.heap.map 1 = .ok (p, map)) :
    ∃ heap, Arena.newArena s.heap (L.desc i) = .ok heap ∧ heap.runs = (p, 1) :: s.heap.runs ∧
      Inv L n ⟨heap, s.live, s.others⟩ (Function.update cls p (some i))
        (Function.update free i (blocksFrom p i 0 (totalBlock i)).reverse) := by
  obtain ⟨mem, hmem⟩ : ∃ mem, mem = Function.update (Function.update (Function.update (Function.update
      (memset s.heap.mem p PAGE_SIZE) p (L.desc i)) (p + LARGE) 0) (p + COUNT) (totalBlock i))
      (p + MAGIC) YUI_MAGIC := ⟨_, rfl⟩
  have hoff : ∀ x, ¬ (p ≤ x ∧ x < p + 1 * PAGE_SIZE) → mem x = s.heap.mem x := by
    intro x hx
    rw [Nat.one_mul] at hx
    rw [hmem, Function.update_of_ne, Function.update_of_ne, Function.update_of_ne, Function.update_of_ne]
    · exact if_neg hx
    all_goals
      unfold MAGIC LARGE COUNT PAGE_SIZE at *
      omega
  have h2 := h.fill ha hoff
  have hp : KernelPage p := by
    obtain ⟨h1, -, h3, h4⟩ := h2.marked.inside (p, 1) (List.mem_append_right _ List.mem_cons_self)
    unfold IDX at h3 h4
    refine ⟨h1, ?_, ?_⟩
    · unfold MEMORY_BASE PAGE_SIZE at *
      omega
    · unfold KERNEL_MEMORY_SIZE PAGE_SIZE at *
      omega
  have hlist := h2.lists i hi
  rw [hempty] at hlist
  have hmp : mem p = L.desc i := by
    rw [hmem]
    simp [LARGE, COUNT, MAGIC]
  obtain ⟨mem', hpush, ho, hs⟩ := pushBlocks_ok h2.described hi hmp hp hlist (Nat.zero_add _).le
    fun b _ hb => nomatch hb
  rw [List.append_nil] at ho hs
  have hinner := ho.inner
  have hword {q k : Nat} (hq : KernelPage q) (hk : k < ARENA_SIZE) : mem' (q + k) = mem (q + k) :=
    hs.header hi hinner hq hk
  have hheader : Header L mem' (Function.update cls p (some i))
      (Function.update free i (blocksFrom p i 0 (totalBlock i)).reverse) (p, 1) := by
    refine ⟨?_, ?_⟩
    · rw [hword hp (by decide), hmem, Function.update_self]
    · rw [Function.update_self]
      refine ⟨hi, rfl, ?_, ?_, ?_⟩
      · exact (hword (k := 0) hp (by decide)).trans hmp
      · rw [hword hp (by decide), hmem]
        simp [LARGE, COUNT, MAGIC]
      · rw [hword hp (by decide), Function.update_self, freeIn_all hp, hmem]
        simp [COUNT, MAGIC]
  have h3 := h2.adopt (r := (p, 1)) List.mem_cons_self (v := some i)
    (fun j hj => ⟨Option.some.inj hj ▸ hi, rfl⟩) (h2.described.sameBut hinner hs)
    (fun j hj => ?_) (fun j hj c => ?_)
    (fun q hq k hk => hword (h2.kernelPage hq) hk) hheader
  · rw [List.erase_cons_head] at h3
    refine ⟨⟨mem', map, (p, 1) :: s.heap.runs⟩, ?_, rfl, h3⟩
    -- the number of blocks is read before and behind the header's last words
    have hdesc : Function.update (Function.update (memset s.heap.mem p PAGE_SIZE) p (L.desc i)) (p + LARGE) 0
        (L.desc i) = totalBlock i := by
      have hL := L.below
      have hlow := hp.low
      unfold MEMORY_BASE at hlow
      unfold DESC_COUNT at hi
      have hd := desc_eq (L := L) (i := i)
      rw [Function.update_of_ne (by omega), Function.update_of_ne (by omega), memset, if_neg (by omega)]
      exact (h.described i hi).1
    have hcode : Arena.newArena s.heap (L.desc i) =
        (pushBlocks p (mem (L.desc i)) 0 mem >>= fun mem => pure ⟨mem, map, (p, 1) :: s.heap.runs⟩) := by
      unfold Arena.newArena Heap.allocKpage
      rw [ha, hmem, ← hdesc]
      rfl
    have htotal : mem (L.desc i) = totalBlock i := (h2.described i hi).1
    have hpush : pushBlocks p (totalBlock i) 0 mem = .ok mem' := hpush
    rw [hcode, htotal, hpush]
    rfl
  · by_cases e : j = i
    · subst e
      rw [Function.update_self]
      exact ho
    · rw [Function.update_of_ne e]
      refine (h2.lists j hj).other hi hj (Ne.symm e) hinner (fun c hc hcj => ?_) hs
      obtain ⟨q, hq, -, hqp, -⟩ := h.block_in ((h.free_iff j hj c).mp hcj).1
      obtain ⟨m, -, hm, rfl⟩ := mem_blocksFrom.mp (List.mem_reverse.mp hc)
      rw [(hp.block (by omega)).2] at hqp
      exact h2.fresh (r := (p, 1)) List.mem_cons_self hq hqp.symm
  · by_cases e : j = i
    · subst e
      rw [Function.update_self, hempty, List.mem_reverse]
      simp
    · rw [Function.update_of_ne e]
      exact (or_iff_left fun hc => e (Option.some.inj hc.1).symm).symm

theorem freeIn_cons (F : List Nat) (a p : Nat) :
    freeIn (a :: F) p = freeIn F p + if getBlockArena a = p then 1 else 0 := by
  unfold freeIn
  rw [List.filter_cons]
  by_cases e : getBlockArena a = p
  · rw [if_pos (decide_eq_true e), if_pos e, List.length_cons]
  · rw [if_neg (by simpa using e), if_neg e, Nat.add_zero]

/-- A list stays when a header is written. -/
theorem OnList.write {F : List Nat} (h : OnList L i F mem) (hi : i < DESC_COUNT) {x v : Nat}
    (hx : MEMORY_BASE ≤ x) (hx' : x % PAGE_SIZE < ARENA_SIZE) : OnList L i F (Function.update mem x v) := by
  have hnot := not_touches_header (L := L) hi h.inner hx hx'
  refine h.congr fun a ha => ⟨Function.update_of_ne ?_ .., Function.update_of_ne ?_ ..⟩
  · exact fun e => hnot ⟨a, ha, .inl e.symm⟩
  · exact fun e => hnot ⟨a, ha, .inr e.symm⟩

theorem Described.write (h : Described L mem) {x v : Nat} (hx : MEMORY_BASE ≤ x) :
    Described L (Function.update mem x v) := by
  have hL := L.below
  intro j hj
  unfold MEMORY_BASE at hx
  unfold DESC_COUNT at hj
  have hd := desc_eq (L := L) (i := j)
  unfold BLOCK_SIZE_AT
  rw [Function.update_of_ne (by omega), Function.update_of_ne (by omega)]
  exact h j hj

/-- The header of a page whose list changes. -/
theorem Inv.arena (h : Inv L n s cls free) {c : Nat} (hc : BlockOf s.heap.runs cls i c) :
    ∃ p, (p, 1) ∈ s.heap.runs ∧ cls p = some i ∧ getBlockArena c = p ∧ KernelPage p ∧ i < DESC_COUNT ∧
      s.heap.mem p = L.desc i ∧ s.heap.mem (p + LARGE) = 0 ∧ s.heap.mem (p + MAGIC) = YUI_MAGIC ∧
      s.heap.mem (p + COUNT) = freeIn (free i) p := by
  obtain ⟨p, hp, hcls, hpage, -⟩ := h.block_in hc
  obtain ⟨hmagic, hrest⟩ := h.header (p, 1) hp
  rw [show cls (p, 1).1 = some i from hcls] at hrest
  obtain ⟨hi, -, hdesc, hlarge, hcount⟩ := hrest
  exact ⟨p, hp, hcls, hpage, h.kernelPage hp, hi, hdesc, hlarge, hmagic, hcount⟩

/-- **One list has changed, and the count of one of its pages with it.** -/
theorem Inv.relist (h : Inv L n s cls free) (hi : i < DESC_COUNT) {p c : Nat} {F G : List Nat}
    {live : List (Nat × Nat)} {mem' : Nat → Nat} (hp : (p, 1) ∈ s.heap.runs) (hcls : cls p = some i)
    (hpage : getBlockArena c = p) (hc : BlockOf s.heap.runs cls i c)
    (ho : OnList L i F mem') (hs : SameBut L i G s.heap.mem mem') (hG : ∀ b ∈ G, b = c ∨ b ∈ free i)
    (hF : ∀ b, b ≠ c → (b ∈ F ↔ b ∈ free i)) (hcF : c ∈ F ↔ c ∉ live.map Prod.fst)
    (hlive : ∀ b, b ≠ c → (b ∈ live.map Prod.fst ↔ b ∈ s.live.map Prod.fst))
    (hplaced : ∀ b ∈ live, Placed s.heap.runs cls b) (hnodup : (live.map Prod.fst).Nodup) :
    Inv L n ⟨{ s.heap with mem := Function.update mem' (p + COUNT) (freeIn F p) }, live, s.others⟩ cls
      (Function.update free i F) := by
  have hinner : ∀ b ∈ G, Inner b := fun b hb => by
    obtain rfl | hb := hG b hb
    · exact (h.blockOf hc).1
    · exact h.free_inner hi b hb
  have hkp := h.kernelPage hp
  have hat : MEMORY_BASE ≤ p + COUNT ∧ (p + COUNT) % PAGE_SIZE < ARENA_SIZE := by
    have h1 := hkp.aligned
    have h2 := hkp.low
    unfold COUNT PAGE_SIZE ARENA_SIZE at *
    omega
  have hword {q k : Nat} (hq : KernelPage q) (hk : k < ARENA_SIZE) : mem' (q + k) = s.heap.mem (q + k) :=
    hs.header hi hinner hq hk
  have hheader : Header L (Function.update mem' (p + COUNT) (freeIn F p)) cls (Function.update free i F) (p, 1) := by
    obtain ⟨hmagic, hrest⟩ := h.header (p, 1) hp
    rw [show cls (p, 1).1 = some i from hcls] at hrest
    obtain ⟨-, -, hdesc, hlarge, -⟩ := hrest
    have h0 : mem' p = s.heap.mem p := hword (k := 0) hkp (by decide)
    refine ⟨?_, ?_⟩
    · show Function.update mem' (p + COUNT) (freeIn F p) (p + MAGIC) = _
      rw [Function.update_of_ne (by unfold MAGIC COUNT; omega), hword hkp (by decide)]
      exact hmagic
    · rw [show cls (p, 1).1 = some i from hcls]
      refine ⟨hi, rfl, ?_, ?_, ?_⟩
      · show Function.update mem' (p + COUNT) (freeIn F p) p = _
        rw [Function.update_of_ne (by unfold COUNT; omega), h0]
        exact hdesc
      · show Function.update mem' (p + COUNT) (freeIn F p) (p + LARGE) = _
        rw [Function.update_of_ne (by unfold LARGE COUNT; omega), hword hkp (by decide)]
        exact hlarge
      · rw [Function.update_self, Function.update_self]
  refine ⟨h.marked, (h.described.sameBut hinner hs).write hat.1, fun j hj => ?_, fun r hr => ?_, fun j hj b => ?_,
    hplaced, hnodup⟩
  · by_cases e : j = i
    · subst e
      rw [Function.update_self]
      exact ho.write hj hat.1 hat.2
    · rw [Function.update_of_ne e]
      refine ((h.lists j hj).other hi hj (Ne.symm e) hinner (fun b hb hbj => ?_) hs).write hj hat.1 hat.2
      have hbi : BlockOf s.heap.runs cls i b := by
        obtain rfl | hb := hG b hb
        · exact hc
        · exact ((h.free_iff i hi b).mp hb).1
      obtain ⟨-, -, hci, -⟩ := h.blockOf hbi
      obtain ⟨-, -, hcj, -⟩ := h.blockOf ((h.free_iff j hj b).mp hbj).1
      exact e (Option.some.inj (hcj.symm.trans hci))
  · by_cases e : r.1 = p
    · obtain rfl := h.run_inj hr (List.mem_append_left _ hp) e
      exact hheader
    · have hne : (p, 1) ≠ r := fun e' => e (congrArg Prod.fst e').symm
      have hap := h.apart hp (List.mem_append_left _ hr) hne
      have hrp := (h.page hr).2.1
      refine (h.header r hr).congr (fun k hk => ?_) rfl fun j hj => ?_
      · show Function.update mem' (p + COUNT) (freeIn F p) (r.1 + k) = _
        rw [Function.update_of_ne, hword (h.kernelPage hr) hk]
        unfold COUNT ARENA_SIZE PAGE_SIZE at *
        omega
      · by_cases ej : j = i
        · subst ej
          rw [Function.update_self]
          refine freeIn_congr ho.nodup (h.lists j hi).nodup fun b hb => hF b ?_
          rintro rfl
          exact e (hb.symm.trans hpage)
        · rw [Function.update_of_ne ej]
  · by_cases e : j = i
    · subst e
      rw [Function.update_self]
      by_cases eb : b = c
      · subst eb
        rw [hcF]
        exact (and_iff_right hc).symm
      · rw [hF b eb, h.free_iff j hj b, hlive b eb]
    · rw [Function.update_of_ne e, h.free_iff j hj b]
      refine and_congr_right fun hb => not_congr (hlive b ?_).symm
      rintro rfl
      obtain ⟨-, -, hci, -⟩ := h.blockOf hc
      obtain ⟨-, -, hcj, -⟩ := h.blockOf hb
      exact e (Option.some.inj (hcj.symm.trans hci))

theorem freeIn_lt {F : List Nat} (h : OnList L i F mem) (p : Nat) : freeIn F p < NODES :=
  Nat.lt_of_le_of_lt (List.length_filter_le _ _) h.length_lt

/-- **A block comes off a list** and goes into use. -/
theorem Inv.popBlock (h : Inv L n s cls free) (hi : i < DESC_COUNT) {c size : Nat} {F : List Nat}
    (hF : free i = c :: F) (hsize : size ≤ blockSize i) :
    ∃ heap, Arena.popBlock s.heap (L.desc i) = .ok (c, heap) ∧ heap.runs = s.heap.runs ∧
      Inv L n ⟨heap, (c, size) :: s.live, s.others⟩ cls (Function.update free i F) := by
  obtain ⟨hc, hout⟩ := (h.free_iff i hi c).mp (hF ▸ List.mem_cons_self)
  obtain ⟨p, hp, hcls, hpage, hkp, -, hdesc, hlarge, hmagic, hcount⟩ := h.arena hc
  have hlist := h.lists i hi
  rw [hF] at hlist
  obtain ⟨mem', hpop, ho, hs⟩ := hlist.pop hi
  have hword {k : Nat} (hk : k < ARENA_SIZE) : mem' (p + k) = s.heap.mem (p + k) :=
    hs.header hi hlist.inner hkp hk
  have hcF : c ∉ F := (List.nodup_cons.mp hlist.nodup).1
  have hinv : Inv L n ⟨⟨Function.update mem' (p + COUNT) (freeIn F p), s.heap.map, s.heap.runs⟩,
      (c, size) :: s.live, s.others⟩ cls (Function.update free i F) := h.relist hi hp hcls hpage hc ho hs
    (fun b hb => .inr (hF ▸ hb))
    (fun b hb => by rw [hF]; exact ⟨List.mem_cons_of_mem c, fun h => (List.mem_cons.mp h).resolve_left hb⟩)
    (iff_of_false hcF (not_not_intro List.mem_cons_self))
    (fun b hb => ⟨fun h => (List.mem_cons.mp h).resolve_left hb, List.mem_cons_of_mem c⟩)
    (List.forall_mem_cons.mpr ⟨.inl ⟨i, hi, hc, hsize⟩, h.placed⟩)
    (List.nodup_cons.mpr ⟨hout, h.nodup⟩)
  refine ⟨⟨Function.update mem' (p + COUNT) (freeIn F p), s.heap.map, s.heap.runs⟩, ?_, rfl, hinv⟩
  have hless : (mem' (p + COUNT) + (2 ^ 32 - 1)) % 2 ^ 32 = freeIn F p := by
    have hlt := freeIn_lt ho p
    rw [hword (by decide), hcount, hF, freeIn_cons, if_pos hpage]
    unfold NODES at hlt
    omega
  have hassert : decide (mem' (p + MAGIC) = YUI_MAGIC ∧ mem' (p + LARGE) = 0) = true := by
    rw [hword (by decide), hword (by decide)]
    exact decide_eq_true ⟨hmagic, hlarge⟩
  unfold Arena.popBlock
  show (listPop s.heap.mem (L.head i) >>= _) = _
  rw [hpop]
  show (Kernel.assert (decide (mem' (getBlockArena c + MAGIC) = YUI_MAGIC ∧ mem' (getBlockArena c + LARGE) = 0)) >>=
    fun _ => pure (c, (⟨Function.update mem' (getBlockArena c + COUNT)
      ((mem' (getBlockArena c + COUNT) + (2 ^ 32 - 1)) % 2 ^ 32), s.heap.map, s.heap.runs⟩ : Heap))) = _
  rw [hpage, hassert, hless]
  rfl

theorem Used.mono {s' : State} (h : Used s) (hr : s'.heap.runs = s.heap.runs) (hl : s.live ⊆ s'.live) : Used s' := by
  intro r hr'
  obtain ⟨b, hb, e⟩ := h r (hr ▸ hr')
  exact ⟨b, hl hb, e⟩

end Invariant

end Yuios.Paging.Arena
