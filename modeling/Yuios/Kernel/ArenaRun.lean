/-
  File:      Yuios/Kernel/ArenaRun.lean
  Subject:   RUNS OF THE KERNEL'S HEAP: `kmalloc` and `kfree` in any order.

  * `Reached` -- calls; between them the owners of the blocks write to their blocks, and the rest of the
    kernel takes pages of its own, gives them back, and writes to what is not the heap's.
  * `Inv.kmalloc`, `Inv.kfree` -- a call keeps the invariant, and stops only where the pages do.
  * `arenaInit_fresh` -- what `arena_init` leaves; `reached_inv` -- the invariant holds in every state.
  * **`arena_sound`** -- in every state reached the blocks keep apart, the counts are right, no call
    stops where there are pages, and without blocks there are no pages.
-/
import Yuios.Kernel.ArenaInv

namespace Yuios.Paging.Arena

open Lib

/-! ## 1. Runs -/

/-- The states of a machine with `pages` frames. -/
inductive Reached (L : Layout) (pages : Nat) : State → Prop where
  | init (mem : Nat → Nat) (map : Bitmap)
      (hlow : KERNEL_MEMORY_SIZE / PAGE_SIZE + MEMORY_BASE / PAGE_SIZE ≤ pages) (hhigh : pages ≤ 2 ^ 20)
      (h : memoryMapInit pages = .ok map) : Reached L pages ⟨⟨arenaInit L mem, map, []⟩, [], []⟩
  | kmalloc {s : State} (hs : Reached L pages s) (size ptr : Nat) (heap : Heap) (hsize : size < 15 * 2 ^ 20)
      (h : kmalloc L s.heap size = .ok (ptr, heap)) : Reached L pages ⟨heap, (ptr, size) :: s.live, s.others⟩
  | kfree {s : State} (hs : Reached L pages s) (b : Nat × Nat) (heap : Heap) (hb : b ∈ s.live)
      (h : kfree s.heap b.1 = .ok heap) : Reached L pages ⟨heap, s.live.erase b, s.others⟩
  | write {s : State} (hs : Reached L pages s) (a v : Nat) (ha : Writable L s a) :
      Reached L pages { s with heap := { s.heap with mem := Function.update s.heap.mem a v } }
  | take {s : State} (hs : Reached L pages s) (count vaddr : Nat) (map : Bitmap)
      (h : Paging.allocKpage s.heap.map count = .ok (vaddr, map)) :
      Reached L pages { s with heap := { s.heap with map }, others := (vaddr, count) :: s.others }
  | give {s : State} (hs : Reached L pages s) (r : PageRun) (map : Bitmap) (hr : r ∈ s.others)
      (h : Paging.freeKpage s.heap.map r.1 r.2 = .ok map) :
      Reached L pages { s with heap := { s.heap with map }, others := s.others.erase r }

section Calls

variable {L : Layout} {n i size p : Nat} {s : State} {cls : Nat → Option Nat} {free : Nat → List Nat}
  {r : PageRun} {b : Nat × Nat} {mem : Nat → Nat}

/-! ## 2. `kmalloc` -/

/-- The pages that `kmalloc` asks for. -/
def pagesFor (size : Nat) : Nat := divRoundUp (size + ARENA_SIZE) PAGE_SIZE

theorem pagesFor_small (hsize : size ≤ 1024) : pagesFor size = 1 := by
  unfold pagesFor divRoundUp ARENA_SIZE PAGE_SIZE
  omega

theorem desc_ne_zero (L : Layout) (i : Nat) : L.desc i ≠ 0 := by
  have hL := L.below
  rw [desc_eq]
  omega

/-- The loop ends at the first descriptor whose blocks are large enough. -/
theorem findDesc_ok (hd : Described L mem) (hsize : size ≤ 1024) (desc : Nat) (hn : 0 < n)
    (hi : i + n = DESC_COUNT) :
    ∃ j < DESC_COUNT, findDesc L mem size n i desc = L.desc j ∧ size ≤ blockSize j := by
  induction n generalizing i desc with
  | zero => exact absurd hn (Nat.lt_irrefl 0)
  | succ n ih =>
    have hlt : i < DESC_COUNT := by omega
    rw [findDesc]
    show ∃ j < DESC_COUNT, (if size ≤ mem (L.desc i + BLOCK_SIZE_AT) then L.desc i else _) = _ ∧ _
    rw [(hd i hlt).2]
    by_cases hs : size ≤ blockSize i
    · exact ⟨i, hlt, if_pos hs, hs⟩
    · rw [if_neg hs]
      refine ih _ (Nat.pos_of_ne_zero fun h0 => hs ?_) (by omega)
      -- the last descriptor has blocks of 1024 bytes
      have h6 : i = 6 := by
        unfold DESC_COUNT at hi
        omega
      rw [h6]
      exact hsize

theorem totalBlock_pos (hi : i < DESC_COUNT) : 0 < totalBlock i := by
  have hpow : 2 ^ i ≤ 2 ^ 6 := Nat.pow_le_pow_right (by decide) (Nat.le_of_lt_succ hi)
  refine Nat.div_pos ?_ (blockSize_pos i)
  rw [blockSize_eq]
  unfold PAGE_SIZE ARENA_SIZE
  omega

theorem Used.cons {b : Nat × Nat} {heap : Heap} (h : Used s) (hr : heap.runs = s.heap.runs) :
    Used ⟨heap, b :: s.live, s.others⟩ :=
  h.mono hr (List.subset_cons_self b s.live)

/-- A new run is used by the block that comes from it. -/
theorem Used.new {heap : Heap} {k c : Nat} (h : Used s) (hr : heap.runs = (p, k) :: s.heap.runs)
    (hc : getBlockArena c = p) : Used ⟨heap, (c, size) :: s.live, s.others⟩ := by
  intro r hr'
  obtain rfl | hr' := List.mem_cons.mp (hr ▸ hr' : r ∈ (p, k) :: s.heap.runs)
  · exact ⟨(c, size), List.mem_cons_self, hc⟩
  · obtain ⟨b, hb, e⟩ := h r hr'
    exact ⟨b, List.mem_cons_of_mem _ hb, e⟩

/-- **A call of `kmalloc`** returns a block, or it stops because there are no pages for it. -/
theorem Inv.kmalloc (h : Inv L n s cls free) (hu : Used s) (hsize : size < 15 * 2 ^ 20) :
    (∃ ptr heap cls' free', Arena.kmalloc L s.heap size = .ok (ptr, heap) ∧
        Inv L n ⟨heap, (ptr, size) :: s.live, s.others⟩ cls' free' ∧
        Used ⟨heap, (ptr, size) :: s.live, s.others⟩) ∨
      ∃ e, Paging.allocKpage s.heap.map (pagesFor size) = .error e ∧ Arena.kmalloc L s.heap size = .error e := by
  unfold Arena.kmalloc
  by_cases hlarge : 1024 < size
  · rw [if_pos hlarge]
    cases ha : Paging.allocKpage s.heap.map (pagesFor size) with
    | error e =>
      refine .inr ⟨e, rfl, ?_⟩
      show (Heap.allocKpage s.heap (pagesFor size) >>= _) = _
      rw [Heap.allocKpage, ha]
      rfl
    | ok a =>
      obtain ⟨vaddr, map⟩ := a
      obtain ⟨heap, hrun, hruns, hinv⟩ := h.largeArena hsize ha
      have hpage : getBlockArena (vaddr + ARENA_SIZE) = vaddr :=
        hinv.large_page (r := (vaddr, pagesFor size)) (List.mem_append_left _ (hruns ▸ List.mem_cons_self))
      exact .inl ⟨_, heap, _, _, hrun, hinv, hu.new hruns hpage⟩
  · rw [if_neg hlarge]
    have hsmall : size ≤ 1024 := Nat.le_of_not_lt hlarge
    obtain ⟨i, hi, hfind, hfits⟩ := findDesc_ok h.described hsmall 0 (by decide) (Nat.zero_add DESC_COUNT)
    have hassert : decide (L.desc i ≠ 0) = true := decide_eq_true (desc_ne_zero L i)
    have hempty : listEmpty s.heap.mem (L.desc i + FREE_LIST) = (free i).isEmpty := (h.lists i hi).empty hi
    have hcode : (do
        let desc := findDesc L s.heap.mem size DESC_COUNT 0 0
        Kernel.assert (desc ≠ 0)
        let heap ← if listEmpty s.heap.mem (desc + FREE_LIST) then Arena.newArena s.heap desc else pure s.heap
        Arena.popBlock heap desc) =
        if (free i).isEmpty then Arena.newArena s.heap (L.desc i) >>= fun heap => Arena.popBlock heap (L.desc i)
        else Arena.popBlock s.heap (L.desc i) := by
      rw [hfind, ← hempty]
      show (Kernel.assert (decide (L.desc i ≠ 0)) >>= _) = _
      rw [hassert]
      rfl
    rw [hcode, pagesFor_small hsmall]
    cases hfree : free i with
    | cons c F =>
      obtain ⟨heap, hrun, hruns, hinv⟩ := h.popBlock hi hfree hfits
      exact .inl ⟨c, heap, _, _, hrun, hinv, hu.cons hruns⟩
    | nil =>
      cases ha : Paging.allocKpage s.heap.map 1 with
      | error e =>
        refine .inr ⟨e, rfl, ?_⟩
        show (Arena.newArena s.heap (L.desc i) >>= _) = _
        unfold Arena.newArena Heap.allocKpage
        rw [ha]
        rfl
      | ok a =>
        obtain ⟨p, map⟩ := a
        obtain ⟨heap₁, hnew, hruns₁, hinv₁⟩ := h.newArena hi hfree ha
        have hblocks : (blocksFrom p i 0 (totalBlock i)).reverse ≠ [] := fun e => by
          have hlen := congrArg List.length e
          rw [List.length_reverse, blocksFrom, List.length_map, List.length_range'] at hlen
          exact Nat.ne_of_gt (totalBlock_pos hi) hlen
        obtain ⟨c, F, hcF⟩ := List.exists_cons_of_ne_nil hblocks
        obtain ⟨heap, hrun, hruns, hinv⟩ := hinv₁.popBlock hi
          ((Function.update_self ..).trans hcF) hfits
        have hpage : getBlockArena c = p := by
          have hp := hinv₁.kernelPage (r := (p, 1)) (hruns₁ ▸ List.mem_cons_self)
          have hc : c ∈ blocksFrom p i 0 (totalBlock i) := List.mem_reverse.mp (hcF ▸ List.mem_cons_self)
          obtain ⟨m, -, hm, rfl⟩ := mem_blocksFrom.mp hc
          exact (hp.block (by omega)).2
        refine .inl ⟨c, heap, _, _, ?_, hinv, hu.new (hruns.trans hruns₁) hpage⟩
        show (Arena.newArena s.heap (L.desc i) >>= _) = _
        rw [hnew]
        exact hrun

/-! ## 3. `kfree` -/

/-- The blocks in use, without one of them. -/
theorem mem_erase_live {live : List (Nat × Nat)} (hn : (live.map Prod.fst).Nodup) (hb : b ∈ live) (c : Nat) :
    c ∈ (live.erase b).map Prod.fst ↔ c ≠ b.1 ∧ c ∈ live.map Prod.fst := by
  have hnodup : live.Nodup := hn.of_map
  constructor
  · intro hc
    obtain ⟨b', hb', rfl⟩ := List.mem_map.mp hc
    obtain ⟨hne, hmem⟩ := hnodup.mem_erase_iff.mp hb'
    exact ⟨fun e => hne (List.inj_on_of_nodup_map hn hmem hb e), List.mem_map_of_mem hmem⟩
  · rintro ⟨hne, hc⟩
    obtain ⟨b', hb', rfl⟩ := List.mem_map.mp hc
    exact List.mem_map_of_mem (hnodup.mem_erase_iff.mpr ⟨fun e => hne (congrArg Prod.fst e), hb'⟩)

theorem nodup_erase_live {live : List (Nat × Nat)} (hn : (live.map Prod.fst).Nodup) (b : Nat × Nat) :
    ((live.erase b).map Prod.fst).Nodup :=
  hn.sublist (List.erase_sublist.map Prod.fst)

/-- **A block goes back on its list.** -/
theorem Inv.putBack (h : Inv L n s cls free) (hb : b ∈ s.live) (hi : i < DESC_COUNT)
    (hc : BlockOf s.heap.runs cls i b.1) (hp : getBlockArena b.1 = p) :
    ∃ mem, listPush s.heap.mem (L.head i) b.1 = .ok mem ∧
      (∀ q, KernelPage q → ∀ k < ARENA_SIZE, mem (q + k) = s.heap.mem (q + k)) ∧
      Inv L n ⟨⟨Function.update mem (p + COUNT) (freeIn (b.1 :: free i) p), s.heap.map, s.heap.runs⟩,
        s.live.erase b, s.others⟩ cls (Function.update free i (b.1 :: free i)) := by
  obtain ⟨hinner, hrun, hcls, -⟩ := h.blockOf hc
  rw [hp] at hrun hcls
  have hnew : b.1 ∉ free i := fun hf => ((h.free_iff i hi _).mp hf).2 (List.mem_map_of_mem hb)
  obtain ⟨mem, hpush, ho, hs⟩ := (h.lists i hi).push hi hinner hnew
  refine ⟨mem, hpush, fun q hq k hk => hs.header hi ho.inner hq hk, ?_⟩
  refine h.relist hi hrun hcls hp hc ho hs (fun c hc => List.mem_cons.mp hc)
    (fun c hne => List.mem_cons.trans (or_iff_right hne)) (iff_of_true List.mem_cons_self ?_)
    (fun c hne => ?_) (fun b' hb' => h.placed b' (List.mem_of_mem_erase hb')) (nodup_erase_live h.nodup b)
  · exact fun hc => ((mem_erase_live h.nodup hb _).mp hc).1 rfl
  · rw [mem_erase_live h.nodup hb]
    exact and_iff_right hne

/-- All blocks of the page are on the list when the count says so. -/
theorem blocks_of_count {F : List Nat} (hn : F.Nodup)
    (hF : ∀ c ∈ F, getBlockArena c = p → c ∈ blocksFrom p i 0 (totalBlock i))
    (hcount : freeIn F p = totalBlock i) : ∀ c ∈ blocksFrom p i 0 (totalBlock i), c ∈ F := by
  have hsub : F.filter (fun c => getBlockArena c = p) ⊆ blocksFrom p i 0 (totalBlock i) := fun c hc => by
    obtain ⟨hc, hpage⟩ := List.mem_filter.mp hc
    exact hF c hc (of_decide_eq_true hpage)
  have hlen : (blocksFrom p i 0 (totalBlock i)).length ≤ (F.filter fun c => getBlockArena c = p).length := by
    rw [blocksFrom, List.length_map, List.length_range']
    exact hcount.ge
  have hperm := ((hn.filter _).subperm hsub).perm_of_length_le hlen
  exact fun c hc => (List.mem_filter.mp (hperm.mem_iff.mpr hc)).1

/-- Every other run keeps its block in use. -/
theorem Used.erase (hu : Used s) (hr : r ∈ s.heap.runs) (hne : getBlockArena b.1 ≠ r.1) :
    ∃ b' ∈ s.live.erase b, getBlockArena b'.1 = r.1 := by
  obtain ⟨b', hb', e⟩ := hu r hr
  have hbb : b' ≠ b := by
    rintro rfl
    exact hne e
  exact ⟨b', (List.mem_erase_of_ne hbb).mpr hb', e⟩

/-- **A run is given back.** -/
theorem Inv.freeKpage (h : Inv L n s cls free) (hr : r ∈ s.heap.runs)
    (hlive : ∀ b ∈ s.live, getBlockArena b.1 ≠ r.1) {free' : Nat → List Nat} (hd : Described L mem)
    (hlists : ∀ i < DESC_COUNT, OnList L i (free' i) mem)
    (hfree : ∀ i < DESC_COUNT, ∀ c, c ∈ free' i ↔ c ∈ free i ∧ getBlockArena c ≠ r.1)
    (hw : ∀ q ∈ s.heap.runs, ∀ k < ARENA_SIZE, mem (q.1 + k) = s.heap.mem (q.1 + k)) :
    ∃ map, Heap.freeKpage ⟨mem, s.heap.map, s.heap.runs⟩ r.1 r.2 = .ok ⟨mem, map, s.heap.runs.erase r⟩ ∧
      Inv L n ⟨⟨mem, map, s.heap.runs.erase r⟩, s.live, s.others⟩ cls free' := by
  obtain ⟨map, hf, hinv⟩ := (h.release hr hlive hd hlists hfree hw).give List.mem_cons_self
  have hf : Paging.freeKpage s.heap.map r.1 r.2 = .ok map := hf
  have hinv : Inv L n ⟨⟨mem, map, s.heap.runs.erase r⟩, s.live, (r :: s.others).erase r⟩ cls free' := hinv
  rw [List.erase_cons_head] at hinv
  refine ⟨map, ?_, hinv⟩
  show (Paging.freeKpage s.heap.map r.1 r.2 >>= _) = _
  rw [hf]
  rfl

/-- **An arena without blocks in use is given back**, and its blocks go off the list. -/
theorem Inv.emptyArena (h : Inv L n s cls free) (hi : i < DESC_COUNT) (hrun : (p, 1) ∈ s.heap.runs)
    (hcls : cls p = some i) (hall : ∀ c ∈ blocksFrom p i 0 (totalBlock i), c ∈ free i) :
    ∃ mem map free', removeBlocks p (totalBlock i) 0 s.heap.mem = .ok mem ∧
      Heap.freeKpage ⟨mem, s.heap.map, s.heap.runs⟩ p 1 = .ok ⟨mem, map, s.heap.runs.erase (p, 1)⟩ ∧
      Inv L n ⟨⟨mem, map, s.heap.runs.erase (p, 1)⟩, s.live, s.others⟩ cls free' := by
  have hkp := h.kernelPage hrun
  have hlist := h.lists i hi
  have hdesc : s.heap.mem p = L.desc i := by
    have hrest := (h.header (p, 1) hrun).2
    rw [show cls (p, 1).1 = some i from hcls] at hrest
    exact hrest.2.2.1
  obtain ⟨mem, hremove, ho, hs⟩ := removeBlocks_ok h.described hi hdesc hkp hlist (Nat.zero_add _).le hall
  have hkeep : ∀ b ∈ s.live, getBlockArena b.1 ≠ p := fun b hb e => by
    obtain ⟨j, hj, hbj, -⟩ | ⟨q, hq, hqc, hb1, -⟩ := h.placed b hb
    · obtain ⟨-, -, hcj, hcb⟩ := h.blockOf hbj
      rw [e] at hcj hcb
      obtain rfl := Option.some.inj (hcj.symm.trans hcls)
      exact ((h.free_iff j hj b.1).mp (hall _ hcb)).2 (List.mem_map_of_mem hb)
    · rw [hb1, h.large_page (List.mem_append_left _ hq)] at e
      rw [e, hcls] at hqc
      cases hqc
  have hpage {j c : Nat} (hj : j < DESC_COUNT) (hc : c ∈ free j) (e : getBlockArena c = p) : j = i := by
    obtain ⟨-, -, hcj, -⟩ := h.blockOf ((h.free_iff j hj c).mp hc).1
    rw [e] at hcj
    exact Option.some.inj (hcj.symm.trans hcls)
  obtain ⟨free', hfree'⟩ : ∃ f, f = Function.update free i ((free i).diff (blocksFrom p i 0 (totalBlock i))) :=
    ⟨_, rfl⟩
  have hlists : ∀ j < DESC_COUNT, OnList L j (free' j) mem := fun j hj => by
    rw [hfree']
    by_cases e : j = i
    · subst e
      rw [Function.update_self]
      exact ho
    · rw [Function.update_of_ne e]
      refine (h.lists j hj).other hi hj (Ne.symm e) hlist.inner (fun c hc hcj => ?_) hs
      obtain ⟨-, -, hci, -⟩ := h.blockOf ((h.free_iff i hi c).mp hc).1
      obtain ⟨-, -, hcj, -⟩ := h.blockOf ((h.free_iff j hj c).mp hcj).1
      exact e (Option.some.inj (hcj.symm.trans hci))
  have hfree : ∀ j < DESC_COUNT, ∀ c, c ∈ free' j ↔ c ∈ free j ∧ getBlockArena c ≠ p := fun j hj c => by
    rw [hfree']
    by_cases e : j = i
    · subst e
      rw [Function.update_self, hlist.nodup.mem_sdiff_iff]
      refine and_congr_right fun hc => not_congr ⟨fun hcb => ?_, fun hcp => ?_⟩
      · obtain ⟨m, -, hm, rfl⟩ := mem_blocksFrom.mp hcb
        exact (hkp.block (by omega)).2
      · obtain ⟨-, -, -, hcb⟩ := h.blockOf ((h.free_iff j hj c).mp hc).1
        rwa [hcp] at hcb
    · rw [Function.update_of_ne e]
      exact (and_iff_left_of_imp fun hc hcp => e (hpage hj hc hcp)).symm
  obtain ⟨map, hf, hinv⟩ := h.freeKpage hrun hkeep (h.described.sameBut hlist.inner hs) hlists hfree
    fun q hq k hk => hs.header hi hlist.inner (h.kernelPage hq) hk
  exact ⟨mem, map, free', hremove, hf, hinv⟩

/-- **A block of a small arena is freed**; with the last one goes the page. -/
theorem Inv.pushBack (h : Inv L n s cls free) (hu : Used s) (hb : b ∈ s.live) (hi : i < DESC_COUNT)
    (hc : BlockOf s.heap.runs cls i b.1) (hp : getBlockArena b.1 = p) :
    ∃ heap cls' free', Arena.pushBack s.heap p b.1 = .ok heap ∧
      Inv L n ⟨heap, s.live.erase b, s.others⟩ cls' free' ∧ Used ⟨heap, s.live.erase b, s.others⟩ := by
  obtain ⟨p', hrun, hcls, hpage, hkp, -, hdesc, -, -, hcount⟩ := h.arena hc
  obtain rfl : p' = p := hpage.symm.trans hp
  obtain ⟨mem, hpush, hword, hinv⟩ := h.putBack hb hi hc hp
  obtain ⟨F, hF⟩ : ∃ F, F = b.1 :: free i := ⟨_, rfl⟩
  obtain ⟨mem₁, hmem₁⟩ : ∃ m, m = Function.update mem (p' + COUNT) (freeIn F p') := ⟨_, rfl⟩
  obtain ⟨s₁, hs₁⟩ : ∃ s₁ : State, s₁ = ⟨⟨mem₁, s.heap.map, s.heap.runs⟩, s.live.erase b, s.others⟩ := ⟨_, rfl⟩
  obtain ⟨free₁, hfree₁⟩ : ∃ f, f = Function.update free i F := ⟨_, rfl⟩
  have hF₁ : free₁ i = F := by rw [hfree₁, Function.update_self]
  rw [← hF, ← hmem₁, ← hs₁, ← hfree₁] at hinv
  have hruns : s₁.heap.runs = s.heap.runs := by rw [hs₁]
  have hlive : s₁.live = s.live.erase b := by rw [hs₁]
  have hmem : s₁.heap.mem = mem₁ := by rw [hs₁]
  have hlist := hinv.lists i hi
  have hblocks : ∀ c ∈ F, getBlockArena c = p' → c ∈ blocksFrom p' i 0 (totalBlock i) := fun c hc hcp => by
    obtain ⟨-, -, -, hcb⟩ := hinv.blockOf ((hinv.free_iff i hi c).mp (hF₁ ▸ hc)).1
    rwa [hcp] at hcb
  rw [hF₁, hmem] at hlist
  -- the code reads the count and the number of blocks behind the list's words
  have hmore : (mem (p' + COUNT) + 1) % 2 ^ 32 = freeIn F p' := by
    have hlt := freeIn_lt hlist p'
    rw [hF, freeIn_cons, if_pos hp] at hlt ⊢
    rw [hword p' hkp COUNT (by decide), hcount]
    unfold NODES at hlt
    omega
  have htotal : mem₁ (mem₁ p') = totalBlock i := by
    have hdesc₁ : mem₁ p' = L.desc i := by
      rw [hmem₁, Function.update_of_ne (by unfold COUNT; omega)]
      exact (hword p' hkp 0 (by decide)).trans hdesc
    rw [hdesc₁, ← hmem]
    exact (hinv.described i hi).1
  have hcount₁ : mem₁ (p' + COUNT) = freeIn F p' := by
    rw [hmem₁, Function.update_self]
  have hcode : Arena.pushBack s.heap p' b.1 = if freeIn F p' = totalBlock i then
      removeBlocks p' (totalBlock i) 0 mem₁ >>= fun mem₂ => Heap.freeKpage ⟨mem₂, s.heap.map, s.heap.runs⟩ p' 1
      else pure ⟨mem₁, s.heap.map, s.heap.runs⟩ := by
    unfold Arena.pushBack
    rw [hdesc]
    show (listPush s.heap.mem (L.head i) b.1 >>= _) = _
    rw [hpush]
    show (if Function.update mem (p' + COUNT) ((mem (p' + COUNT) + 1) % 2 ^ 32) (p' + COUNT) = _ then _ else _) = _
    rw [hmore, ← hmem₁, hcount₁, htotal]
  rw [hcode]
  by_cases hfull : freeIn F p' = totalBlock i
  · have hall := blocks_of_count hlist.nodup hblocks hfull
    obtain ⟨mem₂, map, free₂, hremove, hfree, hinv₂⟩ := hinv.emptyArena hi (hruns ▸ hrun) hcls (hF₁ ▸ hall)
    subst hs₁
    refine ⟨_, cls, free₂, ?_, hinv₂, fun r hr => ?_⟩
    · have hremove : removeBlocks p' (totalBlock i) 0 mem₁ = .ok mem₂ := hremove
      rw [if_pos hfull, hremove]
      exact hfree
    · obtain ⟨hne, hr⟩ := ((List.nodup_append.mp h.marked.nodup).1.mem_erase_iff).mp hr
      exact hu.erase hr fun e => hne (h.run_inj hr (List.mem_append_left _ hrun) (e.symm.trans hp))
  · refine ⟨_, cls, free₁, if_neg hfull, hs₁ ▸ hinv, fun r hr => ?_⟩
    by_cases e : r.1 = p'
    · -- a block of the page is not on the list, so it is in use
      obtain ⟨c, hcb, hcF⟩ : ∃ c ∈ blocksFrom p' i 0 (totalBlock i), c ∉ F := by
        by_contra hno
        refine hfull ?_
        rw [← freeIn_all hkp i]
        refine freeIn_congr hlist.nodup (List.nodup_reverse.mpr nodup_blocksFrom) fun c hcp => ?_
        rw [List.mem_reverse]
        exact ⟨fun hc => hblocks c hc hcp, fun hc => by_contra fun hf => hno ⟨c, hc, hf⟩⟩
      have huse : c ∈ s₁.live.map Prod.fst := by
        by_contra hno
        exact hcF (hF₁ ▸ (hinv.free_iff i hi c).mpr ⟨⟨p', hruns ▸ hrun, hcls, hcb⟩, hno⟩)
      obtain ⟨b', hb', hbc⟩ := List.mem_map.mp (hlive ▸ huse)
      obtain ⟨m, -, hm, rfl⟩ := mem_blocksFrom.mp hcb
      exact ⟨b', hb', by rw [hbc, (hkp.block (by omega)).2, e]⟩
    · exact hu.erase hr fun hpb => e (hpb.symm.trans hp)

/-- The large block of a run is its only one. -/
theorem Inv.large_alone (h : Inv L n s cls free) (hc : cls r.1 = none) {b' : Nat × Nat}
    (hb' : b' ∈ s.live) (e : getBlockArena b'.1 = r.1) : b'.1 = r.1 + ARENA_SIZE := by
  obtain ⟨j, hj, hbj, -⟩ | ⟨q, hq, -, hb1, -⟩ := h.placed b' hb'
  · obtain ⟨-, -, hcj, -⟩ := h.blockOf hbj
    rw [e, hc] at hcj
    cases hcj
  · rw [hb1, h.large_page (List.mem_append_left _ hq)] at e
    rw [hb1, e]

/-- A large block goes out of use. -/
theorem Inv.disuse (h : Inv L n s cls free) (hb : b ∈ s.live)
    (hlarge : ∀ i < DESC_COUNT, ¬ BlockOf s.heap.runs cls i b.1) :
    Inv L n { s with live := s.live.erase b } cls free := by
  refine ⟨h.marked, h.described, h.lists, h.header, fun i hi c => ?_,
    fun b' hb' => h.placed b' (List.mem_of_mem_erase hb'), nodup_erase_live h.nodup b⟩
  rw [h.free_iff i hi c]
  refine and_congr_right fun hc => not_congr ?_
  rw [mem_erase_live h.nodup hb]
  exact (and_iff_right fun (e : c = b.1) => hlarge i hi (e ▸ hc)).symm

/-- **A call of `kfree`** with a block in use. -/
theorem Inv.kfree (h : Inv L n s cls free) (hu : Used s) (hb : b ∈ s.live) :
    ∃ heap cls' free', Arena.kfree s.heap b.1 = .ok heap ∧ Inv L n ⟨heap, s.live.erase b, s.others⟩ cls' free' ∧
      Used ⟨heap, s.live.erase b, s.others⟩ := by
  have hcode {p v : Nat} (hp : getBlockArena b.1 = p) (hpos : b.1 ≠ 0) (hv : v = 1 ∨ v = 0)
      (hlarge : s.heap.mem (p + LARGE) = v) (hmagic : s.heap.mem (p + MAGIC) = YUI_MAGIC) :
      Arena.kfree s.heap b.1 =
        if v ≠ 0 then s.heap.freeKpage p (s.heap.mem (p + COUNT)) else Arena.pushBack s.heap p b.1 := by
    unfold Arena.kfree
    dsimp only
    rw [hp, hlarge, hmagic, decide_eq_true hpos, decide_eq_true hv]
    rfl
  obtain ⟨i, hi, hc, -⟩ | ⟨r, hr, hc, hb1, -⟩ := h.placed b hb
  · obtain ⟨p, hrun, hcls, hpage, hkp, -, -, hlarge, hmagic, -⟩ := h.arena hc
    obtain ⟨heap, cls', free', hrun, hinv⟩ := h.pushBack hu hb hi hc hpage
    have hpos : b.1 ≠ 0 := node_pos (L := L) (.inr (h.blockOf hc).1)
    refine ⟨heap, cls', free', ?_, hinv⟩
    rw [hcode hpage hpos (.inr rfl) hlarge hmagic]
    exact hrun
  · have hpage : getBlockArena b.1 = r.1 := by rw [hb1, h.large_page (List.mem_append_left _ hr)]
    obtain ⟨hmagic, hrest⟩ := h.header r hr
    rw [hc] at hrest
    obtain ⟨hlarge, hcount⟩ := hrest
    have hpos : b.1 ≠ 0 := by
      rw [hb1]
      unfold ARENA_SIZE
      omega
    have hnot : ∀ i < DESC_COUNT, ¬ BlockOf s.heap.runs cls i b.1 := fun i hi hbi => by
      obtain ⟨-, -, hci, -⟩ := h.blockOf hbi
      rw [hpage, hc] at hci
      cases hci
    have hnodup : s.live.Nodup := h.nodup.of_map
    have hinv := h.disuse hb hnot
    have hkeep : ∀ b' ∈ s.live.erase b, getBlockArena b'.1 ≠ r.1 := fun b' hb' e => by
      -- another block of the run would be the same block
      obtain ⟨hne, hmem⟩ := hnodup.mem_erase_iff.mp hb'
      exact hne (List.inj_on_of_nodup_map h.nodup hmem hb ((h.large_alone hc hmem e).trans hb1.symm))
    have hlists : ∀ i < DESC_COUNT, ∀ c, c ∈ free i ↔ c ∈ free i ∧ getBlockArena c ≠ r.1 := fun i hi c => by
      refine (and_iff_left_of_imp fun hci hcp => ?_).symm
      obtain ⟨-, -, hci, -⟩ := h.blockOf ((h.free_iff i hi c).mp hci).1
      rw [hcp, hc] at hci
      cases hci
    obtain ⟨map, hfree, hinv⟩ := hinv.freeKpage hr hkeep hinv.described hinv.lists hlists fun q _ k _ => rfl
    refine ⟨_, cls, free, ?_, hinv, fun q hq => ?_⟩
    · rw [hcode hpage hpos (.inl rfl) hlarge hmagic, hcount]
      exact hfree
    · obtain ⟨hne, hq⟩ := ((List.nodup_append.mp h.marked.nodup).1.mem_erase_iff).mp hq
      exact hu.erase hq fun e => hne (h.run_inj hq (List.mem_append_left _ hr) (e.symm.trans hpage))

end Calls

/-! ## 4. `arena_init` -/

section Start

variable {L : Layout} {n i j pages : Nat} {mem mem' : Nat → Nat}

/-- The descriptor is set up, and its list is empty. -/
structure DescReady (L : Layout) (mem : Nat → Nat) (j : Nat) : Prop where
  total : mem (L.desc j) = totalBlock j
  size : mem (L.desc j + BLOCK_SIZE_AT) = blockSize j
  list : OnList L j [] mem

/-- A descriptor is its six words. -/
theorem DescReady.congr (h : DescReady L mem j) (hw : ∀ k < DESC_SIZE, mem' (L.desc j + k) = mem (L.desc j + k)) :
    DescReady L mem' j := by
  refine ⟨(hw 0 (by decide)).trans h.total, (hw BLOCK_SIZE_AT (by decide)).trans h.size, ?_⟩
  refine h.list.congr fun a ha => ?_
  obtain rfl | rfl | ha := ha
  · exact ⟨hw FREE_LIST (by decide), hw (FREE_LIST + NEXT) (by decide)⟩
  · exact ⟨hw (FREE_LIST + TAIL) (by decide), hw (FREE_LIST + TAIL + NEXT) (by decide)⟩
  · exact absurd ha List.not_mem_nil

/-- One round of the loop. -/
def initDesc (L : Layout) (i : Nat) (mem : Nat → Nat) : Nat → Nat :=
  listInit (Function.update (Function.update mem (L.desc i + BLOCK_SIZE_AT) (blockSize i)) (L.desc i)
    ((PAGE_SIZE - ARENA_SIZE) / blockSize i)) (L.desc i + FREE_LIST)

theorem initDesc_ready (L : Layout) (i : Nat) (mem : Nat → Nat) : DescReady L (initDesc L i mem) i := by
  refine ⟨?_, ?_, ⟨?_, ?_, trivial⟩, List.nodup_nil, nofun⟩
  · unfold initDesc listInit FREE_LIST TAIL NEXT
    rw [Function.update_of_ne (by omega), Function.update_of_ne (by omega), Function.update_of_ne (by omega),
      Function.update_of_ne (by omega), Function.update_self]
    rfl
  · simp [initDesc, listInit, FREE_LIST, TAIL, NEXT, BLOCK_SIZE_AT]
  · simp [initDesc, listInit, Layout.head, Layout.tail, FREE_LIST, TAIL, NEXT]
  · simp [initDesc, listInit, Layout.head, Layout.tail, FREE_LIST, TAIL]

/-- A round writes to its descriptor only. -/
theorem initDesc_other {a : Nat} (ha : ¬ (L.desc i ≤ a ∧ a < L.desc i + DESC_SIZE)) : initDesc L i mem a = mem a := by
  unfold DESC_SIZE at ha
  unfold initDesc listInit BLOCK_SIZE_AT FREE_LIST TAIL NEXT
  rw [Function.update_of_ne (by omega), Function.update_of_ne (by omega), Function.update_of_ne (by omega),
    Function.update_of_ne (by omega), Function.update_of_ne (by omega), Function.update_of_ne (by omega)]

theorem arenaInitLoop_ready (h : ∀ j < i, DescReady L mem j) :
    ∀ j < i + n, DescReady L (arenaInitLoop L n i (blockSize i) mem) j := by
  induction n generalizing i mem with
  | zero => exact h
  | succ n ih =>
    have hsize : blockSize i <<< 1 = blockSize (i + 1) := by
      rw [blockSize_eq, blockSize_eq, Nat.shiftLeft_eq, Nat.pow_succ]
      ring
    have hstep : ∀ j < i + 1, DescReady L (initDesc L i mem) j := fun j hj => by
      by_cases e : j = i
      · exact e ▸ initDesc_ready L i mem
      · refine (h j (by omega)).congr fun k hk => initDesc_other ?_
        rw [desc_eq, desc_eq]
        unfold DESC_SIZE at *
        omega
    have hloop := ih hstep
    rw [← hsize, Nat.add_right_comm, Nat.add_assoc] at hloop
    exact hloop

/-- **What `arena_init` leaves.** -/
theorem arenaInit_ready (L : Layout) (mem : Nat → Nat) : ∀ j < DESC_COUNT, DescReady L (arenaInit L mem) j := by
  have h : ∀ j < 0 + DESC_COUNT, DescReady L (arenaInit L mem) j := arenaInitLoop_ready nofun
  rwa [Nat.zero_add] at h

/-- The heap begins without pages. -/
theorem inv_init {map : Bitmap} (hlow : KERNEL_MEMORY_SIZE / PAGE_SIZE + MEMORY_BASE / PAGE_SIZE ≤ pages)
    (hhigh : pages ≤ 2 ^ 20) (h : memoryMapInit pages = .ok map) :
    Inv L (divRoundUp pages PAGE_SIZE) ⟨⟨arenaInit L mem, map, []⟩, [], []⟩ (fun _ => none) fun _ => [] where
  marked := memoryMapInit_marked hlow hhigh h
  described := fun j hj => ⟨(arenaInit_ready L mem j hj).total, (arenaInit_ready L mem j hj).size⟩
  lists := fun j hj => (arenaInit_ready L mem j hj).list
  header := nofun
  free_iff := fun _ _ _ => iff_of_false List.not_mem_nil fun ⟨⟨_, hp, _⟩, _⟩ => absurd hp List.not_mem_nil
  placed := nofun
  nodup := List.nodup_nil

/-! ## 5. Every state -/

/-- **The invariant holds in every state.** -/
theorem reached_inv {s : State} (h : Reached L pages s) :
    ∃ cls free, Inv L (divRoundUp pages PAGE_SIZE) s cls free ∧ Used s := by
  induction h with
  | init mem map hlow hhigh h => exact ⟨_, _, inv_init hlow hhigh h, nofun⟩
  | kmalloc _ size ptr heap hsize h ih =>
    obtain ⟨cls, free, hinv, hu⟩ := ih
    obtain ⟨_, _, cls', free', hok, hinv', hu'⟩ | ⟨e, -, herr⟩ := hinv.kmalloc hu hsize
    · cases h.symm.trans hok
      exact ⟨cls', free', hinv', hu'⟩
    · cases h.symm.trans herr
  | kfree _ b heap hb h ih =>
    obtain ⟨cls, free, hinv, hu⟩ := ih
    obtain ⟨_, cls', free', hok, hinv', hu'⟩ := hinv.kfree hu hb
    cases h.symm.trans hok
    exact ⟨cls', free', hinv', hu'⟩
  | write _ a v ha ih =>
    obtain ⟨cls, free, hinv, hu⟩ := ih
    exact ⟨cls, free, hinv.write ha, hu⟩
  | take _ count vaddr map h ih =>
    obtain ⟨cls, free, hinv, hu⟩ := ih
    exact ⟨cls, free, hinv.take h, hu⟩
  | give _ r map hr h ih =>
    obtain ⟨cls, free, hinv, hu⟩ := ih
    obtain ⟨map', hf, hinv'⟩ := hinv.give hr
    cases h.symm.trans hf
    exact ⟨cls, free, hinv', hu⟩

/-! ## 6. The heap is sound -/

/-- The blocks on the free list of a descriptor. -/
def freeBlocks (mem : Nat → Nat) (desc : Nat) : List Nat :=
  let list := desc + FREE_LIST
  Chain.collect NEXT mem (list + TAIL) NODES (mem (list + NEXT))

/-- What the callers of `kmalloc` and `kfree` rely on. -/
structure Sound (L : Layout) (pages : Nat) (s : State) : Prop where
  inside : ∀ b ∈ s.live, ∃ r ∈ s.heap.runs, r.1 + ARENA_SIZE ≤ b.1 ∧ b.1 + b.2 ≤ r.1 + r.2 * PAGE_SIZE
  apart : s.live.Pairwise fun b b' => b.1 ≠ b'.1 ∧ (b.1 + b.2 ≤ b'.1 ∨ b'.1 + b'.2 ≤ b.1)
  headers : ∀ b ∈ s.live, ∀ r ∈ s.heap.runs, b.1 + b.2 ≤ r.1 ∨ r.1 + ARENA_SIZE ≤ b.1
  counts : ∀ r ∈ s.heap.runs, s.heap.mem (r.1 + LARGE) = 0 →
    s.heap.mem (r.1 + COUNT) = freeIn (freeBlocks s.heap.mem (s.heap.mem r.1)) r.1
  /-- `kmalloc` stops only where `alloc_kpage` does, -/
  stops : ∀ size < 15 * 2 ^ 20, (∃ ptr heap, kmalloc L s.heap size = .ok (ptr, heap)) ∨
    ∃ e, Paging.allocKpage s.heap.map (pagesFor size) = .error e ∧ kmalloc L s.heap size = .error e
  /-- and not where there are pages in a row. -/
  succeeds : ∀ size < 15 * 2 ^ 20, ∀ i, i + pagesFor size ≤ kernelBits →
    ClearRun s.heap.map i (pagesFor size) → ∃ ptr heap, kmalloc L s.heap size = .ok (ptr, heap)
  frees : ∀ b ∈ s.live, ∃ heap, kfree s.heap b.1 = .ok heap
  /-- The heap's runs and those of others are taken, and no other page is. -/
  marked : Marked (divRoundUp pages PAGE_SIZE) ⟨s.heap.map, s.heap.runs ++ s.others⟩
  /-- Without blocks there are the others' pages only. -/
  returned : s.live = [] → Marked (divRoundUp pages PAGE_SIZE) ⟨s.heap.map, s.others⟩

theorem pagesFor_pos {size : Nat} (hsize : size < 15 * 2 ^ 20) : 0 < pagesFor size := by
  unfold pagesFor divRoundUp ARENA_SIZE PAGE_SIZE
  omega

/-- The walk along a list finds its blocks. -/
theorem OnList.freeBlocks {F : List Nat} (h : OnList L i F mem) (hi : i < DESC_COUNT) :
    Arena.freeBlocks mem (L.desc i) = F := by
  have htail : L.tail i ∉ F := fun ht => ((h.inner _ ht).not_static hi).2 rfl
  obtain ⟨hnext, hlinked⟩ := h.start
  show Chain.collect NEXT mem (L.tail i) NODES (mem (L.head i + NEXT)) = F
  rw [hnext]
  exact Chain.collect_linked hlinked htail h.length_lt

/-- **The heap is sound in every state of every run.** -/
theorem arena_sound {s : State} (h : Reached L pages s) : Sound L pages s := by
  obtain ⟨cls, free, hinv, hu⟩ := reached_inv h
  have hstops : ∀ size < 15 * 2 ^ 20, (∃ ptr heap, kmalloc L s.heap size = .ok (ptr, heap)) ∨
      ∃ e, Paging.allocKpage s.heap.map (pagesFor size) = .error e ∧ kmalloc L s.heap size = .error e :=
    fun size hsize => (hinv.kmalloc hu hsize).imp_left fun ⟨ptr, heap, _, _, hok, _⟩ => ⟨ptr, heap, hok⟩
  refine ⟨fun b hb => ?_, ?_, fun b hb r hr => hinv.live_header hb hr, fun r hr hlarge => ?_, hstops,
    fun size hsize i hi hclear => ?_, fun b hb => ?_, hinv.marked, fun hnil => ?_⟩
  · obtain ⟨r, hr, -, hlow, hhigh⟩ := hinv.span hb
    exact ⟨r, hr, hlow, hhigh⟩
  · refine (List.pairwise_map.mp hinv.nodup).imp_of_mem fun hb hb' hne => ⟨hne, hinv.live_apart hb hb' hne⟩
  · obtain ⟨-, hrest⟩ := hinv.header r hr
    cases hc : cls r.1 with
    | none =>
      rw [hc] at hrest
      exact absurd (hrest.1.symm.trans hlarge) Nat.one_ne_zero
    | some i =>
      rw [hc] at hrest
      obtain ⟨hi, -, hdesc, -, hcount⟩ := hrest
      rw [hcount, hdesc, (hinv.lists i hi).freeBlocks hi]
  · obtain hok | ⟨e, he, -⟩ := hstops size hsize
    · exact hok
    · obtain ⟨vaddr, map, hok⟩ := allocKpage_ok hinv.marked (pagesFor_pos hsize) hi hclear
      cases he.symm.trans hok
  · obtain ⟨heap, -, -, hok, -⟩ := hinv.kfree hu hb
    exact ⟨heap, hok⟩
  · have hruns : s.heap.runs = [] := List.eq_nil_iff_forall_not_mem.mpr fun r hr => by
      obtain ⟨b, hb, -⟩ := hu r hr
      rw [hnil] at hb
      cases hb
    have hmarked := hinv.marked
    rwa [hruns, List.nil_append] at hmarked

end Start

/-- `descriptors` at 128 KiB. -/
def sampleLayout : Layout where
  descriptors := 0x20000
  pos := by decide
  aligned := by decide
  low := by decide

/-- The first block of a machine with 4400 frames. -/
theorem arena_sound_first : ∃ s, Reached sampleLayout 4400 s ∧ s.live ≠ [] ∧ Sound sampleLayout 4400 s := by
  obtain ⟨map, hm⟩ := memoryMapInit_sample
  have hmap : Allocated 4400 ⟨map, []⟩ := .init map (by decide) (by decide) hm
  have h₀ : Reached sampleLayout 4400 ⟨⟨arenaInit sampleLayout fun _ => 0, map, []⟩, [], []⟩ :=
    .init _ map (by decide) (by decide) hm
  obtain ⟨ptr, heap, hok⟩ := (arena_sound h₀).succeeds 24 (by decide) 2 (by decide)
    (allocated_clear hmap 2 _ (Nat.le_refl 2))
  have h₁ := h₀.kmalloc 24 ptr heap (by decide) hok
  exact ⟨_, h₁, List.cons_ne_nil _ _, arena_sound h₁⟩

end Yuios.Paging.Arena
