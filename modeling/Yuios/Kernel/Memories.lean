/-
  File:      Yuios/Kernel/Memories.lean
  Subject:   EVERY PROCESS HAS A MEMORY OF ITS OWN, in every run: copy on write, the page faults and the
             calls of `kernel/memory.c` against an abstract machine without frames.

  * `Memory`, `Task`, `Task.Does`, `Acts` -- the abstract machine: a process has a memory, and what it does
    changes this one memory; a child begins with a copy of its parent's.
  * `linkPage_memory` to `pageFault_memory` -- what each call does to the memory of the process that acts.
  * `StoresOwn` -- what a store has to meet: one in user mode a page that is not shared on purpose, one of
    the kernel a page that no other process has (`KernelStore.lean` says why).
  * **`memories_refined`** -- every run of the frames and tables is one of the abstract machine.
-/
import Yuios.Kernel.Mapping

namespace Yuios.Paging

open Lib Relation
open Kernel (of_assert)

/-! ## 1. The abstract machine -/

/-- What a process reads: the word at an address, if there is a page. -/
abbrev Memory := Nat → Option Word

/-- The word at `v` is written. -/
def Memory.store (μ : Memory) (v : Nat) (w : Word) : Memory := fun u => if u / 4 = v / 4 then some w else μ u

/-- The pages `L` are given up. -/
def Memory.drop (μ : Memory) (L : Nat → Prop) [DecidablePred L] : Memory := fun u => if L (IDX u) then none else μ u

/-- Pages of `N` may be new, and nothing else changes. -/
def Extends (N : Nat → Prop) (μ μ' : Memory) : Prop := ∀ u, μ' u = μ u ∨ μ u = none ∧ N (IDX u)

instance (v n : Nat) : DecidablePred (Within v n) := fun k => inferInstanceAs (Decidable (IDX v ≤ k ∧ k < IDX v + n))

/-- A process: its memory, its heap, and the segment that is being loaded. -/
structure Task where
  memory : Memory
  brk : Nat
  segment : Option Segment

/-- The address that is read or written. -/
def Task.access (t : Task) : Action → Option Nat
  | .load _ v | .userStore _ v _ | .kernelStore _ v _ | .segmentZero _ v _ => some v
  | .segmentWord _ i _ => t.segment.map (·.word i)
  | _ => none

/-- The word that is written. -/
def Task.written : Action → Option Word
  | .userStore _ _ w | .kernelStore _ _ w | .segmentWord _ _ w | .segmentZero _ _ w => some w
  | _ => none

/-- **What a process does to its own memory.** -/
inductive Task.Does (t : Task) : Action → Task → Prop where
  /-- A load; or an access that has faulted, and is made once more. -/
  | touch (a : Action) (v : Nat) (μ : Memory) (ha : t.access a = some v) (h : Extends (· = IDX v) t.memory μ) :
      Does t a { t with memory := μ }
  | store (a : Action) (v : Nat) (w : Word) (ha : t.access a = some v) (hw : Task.written a = some w)
      (h : (t.memory v).isSome) : Does t a { t with memory := t.memory.store v w }
  | mmap (p addr length v : Nat) (fl : MapFlags) (μ : Memory) (hv : addr ≠ 0 → v = addr)
      (h : Extends (Within v (divRoundUp length PAGE_SIZE)) t.memory μ)
      (hall : ∀ u, Within v (divRoundUp length PAGE_SIZE) (IDX u) → (μ u).isSome) :
      Does t (.mmap p addr length fl) { t with memory := μ }
  | munmap (p addr length : Nat) :
      Does t (.munmap p addr length)
        { t with memory := t.memory.drop (Within addr (divRoundUp length PAGE_SIZE)) }
  | shrink (p addr : Nat) (hlow : USER_EXEC_ADDR ≤ addr) (h : addr < t.brk) :
      Does t (.brk p addr)
        { t with memory := t.memory.drop (Within addr (divRoundUp (t.brk - addr) PAGE_SIZE)), brk := addr }
  | grow (p addr : Nat) (hlow : USER_EXEC_ADDR ≤ addr) (h : t.brk ≤ addr) : Does t (.brk p addr) { t with brk := addr }
  | refuse (p addr : Nat) (h : t.brk ≤ addr) : Does t (.brk p addr) t
  | execve (p : Nat) (μ : Memory)
      (h : Extends (· = IDX USER_EXEC_ADDR)
        (t.memory.drop (Within USER_EXEC_ADDR (divRoundUp (t.brk - USER_EXEC_ADDR) PAGE_SIZE))) μ) :
      Does t (.execve p) { t with memory := μ, brk := USER_EXEC_ADDR }
  /-- The program header is in the process's own memory, each time it is read. -/
  | loadSegment (p ptr : Nat) (ph : Phdr) (μ : Memory) (hph : headerAt t.memory ptr = some ph)
      (h : Extends (Within ph.vaddr ph.pages) t.memory μ) :
      Does t (.loadSegment p ptr ph) { t with memory := μ, segment := some ⟨ptr, ph, none⟩ }
  | readAgain (p : Nat) (ph : Phdr) (sg : Segment) (hsg : t.segment = some sg)
      (hph : headerAt t.memory sg.ptr = some ph) : Does t (.readAgain p ph) { t with segment := some (sg.again ph) }
  | endSegment (p : Nat) (ph : Phdr) (sg : Segment) (hsg : t.segment = some sg)
      (hph : headerAt t.memory sg.ptr = some ph) : Does t (.endSegment p ph) { t with segment := none }

/-- **What an action does to the processes**: it changes the one that acts. -/
inductive Acts (T : Nat → Option Task) : Action → (Nat → Option Task) → Prop where
  | start (c : Nat) (hc : T c = none) :
      Acts T (.start c) (Function.update T c (some ⟨fun _ => none, USER_EXEC_ADDR, none⟩))
  /-- The child has what its parent has. -/
  | fork (p c : Nat) (t : Task) (hp : T p = some t) (hc : T c = none) :
      Acts T (.fork p c) (Function.update T c (some { t with segment := none }))
  | own (a : Action) (t t' : Task) (hp : T a.actor = some t) (h : t.Does a t') :
      Acts T a (Function.update T a.actor (some t'))
  | exit (p : Nat) : Acts T (.exit p) (Function.update T p none)
  /-- A page fault outside the user's memory ends the process. -/
  | killed (a : Action) (t : Task) (v : Nat) (hp : T a.actor = some t) (ha : t.access a = some v)
      (hv : v < USER_EXEC_ADDR ∨ USER_STACK_TOP ≤ v) : Acts T a (Function.update T a.actor none)

/-- Actions one after the other, from a machine without processes. -/
inductive Acted : List Action → (Nat → Option Task) → Prop where
  | start : Acted [] fun _ => none
  | act {as : List Action} {a : Action} {T T' : Nat → Option Task} (h : Acted as T) (ha : Acts T a T') :
      Acted (as ++ [a]) T'

/-! ## 2. The memory of an address space -/

/-- What the user reads. -/
def Space.memory (S : Space) : Memory := fun v => if USER_EXEC_ADDR ≤ v ∧ v < SELF_MAP then S.read v else none

section Space

variable {A : Finset Nat} {N : Nat → Prop} {S S' S₁ : Space} {u v g n d free : Nat} {e : Word} {μ μ' μ₁ : Memory}

theorem memory_user (hv : UserAddr v) : S.memory v = (S.frameAt v).map fun g => S.mem.frame g (WIDX v) := by
  have h : S.memory v = S.read v := if_pos hv
  rw [h, Space.read, mapped_frameAt]
  cases h : S.frameAt v with
  | none => rfl
  | some g => rw [(frameAt_some.mp h).2]; rfl

theorem memory_kernel (hv : ¬UserAddr v) : S.memory v = none := if_neg hv

/-- A page of the process is no table of anybody, and is counted. -/
theorem Fits.page (hf : Fits A S) (hv : UserAddr v) (h : S.frameAt v = some g) :
    g ∉ A ∪ tables S.pde FIRST_SLOT LAST_SLOT ∧ S.mem.memoryMap g ≠ 0 := by
  obtain ⟨hmap, rfl⟩ := frameAt_some.mp h
  rw [Space.mapped, Bool.and_eq_true] at hmap
  obtain ⟨hpos, hno⟩ := hf.counted.entry (table_mem hv hmap.1) (tidx_lt v) (target_present hmap.2)
  exact ⟨hno, hpos.ne'⟩

/-- The same pages, and what was in them. -/
theorem memory_same (hk : Keeps N S S') (hN : ∀ u, UserAddr u → N (IDX u) → S'.frameAt u = S.frameAt u)
    (hframe : ∀ u g, UserAddr u → S.frameAt u = some g → S'.mem.frame g = S.mem.frame g) :
    S'.memory = S.memory := by
  funext u
  by_cases hu : UserAddr u
  · have he : S'.frameAt u = S.frameAt u := by
      by_cases hn : N (IDX u)
      · exact hN u hu hn
      · exact hk.pages u hu hn
    rw [memory_user hu, memory_user hu, he]
    cases h : S.frameAt u with
    | none => rfl
    | some g => rw [Option.map_some, Option.map_some, hframe u g hu h]
  · rw [memory_kernel hu, memory_kernel hu]

/-- The pages of `N` were not there. -/
theorem memory_grows (hk : Keeps N S S') (hN : ∀ u, UserAddr u → N (IDX u) → S.frameAt u = none)
    (hframe : ∀ u g, UserAddr u → S.frameAt u = some g → S'.mem.frame g = S.mem.frame g) :
    Extends N S.memory S'.memory := by
  intro u
  by_cases hu : UserAddr u
  · by_cases hn : N (IDX u)
    · exact .inr ⟨by rw [memory_user hu, hN u hu hn]; rfl, hn⟩
    · left
      rw [memory_user hu, memory_user hu, hk.pages u hu hn]
      cases h : S.frameAt u with
      | none => rfl
      | some g => rw [Option.map_some, Option.map_some, hframe u g hu h]
  · exact .inl ((memory_kernel hu).trans (memory_kernel hu).symm)

/-- The pages of `N` are gone. -/
theorem memory_drop [DecidablePred N] (hk : Keeps N S S') (hN : ∀ u, UserAddr u → N (IDX u) → S'.frameAt u = none)
    (hframe : ∀ u g, UserAddr u → S.frameAt u = some g → S'.mem.frame g = S.mem.frame g) :
    S'.memory = S.memory.drop N := by
  funext u
  unfold Memory.drop
  by_cases hu : UserAddr u
  · split
    · next hn => rw [memory_user hu, hN u hu hn]; rfl
    · next hn =>
        rw [memory_user hu, memory_user hu, hk.pages u hu hn]
        cases h : S.frameAt u with
        | none => rfl
        | some g => rw [Option.map_some, Option.map_some, hframe u g hu h]
  · rw [memory_kernel hu, memory_kernel hu, ite_self]

theorem Extends.refl (N : Nat → Prop) (μ : Memory) : Extends N μ μ := fun _ => .inl rfl

theorem Extends.of_eq (h : μ' = μ) : Extends N μ μ' := fun u => .inl (congrFun h u)

theorem Extends.trans (h : Extends N μ μ₁) (h' : Extends N μ₁ μ') : Extends N μ μ' := by
  intro u
  rcases h u with e | ⟨e, hn⟩
  · rcases h' u with e' | ⟨e', hn⟩
    · exact .inl (e'.trans e)
    · exact .inr ⟨e ▸ e', hn⟩
  · exact .inr ⟨e, hn⟩

theorem Extends.mono {N' : Nat → Prop} (h : Extends N μ μ') (hN : ∀ k, N k → N' k) : Extends N' μ μ' :=
  fun u => (h u).imp_right fun ⟨e, hn⟩ => ⟨e, hN _ hn⟩

/-- An entry is written: the pages hold what they held. -/
theorem page_setEntry (hf : Fits A S) (hv : UserAddr v) (hd : (S.pde (DIDX v)).present = true) (hu : UserAddr u)
    (h : S.frameAt u = some g) : (S.setEntry v e).mem.frame g = S.mem.frame g := by
  refine Function.update_of_ne ?_ _ _
  rintro rfl
  exact (hf.page hu h).1 (table_mem hv hd)

/-- An entry that names the same frame. -/
theorem memory_edit (hf : Fits A S) (hv : UserAddr v) (hd : (S.pde (DIDX v)).present = true)
    (he : target e = target (S.entry v)) : (S.setEntry v e).memory = S.memory := by
  refine memory_same (keeps_setEntry hf.rooted hv hd e) (fun u hu hn => ?_) fun u g hu h => page_setEntry hf hv hd hu h
  rw [frameAt_page hn, frameAt_page hn, frameAt_setEntry hd, he, Space.frameAt, if_pos hd]

theorem memory_newTable (free : Nat) (hf : Fits A S) (hg : S.mem.memoryMap g = 0) (ha : (S.pde d).present = false) :
    (S.newTable d g free).memory = S.memory := by
  refine memory_same (N := fun _ => False) (keeps_newTable hf ha hg) nofun fun u g' hu h => ?_
  refine Function.update_of_ne ?_ _ S.mem.frame
  rintro rfl
  exact (hf.page hu h).2 hg

theorem memory_newPage (hf : Fits A S) (hv : UserAddr v) (hd : (S.pde (DIDX v)).present = true)
    (ha : (S.entry v).present = false) : Extends (· = IDX v) S.memory (S.newPage v g free).memory := by
  have hk : Keeps (· = IDX v) S (S.newPage v g free) :=
    ⟨fun _ _ => rfl, (keeps_setEntry hf.rooted hv hd (entryInit g)).pages⟩
  have hframe : ∀ u g', UserAddr u → S.frameAt u = some g' →
      (S.setEntry v (entryInit g)).mem.frame g' = S.mem.frame g' := fun u g' hu h => page_setEntry hf hv hd hu h
  refine memory_grows hk (fun u _ hn => ?_) hframe
  rw [frameAt_page hn, Space.frameAt, if_pos hd, target_absent ha]

/-- **A page is linked.** -/
theorem linkPage_memory (hf : Fits A S) (hv : UserAddr v) (h : linkPage S v = .ok S') :
    Extends (· = IDX v) S.memory S'.memory := by
  rcases linkPage_cases h with ⟨-, rfl⟩ | ⟨S₁, g, free, hS₁, hd, he, -, rfl⟩
  · exact .refl _ _
  · rcases hS₁ with rfl | ⟨g₁, free₁, ha, hg₁, rfl⟩
    · exact memory_newPage hf hv hd he
    · have hf₁ := (Move.table (P := fun _ _ => True) _ g₁ free₁ hv.slot ha hg₁).fits hf
      rw [← memory_newTable free₁ hf hg₁ ha]
      exact memory_newPage hf₁ hv hd he

/-- **A page is unlinked.** -/
theorem unlinkPage_memory (hf : Fits A S) (hv : UserAddr v) (h : unlinkPage S v = .ok S') :
    S'.memory = S.memory.drop (· = IDX v) := by
  obtain ⟨hk, hgone⟩ := unlinkPage_keeps hf hv h
  refine memory_drop hk (fun u _ hn => ?_) fun u g hu hg => ?_
  · rw [frameAt_page hn]
    exact frameAt_none.mpr hgone
  · unfold unlinkPage at h
    obtain ⟨-, h⟩ := of_assert h
    split at h
    · cases h
      rfl
    · next he =>
        simp only [Bool.or_eq_true, Bool.not_eq_true', not_or, Bool.not_eq_false] at he
        obtain ⟨m, hm, h⟩ := ok_of_bind h
        obtain ⟨-, -, free, rfl⟩ := putPage_ok hm
        cases h
        exact page_setEntry hf hv he.1 hu hg

/-- **A page is copied.** -/
theorem memory_copy (hf : Fits A S) (hv : UserAddr v) (hd : (S.pde (DIDX v)).present = true)
    (he : (S.entry v).present = true) (hg : S.mem.memoryMap g = 0) :
    (({ S with
      mem := ((S.mem.recount g 1 free).fill g (S.mem.frame (S.entry v).index)).setCount
        (S.entry v).index n } : Space).setEntry v (entryInit g)).memory = S.memory := by
  obtain ⟨S₁, hS₁⟩ : ∃ S₁ : Space, S₁ = { S with
      mem := ((S.mem.recount g 1 free).fill g (S.mem.frame (S.entry v).index)).setCount
        (S.entry v).index n } := ⟨_, rfl⟩
  have hframe : ∀ f, f ≠ g → S₁.mem.frame f = S.mem.frame f := fun f hf' => by
    rw [hS₁]
    exact Function.update_of_ne hf' _ _
  have hcopy : S₁.mem.frame g = S.mem.frame (S.entry v).index := by
    rw [hS₁]
    exact Function.update_self _ _ _
  have hpde : S₁.pde = S.pde := by rw [hS₁]
  have htable : ∀ T ∈ tables S.pde FIRST_SLOT LAST_SLOT, S₁.mem.frame T = S.mem.frame T := fun T hT =>
    hframe T (by rintro rfl; exact (hf.counted.free hg).1 (Finset.mem_union_right _ hT))
  rw [← hS₁]
  have hd₁ : (S₁.pde (DIDX v)).present = true := by rw [hpde]; exact hd
  have hk₁ : Keeps (· = IDX v) S S₁ := keeps_frames hpde htable
  have hr₁ : Rooted A S₁.pde FIRST_SLOT LAST_SLOT := by rw [hpde]; exact hf.rooted
  have hk := hk₁.trans (keeps_setEntry hr₁ hv hd₁ (entryInit g))
  have hat : (S₁.setEntry v (entryInit g)).frameAt v = some g := by rw [frameAt_setEntry hd₁]; rfl
  have hold : S.frameAt v = some (S.entry v).index := by rw [Space.frameAt, if_pos hd, target_present he]
  -- what is in the frames: the table for `v` has changed, and `g` is new
  have hkept : ∀ u f, UserAddr u → S.frameAt u = some f → (S₁.setEntry v (entryInit g)).mem.frame f = S.mem.frame f := by
    intro u f hu hfu
    obtain ⟨hno, hpos⟩ := hf.page hu hfu
    refine (Function.update_of_ne ?_ _ _).trans (hframe f ?_)
    · rintro rfl
      rw [hpde] at hno
      exact hno (table_mem hv hd)
    · rintro rfl
      exact hpos hg
  funext u
  by_cases hu : UserAddr u
  · by_cases hn : IDX u = IDX v
    · have hgt : g ≠ (S₁.pde (DIDX v)).index := by
        rintro rfl
        rw [hpde] at hg
        exact (hf.counted.free hg).1 (table_mem hv hd)
      have hg' : (S₁.setEntry v (entryInit g)).mem.frame g = S₁.mem.frame g := Function.update_of_ne hgt _ _
      rw [memory_user hu, memory_user hu, frameAt_page hn, frameAt_page hn, hat, hold, Option.map_some,
        Option.map_some, hg', hcopy]
    · rw [memory_user hu, memory_user hu, hk.pages u hu hn]
      cases h : S.frameAt u with
      | none => rfl
      | some f => rw [Option.map_some, Option.map_some, hkept u f hu h]
  · rw [memory_kernel hu, memory_kernel hu]

/-! ## 3. The calls -/

theorem drop_none (μ : Memory) : μ.drop (Within v 0) = μ := by
  funext u
  refine if_neg ?_
  unfold Within
  omega

/-- One page, and the ones after it. -/
theorem drop_next (μ : Memory) : (μ.drop (· = IDX v)).drop (Within (v + PAGE_SIZE) n) = μ.drop (Within v (n + 1)) := by
  funext u
  have h : Within v (n + 1) (IDX u) ↔ Within (v + PAGE_SIZE) n (IDX u) ∨ IDX u = IDX v := by
    unfold Within
    rw [idx_next]
    omega
  unfold Memory.drop
  by_cases h₁ : Within (v + PAGE_SIZE) n (IDX u)
  · rw [if_pos h₁, if_pos (h.mpr (.inl h₁))]
  · by_cases h₂ : IDX u = IDX v
    · rw [if_neg h₁, if_pos h₂, if_pos (h.mpr (.inr h₂))]
    · rw [if_neg h₁, if_neg h₂, if_neg fun h' => (h.mp h').elim h₁ h₂]

theorem Extends.isSome (h : Extends N μ μ') (hu : (μ u).isSome) : (μ' u).isSome := by
  rcases h u with e | ⟨e, -⟩
  · rw [e]
    exact hu
  · rw [e] at hu
    cases hu

/-- The page is there. -/
theorem isSome_memory (hv : UserAddr v) (hmap : S.mapped v = true) (hu : IDX u = IDX v) : (S.memory u).isSome := by
  have hu' : UserAddr u := by
    unfold IDX PAGE_SIZE at hu
    unfold UserAddr USER_EXEC_ADDR KERNEL_MEMORY_SIZE SELF_MAP at *
    omega
  rw [memory_user hu', frameAt_page hu, Option.isSome_map, ← mapped_frameAt]
  exact hmap

theorem mmapPages_memory {fl : MapFlags} {b b' : Bitmap} (hf : Fits A S) (hb : UserMap b) (hv : USER_MMAP_ADDR ≤ v)
    (h : mmapPages fl n v S b = .ok (S', b')) :
    Extends (Within v n) S.memory S'.memory ∧ ∀ u, Within v n (IDX u) → (S'.memory u).isSome := by
  induction n generalizing v S b with
  | zero =>
    cases h
    refine ⟨.refl _ _, fun u hu => ?_⟩
    unfold Within at hu
    omega
  | succ n ih =>
    obtain ⟨S₁, h1, h⟩ := ok_of_bind h
    obtain ⟨b₁, hset, h⟩ := ok_of_bind h
    have hu := userAddr_of_mmap hv (bitmapSet_page hb hset).2
    obtain ⟨hm, hmap⟩ := linkPage_moves (P := fun _ _ => True) hu h1
    have hd := hmap
    simp only [Space.mapped, Bool.and_eq_true] at hd
    rw [getPte_same hd.1] at h
    have hf₁ : Fits A S₁ := Moves.fits hm hf
    have hf₂ : Fits A (S₁.setEntry v (mapEntry fl (S₁.entry v))) :=
      (Move.edit (P := fun _ _ => True) v (mapEntry fl (S₁.entry v)) hu hd.1 rfl fun _ => trivial).fits hf₁
    obtain ⟨hrest, hall⟩ := ih hf₂ (bitmapSet_page hb hset).1 (by omega) h
    rw [memory_edit (e := mapEntry fl (S₁.entry v)) hf₁ hu hd.1 rfl] at hrest
    refine ⟨((linkPage_memory hf hu h1).mono fun k hk => ?_).trans (hrest.mono fun k => within_next), fun u hk => ?_⟩
    · rw [hk]
      exact within_self v n
    · by_cases e : IDX u = IDX v
      · exact hrest.isSome (isSome_memory hu hmap e)
      · refine hall u ?_
        unfold Within at *
        rw [idx_next]
        omega

theorem munmapPages_memory {b b' : Bitmap} (hf : Fits A S) (hb : UserMap b) (hv : USER_MMAP_ADDR ≤ v)
    (h : munmapPages n v S b = .ok (S', b')) : S'.memory = S.memory.drop (Within v n) := by
  induction n generalizing v S b with
  | zero =>
    cases h
    exact (drop_none _).symm
  | succ n ih =>
    obtain ⟨S₁, h1, h⟩ := ok_of_bind h
    obtain ⟨set, ht, h⟩ := ok_of_bind h
    obtain ⟨-, h⟩ := of_assert h
    obtain ⟨b₁, hset, h⟩ := ok_of_bind h
    have hu := userAddr_of_mmap hv (bitmapTest_page hb ht)
    have hf₁ : Fits A S₁ := Moves.fits (unlinkPage_moves (P := fun _ _ => True) hu h1) hf
    rw [ih hf₁ (bitmapSet_page hb hset).1 (by omega) h, unlinkPage_memory hf hu h1]
    exact drop_next _

theorem unlinkPages_memory (hf : Fits A S) (h1 : ∀ i < n, UserAddr (v + i * PAGE_SIZE))
    (h : unlinkPages n v S = .ok S') : S'.memory = S.memory.drop (Within v n) := by
  induction n generalizing v S with
  | zero =>
    cases h
    exact (drop_none _).symm
  | succ n ih =>
    obtain ⟨S₁, hS₁, h⟩ := ok_of_bind h
    have hu : UserAddr v := by simpa using h1 0 (Nat.succ_pos n)
    have hf₁ : Fits A S₁ := Moves.fits (unlinkPage_moves (P := fun _ _ => True) hu hS₁) hf
    rw [ih hf₁ (fun i hi => page_add v i ▸ h1 (i + 1) (by omega)) h, unlinkPage_memory hf hu hS₁]
    exact drop_next _

theorem linkSegment_memory (hf : Fits A S) (h : linkSegment n v S = .ok S') :
    Extends (Within v n) S.memory S'.memory := by
  induction n generalizing v S with
  | zero =>
    cases h
    exact .refl _ _
  | succ n ih =>
    obtain ⟨hr, h⟩ := of_assert h
    obtain ⟨S₁, hS₁, h⟩ := ok_of_bind h
    simp only [Bool.and_eq_true, decide_eq_true_eq] at hr
    have hu := userAddr_of_heap hr.1 hr.2.le
    have hf₁ : Fits A S₁ := Moves.fits (linkPage_moves (P := fun _ _ => True) hu hS₁).1 hf
    refine ((linkPage_memory hf hu hS₁).mono fun k hk => ?_).trans ((ih hf₁ h).mono fun k => within_next)
    rw [hk]
    exact within_self v n

theorem protectSegment_memory (hf : Fits A S) (h1 : ∀ i < n, UserAddr (v + i * PAGE_SIZE))
    (h : protectSegment n v S = .ok S') : S'.memory = S.memory := by
  induction n generalizing v S with
  | zero =>
    cases h
    rfl
  | succ n ih =>
    obtain ⟨S₁, hS₁, h'⟩ := ok_of_bind h
    have hv : UserAddr v := by simpa using h1 0 (Nat.succ_pos n)
    obtain ⟨rfl, hd⟩ := getPte_false hS₁
    have hf₂ := (Move.edit (P := fun _ _ => True) v { S₁.entry v with write := false, readonly := true } hv hd rfl
      fun _ => trivial).fits hf
    exact (ih hf₂ (fun i hi => page_add v i ▸ h1 (i + 1) (by omega)) h').trans (memory_edit hf hv hd rfl)

end Space

section Calls

variable {A : Finset Nat} {m m' : Mem} {q q' : Proc} {v addr length r : Nat} {i : Int} {fl : MapFlags}
  {present write : Bool}

/-- **A page fault**: the page is new, or holds what it held. -/
theorem pageFault_memory (hf : Fits A ⟨m, q.pde⟩) (h : pageFault m q v present write = .ok (some (m', q'))) :
    Extends (· = IDX v) (Space.memory ⟨m, q.pde⟩) (Space.memory ⟨m', q'.pde⟩) ∧ q'.brk = q.brk ∧
      q'.segment = q.segment := by
  unfold pageFault at h
  split at h
  · cases h
  · next hv =>
      simp only [Bool.or_eq_true, decide_eq_true_eq, not_or, not_lt, not_le] at hv
      have hu : UserAddr v := ⟨hv.1, by unfold SELF_MAP; unfold USER_STACK_TOP at hv; omega⟩
      split at h
      · obtain ⟨-, h⟩ := of_assert h
        obtain ⟨S, hS, h⟩ := ok_of_bind h
        obtain ⟨he, h⟩ := of_assert h
        obtain ⟨-, h⟩ := of_assert h
        obtain ⟨-, h⟩ := of_assert h
        obtain ⟨-, h⟩ := of_assert h
        obtain ⟨rfl, hd⟩ := getPte_false hS
        split at h
        · cases h
          have hsame := memory_edit (e := { Space.entry ⟨m, q.pde⟩ v with write := true }) hf hu hd rfl
          exact ⟨.of_eq hsame, rfl, rfl⟩
        · obtain ⟨⟨m₁, g⟩, hc, h⟩ := ok_of_bind h
          obtain ⟨hg, free, rfl⟩ := copyPage_ok hc
          cases h
          exact ⟨.of_eq (memory_copy (S := ⟨m, q.pde⟩) hf hu hd he hg), rfl, rfl⟩
      · split at h
        · obtain ⟨S', hS', h⟩ := ok_of_bind h
          cases h
          refine ⟨?_, rfl, rfl⟩
          have hpage : IDX (PAGE (IDX v)) = IDX v := by
            unfold IDX PAGE PAGE_SIZE
            omega
          have h := linkPage_memory hf (userAddr_page hu) hS'
          rw [hpage] at h
          exact h
        · cases h

/-- `page_fault` ends the process for an address that is not the user's. -/
theorem pageFault_ends (h : pageFault m q v present write = .ok none) : v < USER_EXEC_ADDR ∨ USER_STACK_TOP ≤ v := by
  unfold pageFault at h
  split at h
  · next hv => simpa using hv
  · exfalso
    split at h
    · obtain ⟨-, h⟩ := of_assert h
      obtain ⟨S, -, h⟩ := ok_of_bind h
      obtain ⟨-, h⟩ := of_assert h
      obtain ⟨-, h⟩ := of_assert h
      obtain ⟨-, h⟩ := of_assert h
      obtain ⟨-, h⟩ := of_assert h
      split at h
      · cases h
      · obtain ⟨_, _, h⟩ := ok_of_bind h
        cases h
    · split at h
      · obtain ⟨_, _, h⟩ := ok_of_bind h
        cases h
      · cases h

end Calls

/-! ## 4. Stores -/

section Stores

variable {A : Finset Nat} {S : Space} {u v g : Nat} {w : Word}

/-- The page is not there, or no other page names its frame. -/
def soleAt (S : Space) (v : Nat) : Bool := !S.mapped v || S.mem.memoryMap (S.entry v).index ≤ 1

theorem counted_once (hf : Fits A S) (hv : UserAddr v) (hmap : S.mapped v = true)
    (h1 : S.mem.memoryMap (S.entry v).index ≤ 1) : S.mem.memoryMap (S.entry v).index = 1 := by
  have hpos := (hf.page hv (frameAt_some.mpr ⟨hmap, rfl⟩)).2
  omega

/-- The pages are where they were. -/
theorem frameAt_put (hf : Fits A S) (hv : UserAddr v) (hmap : S.mapped v = true) (hu : UserAddr u) :
    Space.frameAt ⟨S.put v w, S.pde⟩ u = S.frameAt u := by
  have hk : Keeps (fun _ => False) S ⟨S.put v w, S.pde⟩ :=
    keeps_frames rfl fun T hT => put_frame hf hv hmap (Finset.mem_union_right _ hT)
  exact hk.pages u hu not_false

/-- **A store to a frame that is counted once changes one word of one memory.** -/
theorem put_memory (hf : Fits A S) (hv : UserAddr v) (hmap : S.mapped v = true)
    (h1 : S.mem.memoryMap (S.entry v).index ≤ 1) :
    Space.memory ⟨S.put v w, S.pde⟩ = S.memory.store v w := by
  have hmap' := hmap
  rw [Space.mapped, Bool.and_eq_true] at hmap'
  have hat : S.frameAt v = some (S.entry v).index := frameAt_some.mpr ⟨hmap, rfl⟩
  funext u
  unfold Memory.store
  by_cases hu : UserAddr u
  · rw [memory_user hu, memory_user hu, frameAt_put hf hv hmap hu]
    by_cases hw : u / 4 = v / 4
    · have hpage : IDX u = IDX v := by
        unfold IDX PAGE_SIZE
        omega
      have hword : WIDX u = WIDX v := by
        unfold WIDX
        omega
      rw [if_pos hw, frameAt_page hpage, hat, hword]
      exact congrArg some (setWord_self _ _ _ _)
    · rw [if_neg hw]
      cases h : S.frameAt u with
      | none => rfl
      | some g =>
        refine congrArg some (setWord_ne ?_)
        rintro ⟨rfl, hword⟩
        -- the frame is the one of `v`, so the page is
        obtain ⟨hmu, hidx⟩ := frameAt_some.mp h
        rw [Space.mapped, Bool.and_eq_true] at hmu
        have he : target (S.entry u) = some (S.entry v).index := hidx ▸ target_present hmu.2
        have he' : target (S.entry v) = some (S.entry v).index := target_present hmap'.2
        obtain ⟨hT, ht⟩ := hf.counted.sole (counted_once hf hv hmap h1) (table_mem hu hmu.1) (tidx_lt u)
          (table_mem hv hmap'.1) (tidx_lt v) he he'
        have hd := hf.rooted.inj _ _ hu.slot.1 hu.slot.2 hv.slot.1 hv.slot.2 hmu.1 hmap'.1 hT
        have hpage := idx_eq hu hv hd ht
        unfold IDX PAGE_SIZE at hpage
        unfold WIDX at hword
        omega
  · have hw : u / 4 ≠ v / 4 := by
      unfold UserAddr USER_EXEC_ADDR KERNEL_MEMORY_SIZE SELF_MAP at hu hv
      omega
    rw [if_neg hw, memory_kernel hu, memory_kernel hu]

/-- **It reaches no frame that the others use.** -/
theorem put_others (hf : Fits A S) (hv : UserAddr v) (hmap : S.mapped v = true)
    (h1 : S.mem.memoryMap (S.entry v).index ≤ 1) (hg : Used S.mem A g) : (S.put v w).frame g = S.mem.frame g := by
  have hone := counted_once hf hv hmap h1
  rw [Space.mapped, Bool.and_eq_true] at hmap
  have hT := table_mem (A := A) hv hmap.1
  have hentry : target (S.mem.frame (S.pde (DIDX v)).index (TIDX v)) = some (S.entry v).index :=
    target_present hmap.2
  refine Function.update_of_ne ?_ _ _
  rintro rfl
  obtain hg | ⟨T, hTA, t, ht, he⟩ := hg
  · exact (hf.counted.entry hT (tidx_lt v) hentry).2 (Finset.mem_union_left _ hg)
  · have hsole := (hf.counted.sole hone (Finset.mem_union_left _ hTA) ht hT (tidx_lt v) he hentry).1
    exact hf.rooted.apart _ hv.slot.1 hv.slot.2 hmap.1 (hsole ▸ hTA)

end Stores

/-! ## 5. `copy_pde` -/

section Copy

variable {B : Finset Nat} {m₀ m' : Mem} {pde' : Nat → Word} {S : Space}

/-- What `copy_pde` has left as it was in `m₀`, where the tables were `B`: the pages. -/
structure Intact (m₀ : Mem) (B : Finset Nat) (m : Mem) (K : Finset Nat) : Prop where
  pages : ∀ g, m₀.memoryMap g ≠ 0 → g ∉ B → m.frame g = m₀.frame g
  counts : ∀ g, m₀.memoryMap g ≠ 0 → m.memoryMap g ≠ 0
  fresh : ∀ T ∈ K, T ∉ B → m₀.memoryMap T = 0

theorem copies_intact : Copies (Intact m₀ B) := by
  intro m m₁ K T g free _ h hT hs hg
  have hcount : ∀ f, m.memoryMap f ≤ m₁.memoryMap f := fun f => by rw [hs.count]; exact Nat.le_add_right _ _
  have hg₀ : m₀.memoryMap g = 0 := by
    by_contra hne
    have := h.counts g hne
    have := hcount g
    omega
  refine ⟨fun f hf hfB => ?_, fun f hf => ?_, fun U hU hUB => ?_⟩
  · rw [fill_ne (by rintro rfl; exact hf hg₀)]
    show m₁.frame f = _
    rw [← h.pages f hf hfB]
    refine hs.other f ?_
    rintro rfl
    exact hf (h.fresh f hT hfB)
  · show Function.update m₁.memoryMap g 1 f ≠ 0
    have h₁ := h.counts f hf
    have h₂ := hcount f
    rw [Function.update_of_ne (by rintro rfl; exact hf hg₀)]
    omega
  · rcases Finset.mem_insert.mp hU with rfl | hU
    · exact hg₀
    · exact h.fresh U hU hUB

/-- **`copy_pde`**: the child reads what its parent reads, and everybody what they read before. -/
theorem copyPde_memory (hB : tables S.pde FIRST_SLOT LAST_SLOT ⊆ B) (hc : Counted S.mem B 0)
    (h : copyPde S = .ok (m', pde')) : Space.memory ⟨m', pde'⟩ = S.memory ∧
      ∀ pde, tables pde FIRST_SLOT LAST_SLOT ⊆ B → Space.memory ⟨m', pde⟩ = Space.memory ⟨S.mem, pde⟩ := by
  obtain ⟨htargets, hat⟩ := copyPde_frames hB (fun T hT => by rw [hc.table T hT]; exact Nat.one_ne_zero) h
  have hstart : Intact S.mem B S.mem B := ⟨fun _ _ _ => rfl, fun _ hg => hg, fun T hT hno => absurd hT hno⟩
  have hend := (copyPde_fits copies_intact hB hc hstart h).2
  -- what a page holds
  have hpage : ∀ pde u g, tables pde FIRST_SLOT LAST_SLOT ⊆ B → UserAddr u → Space.frameAt ⟨S.mem, pde⟩ u = some g →
      m'.frame g = S.mem.frame g := by
    intro pde u g hsub hu hg
    obtain ⟨hmap, rfl⟩ := frameAt_some.mp hg
    rw [Space.mapped, Bool.and_eq_true] at hmap
    obtain ⟨hpos, hno⟩ := hc.entry (hsub (mem_tables_of hu.slot.1 hu.slot.2 hmap.1)) (tidx_lt u) (target_present hmap.2)
    exact hend.pages _ hpos.ne' hno
  refine ⟨?_, fun pde hsub => ?_⟩
  · funext u
    by_cases hu : UserAddr u
    · rw [memory_user hu, memory_user hu, hat u hu]
      cases hg : S.frameAt u with
      | none => rfl
      | some g => exact congrArg some (congrFun (hpage S.pde u g hB hu hg) _)
    · rw [memory_kernel hu, memory_kernel hu]
  · have hkept : ∀ u, UserAddr u → Space.frameAt ⟨m', pde⟩ u = Space.frameAt ⟨S.mem, pde⟩ u := by
      intro u hu
      unfold Space.frameAt Space.entry
      show (if (pde (DIDX u)).present = true then target (m'.frame (pde (DIDX u)).index (TIDX u)) else none) =
        if (pde (DIDX u)).present = true then target (S.mem.frame (pde (DIDX u)).index (TIDX u)) else none
      split
      · next hd => exact htargets _ (hsub (mem_tables_of hu.slot.1 hu.slot.2 hd)) _
      · rfl
    funext u
    by_cases hu : UserAddr u
    · rw [memory_user hu, memory_user hu, hkept u hu]
      cases hg : Space.frameAt ⟨S.mem, pde⟩ u with
      | none => rfl
      | some g => exact congrArg some (congrFun (hpage pde u g hsub hu hg) _)
    · rw [memory_kernel hu, memory_kernel hu]

end Copy

/-! ## 6. Accesses -/

/-- **What an access comes to**: the page is linked or copied, or the word is written to a frame that is
    counted once. -/
def Access (m : Mem) (q : Proc) (v : Nat) (w : Option Word) (m' : Mem) (q' : Proc) : Prop :=
  (Moves (fun _ _ => True) ⟨m, q.pde⟩ ⟨m', q'.pde⟩ ∧
    Extends (· = IDX v) (Space.memory ⟨m, q.pde⟩) (Space.memory ⟨m', q'.pde⟩) ∧ q'.brk = q.brk ∧
      q'.segment = q.segment) ∨
    ∃ w', w = some w' ∧ Stores m q v w' m' q' ∧ m.memoryMap (Space.entry ⟨m, q.pde⟩ v).index ≤ 1

section Access

variable {A : Finset Nat} {m m' : Mem} {q q' : Proc} {v : Nat} {w : Word} {ow : Option Word} {present write : Bool}

theorem access_fault (hs : Sane q) (hf : Fits A ⟨m, q.pde⟩) (h : pageFault m q v present write = .ok (some (m', q'))) :
    Access m q v ow m' q' := by
  obtain ⟨hg, hb, hseg⟩ := pageFault_memory hf h
  exact .inl ⟨(pageFault_moves admits_true hs h).1, hg, hb, hseg⟩

theorem load_access (hs : Sane q) (hf : Fits A ⟨m, q.pde⟩) (h : load m q v = .ok (some (m', q'))) :
    Access m q v none m' q' := by
  unfold load at h
  split at h
  · cases h
    exact .inl ⟨.refl, .refl _ _, rfl, rfl⟩
  · exact access_fault hs hf h

theorem load_ends (h : load m q v = .ok none) : v < USER_EXEC_ADDR ∨ USER_STACK_TOP ≤ v := by
  unfold load at h
  split at h
  · cases h
  · exact pageFault_ends h

theorem userStore_access (hs : Sane q) (hf : Fits A ⟨m, q.pde⟩)
    (hpriv : Private m (A ∪ tables q.pde FIRST_SLOT LAST_SLOT)) (hv : v < SELF_MAP)
    (hns : Space.mapped ⟨m, q.pde⟩ v = true → (Space.entry ⟨m, q.pde⟩ v).shared = false)
    (h : userStore m q v w = .ok (some (m', q'))) : Access m q v (some w) m' q' := by
  unfold userStore at h
  rw [if_neg (not_le.mpr hv)] at h
  split at h
  · exact access_fault hs hf h
  · next hu =>
      split at h
      · next hmap =>
          split at h
          · next hw =>
              cases h
              simp only [Space.mayWrite, Bool.and_eq_true] at hw
              have hu : UserAddr v := ⟨not_lt.mp hu, hv⟩
              have hd := hmap
              rw [Space.mapped, Bool.and_eq_true] at hd
              have hT := table_mem (A := A) (S := ⟨m, q.pde⟩) hu hd.1
              have h1 : m.memoryMap (Space.entry ⟨m, q.pde⟩ v).index ≤ 1 :=
                hpriv _ hT (TIDX v) (tidx_lt v) hd.2 hw.1.2 (hns hmap)
              exact .inr ⟨w, rfl, ⟨hu, hmap, rfl, rfl⟩, h1⟩
          · exact access_fault hs hf h
      · exact access_fault hs hf h

theorem userStore_ends (hv : v < SELF_MAP) (h : userStore m q v w = .ok none) :
    v < USER_EXEC_ADDR ∨ USER_STACK_TOP ≤ v := by
  unfold userStore at h
  rw [if_neg (not_le.mpr hv)] at h
  split at h
  · exact pageFault_ends h
  · split at h
    · split at h
      · cases h
      · exact pageFault_ends h
    · exact pageFault_ends h

theorem kernelStore_access (hs : Sane q) (hf : Fits A ⟨m, q.pde⟩) (hv : UserAddr v)
    (hsole : soleAt ⟨m, q.pde⟩ v = true) (h : kernelStore m q v w = .ok (some (m', q'))) :
    Access m q v (some w) m' q' := by
  rw [kernelStore_user hv] at h
  split at h
  · next hmap =>
      cases h
      have hmap : Space.mapped ⟨m, q.pde⟩ v = true := hmap
      refine .inr ⟨w, rfl, ⟨hv, hmap, rfl, rfl⟩, ?_⟩
      simpa [soleAt, hmap] using hsole
  · exact access_fault hs hf h

theorem kernelStore_ends (hv : UserAddr v) (h : kernelStore m q v w = .ok none) :
    v < USER_EXEC_ADDR ∨ USER_STACK_TOP ≤ v := by
  rw [kernelStore_user hv] at h
  split at h
  · cases h
  · exact pageFault_ends h

end Access

/-! ## 7. Actions -/

/-- The process as it is to the user. -/
def Proc.task (q : Proc) (m : Mem) : Task := ⟨Space.memory ⟨m, q.pde⟩, q.brk, q.segment⟩

def State.tasks (s : State) (p : Nat) : Option Task := (s.procs p).map (·.task s.mem)

/-- **What a store has to meet**: in user mode a page that is not shared on purpose, in kernel mode one that no
    other page shares the frame of. -/
def StoresOwn (s : State) : Action → Bool
  | .userStore p v _ => (s.procs p).all fun q =>
    !Space.mapped ⟨s.mem, q.pde⟩ v || !(Space.entry ⟨s.mem, q.pde⟩ v).shared
  | .kernelStore p v _ | .segmentZero p v _ => (s.procs p).all fun q => soleAt ⟨s.mem, q.pde⟩ v
  | .segmentWord p i _ => (s.procs p).all fun q => q.segment.all fun sg => soleAt ⟨s.mem, q.pde⟩ (sg.word i)
  | _ => true

section Calls

variable {A : Finset Nat} {m m' : Mem} {q q' : Proc} {p addr length r b : Nat} {i : Int} {fl : MapFlags} {ph : Phdr}
  {μ : Memory} {seg : Option Segment} {sg : Segment} {ptr : Nat}

theorem task_eq (hm : Space.memory ⟨m', q'.pde⟩ = μ) (hb : q'.brk = b) (hseg : q'.segment = seg) :
    q'.task m' = ⟨μ, b, seg⟩ := by rw [Proc.task, hm, hb, hseg]

theorem does_task {t : Task} {a : Action} (hm : Space.memory ⟨m', q'.pde⟩ = μ) (hb : q'.brk = b)
    (hseg : q'.segment = seg) (h : t.Does a ⟨μ, b, seg⟩) : t.Does a (q'.task m') := by
  rw [task_eq hm hb hseg]
  exact h

theorem sysMmap_does (hs : Sane q) (hf : Fits A ⟨m, q.pde⟩) (h : sysMmap m q addr length fl = .ok (m', q', r)) :
    (q.task m).Does (.mmap p addr length fl) (q'.task m') := by
  unfold sysMmap at h
  obtain ⟨-, h⟩ := of_assert h
  obtain ⟨⟨v, b⟩, hb, h⟩ := ok_of_bind h
  obtain ⟨hr, h⟩ := of_assert h
  obtain ⟨⟨S', b'⟩, hp, h⟩ := ok_of_bind h
  cases h
  simp only [Bool.and_eq_true, decide_eq_true_eq] at hr
  have hvb : UserMap b ∧ (addr ≠ 0 → r = addr) := by
    unfold mmapAddr at hb
    split at hb
    · next h0 => exact ⟨scanPage_map hs.vmap hb, fun hne => absurd h0 hne⟩
    · cases hb
      exact ⟨hs.vmap, fun _ => rfl⟩
  obtain ⟨hg, hall⟩ := mmapPages_memory hf hvb.1 hr.1 hp
  exact .mmap p addr length r fl _ hvb.2 hg hall

theorem sysMunmap_does (hs : Sane q) (hf : Fits A ⟨m, q.pde⟩) (h : sysMunmap m q addr length = .ok (m', q', i)) :
    (q.task m).Does (.munmap p addr length) (q'.task m') := by
  unfold sysMunmap at h
  obtain ⟨hr, h⟩ := of_assert h
  obtain ⟨-, h⟩ := of_assert h
  obtain ⟨⟨S', b'⟩, hp, h⟩ := ok_of_bind h
  cases h
  simp only [Bool.and_eq_true, decide_eq_true_eq] at hr
  have hmem := munmapPages_memory hf hs.vmap hr.1 hp
  exact does_task hmem rfl rfl (.munmap p addr length)

/-- `sys_brk` shrinks the heap, and gives up its pages, or it does not. -/
theorem sysBrk_cases (hs : Sane q) (hf : Fits A ⟨m, q.pde⟩) (h : sysBrk m q addr = .ok (m', q', i)) :
    q'.segment = q.segment ∧ USER_EXEC_ADDR ≤ addr ∧
      ((addr < q.brk ∧ q'.brk = addr ∧ Space.memory ⟨m', q'.pde⟩ =
          (Space.memory ⟨m, q.pde⟩).drop (Within addr (divRoundUp (q.brk - addr) PAGE_SIZE))) ∨
        (q.brk ≤ addr ∧ (q'.brk = addr ∨ q'.brk = q.brk ∧ m.freePages < IDX (addr - q.brk)) ∧
          Space.memory ⟨m', q'.pde⟩ = Space.memory ⟨m, q.pde⟩)) := by
  unfold sysBrk at h
  obtain ⟨-, h⟩ := of_assert h
  obtain ⟨hr, h⟩ := of_assert h
  simp only [Bool.and_eq_true, decide_eq_true_eq] at hr
  have hlow := hs.low
  have hhigh := hs.high
  split at h
  · next hlt =>
      obtain ⟨S', hS', h⟩ := ok_of_bind h
      cases h
      refine ⟨rfl, by omega, .inl ⟨hlt, rfl, unlinkPages_memory hf (fun j hj => ?_) hS'⟩⟩
      have := divRoundUp_below (by unfold USER_MMAP_ADDR at hhigh; omega) hj
      exact userAddr_of_heap (by omega) (by omega)
  · split at h
    · next hfree =>
        cases h
        exact ⟨rfl, by omega, .inr ⟨by omega, .inr ⟨rfl, hfree⟩, rfl⟩⟩
    · cases h
      exact ⟨rfl, by omega, .inr ⟨by omega, .inl rfl, rfl⟩⟩

theorem sysBrk_does (hs : Sane q) (hf : Fits A ⟨m, q.pde⟩) (h : sysBrk m q addr = .ok (m', q', i)) :
    (q.task m).Does (.brk p addr) (q'.task m') := by
  obtain ⟨hseg, hlow, ⟨hlt, hb, hm⟩ | ⟨hle, hb | ⟨hb, -⟩, hm⟩⟩ := sysBrk_cases hs hf h
  · exact does_task hm hb hseg (.shrink p addr hlow hlt)
  · exact does_task hm hb hseg (.grow p addr hlow hle)
  · exact does_task hm hb hseg (.refuse p addr hle)

theorem execve_does (hs : Sane q) (hf : Fits A ⟨m, q.pde⟩) (hbrk : USER_EXEC_ADDR ≤ q.brk)
    (h : execve m q = .ok (m', q')) : (q.task m).Does (.execve p) (q'.task m') := by
  unfold execve at h
  obtain ⟨⟨m₁, q₁, r⟩, hb, h⟩ := ok_of_bind h
  obtain ⟨S', hS', h⟩ := ok_of_bind h
  cases h
  have hs₁ : Sane { q with end_ := USER_EXEC_ADDR } := ⟨hs.vmap, Nat.le_refl _, hs.high, hs.segment⟩
  have hf₁ : Fits A ⟨m₁, q₁.pde⟩ := Moves.fits (sysBrk_moves (P := fun _ _ => True) hs₁ hb).1 hf
  have hlink := linkPage_memory hf₁ (userAddr_of_heap (Nat.le_refl _) (by decide)) hS'
  obtain ⟨hseg, -, hcase⟩ := sysBrk_cases (q := { q with end_ := USER_EXEC_ADDR }) hs₁ hf hb
  have hend : q₁.brk = USER_EXEC_ADDR ∧ Space.memory ⟨m₁, q₁.pde⟩ = (Space.memory ⟨m, q.pde⟩).drop
      (Within USER_EXEC_ADDR (divRoundUp (q.brk - USER_EXEC_ADDR) PAGE_SIZE)) := by
    rcases hcase with ⟨-, hb', hm⟩ | ⟨hle, hb', hm⟩
    · exact ⟨hb', hm⟩
    · have hle : q.brk ≤ USER_EXEC_ADDR := hle
      have he : q.brk = USER_EXEC_ADDR := le_antisymm hle hbrk
      refine ⟨?_, ?_⟩
      · rcases hb' with hb' | ⟨hb', -⟩
        · exact hb'
        · exact hb'.trans he
      · rw [hm, he, Nat.sub_self]
        exact (drop_none _).symm
  rw [hend.2] at hlink
  exact does_task rfl hend.1 hseg (.execve p _ hlink)

/-- The kernel finds the header that the user would. -/
theorem headerAt_memory (S : Space) (ptr : Nat) : headerAt S.memory ptr = headerAt S.read ptr := by
  unfold headerAt
  split
  · next hptr =>
      simp only [Bool.and_eq_true, decide_eq_true_eq] at hptr
      have hread : ∀ k ≤ 28, S.memory (ptr + k) = S.read (ptr + k) := fun k hk => by
        refine if_pos ⟨Nat.le_trans hptr.1 (Nat.le_add_right _ _), Nat.lt_of_lt_of_le (Nat.add_lt_add_of_lt_of_le hptr.2 hk) ?_⟩
        decide
      rw [hread 8 (by decide), hread 16 (by decide), hread 20 (by decide), hread 24 (by decide),
        hread 28 (by decide)]
  · rfl

theorem loadSegment_does (hf : Fits A ⟨m, q.pde⟩) (hph : headerAt (Space.read ⟨m, q.pde⟩) ptr = some ph)
    (h : loadSegment m q ptr ph = .ok (m', q')) : (q.task m).Does (.loadSegment p ptr ph) (q'.task m') := by
  unfold loadSegment at h
  obtain ⟨-, h⟩ := of_assert h
  obtain ⟨-, h⟩ := of_assert h
  obtain ⟨S', hS', h⟩ := ok_of_bind h
  cases h
  exact .loadSegment p ptr ph _ ((headerAt_memory _ _).trans hph) (linkSegment_memory hf hS')

theorem endSegment_does {writable : Bool} (hs : Sane q) (hf : Fits A ⟨m, q.pde⟩) (hseg : q.segment = some sg)
    (hph : headerAt (Space.read ⟨m, q.pde⟩) sg.ptr = some ph)
    (h : endSegment m q { sg.ph with writable } = .ok (m', q')) : (q.task m).Does (.endSegment p ph) (q'.task m') := by
  unfold endSegment at h
  obtain ⟨S', hS', h⟩ := ok_of_bind h
  cases h
  have hmem : S'.memory = Space.memory ⟨m, q.pde⟩ := by
    refine protectSegment_memory hf (fun j hj => ?_) hS'
    have hj' : j < sg.ph.pages := by
      split at hj
      · omega
      · exact hj
    obtain ⟨h1, h2⟩ := hs.segment sg hseg _ (pages_below hj')
    exact userAddr_of_heap h1 h2.le
  exact does_task hmem rfl rfl (.endSegment p ph sg hseg ((headerAt_memory _ _).trans hph))

end Calls

section Actions

variable {s s' : State} {p p' v : Nat} {q q' r : Proc} {m' : Mem} {a : Action} {w : Option Word}
  {o : Option (Mem × Proc)}

/-- The header that `load_segment` begins with. -/
theorem headerAt_of {ptr : Nat} {ph : Phdr} (hp : s.procs p = some q) (ha : Enabled s (.loadSegment p ptr ph) = true) :
    headerAt (Space.read ⟨s.mem, q.pde⟩) ptr = some ph := by
  rw [Enabled, hp, Option.any_some, Bool.and_eq_true, decide_eq_true_eq] at ha
  exact ha.2

/-- The one it finds when it reads the header again. -/
theorem headerAt_again {c : Segment → Bool} {sg : Segment} {ph : Phdr} (hp : s.procs p = some q)
    (hsg : q.segment = some sg)
    (ha : s.loads p (fun S sg => c sg && headerAt S.read sg.ptr = some ph) = true) :
    headerAt (Space.read ⟨s.mem, q.pde⟩) sg.ptr = some ph := by
  rw [State.loads, hp, Option.any_some, hsg, Option.any_some, Bool.and_eq_true, decide_eq_true_eq] at ha
  exact ha.2

theorem tasks_some (hp : s.procs p = some q) : s.tasks p = some (q.task s.mem) := by rw [State.tasks, hp]; rfl

/-- The memory of another process, if what it uses is kept. -/
theorem memory_others (hs : Held s) (hne : p' ≠ p) (hr : s.procs p' = some r)
    (h : ∀ g, Used s.mem (s.tablesOf (s.live.erase p)) g → m'.frame g = s.mem.frame g) :
    Space.memory ⟨m', r.pde⟩ = Space.memory ⟨s.mem, r.pde⟩ := by
  funext v
  unfold Space.memory
  split
  · next hv =>
      have he : State.read { s with mem := m' } p' v = s.read p' v :=
        read_congr rfl hv fun g hg => h g (hg.mono (tables_others hs hne))
      rw [← pde_some hr]
      exact he
  · rfl

/-- One process has a new record, or is no more; the memories of the others are kept. -/
theorem tasks_update (s' : State) (x : Option Proc) (hprocs : s'.procs = Function.update s.procs p x)
    (h : ∀ p' r, p' ≠ p → s.procs p' = some r → Space.memory ⟨s'.mem, r.pde⟩ = Space.memory ⟨s.mem, r.pde⟩) :
    s'.tasks = Function.update s.tasks p (x.map (·.task s'.mem)) := by
  funext p'
  rw [State.tasks, hprocs]
  by_cases e : p' = p
  · rw [e, Function.update_self, Function.update_self]
  · rw [Function.update_of_ne e, Function.update_of_ne e, State.tasks]
    cases hr : s.procs p' with
    | none => rfl
    | some r =>
      show some (Proc.task r s'.mem) = some (Proc.task r s.mem)
      rw [Proc.task, Proc.task, h p' r e hr]

theorem tasks_setProc (hs : Held s) (h : ∀ g, Used s.mem (s.tablesOf (s.live.erase p)) g → m'.frame g = s.mem.frame g) :
    (s.setProc p m' q').tasks = Function.update s.tasks p (some (q'.task m')) :=
  tasks_update (s.setProc p m' q') (some q') rfl fun _ _ e hr => memory_others hs e hr h

theorem tasks_exit (hs : Held s) (hp : s.procs p = some q) (h : taskExit s p q = .ok s') :
    s'.tasks = Function.update s.tasks p none := by
  obtain ⟨m₁, hm, h⟩ := ok_of_bind h
  cases h
  have hframe := (freePde_counted (hs.fits hp) hm).2
  exact tasks_update _ none rfl fun _ _ e hr => memory_others hs e hr fun g _ => congrFun hframe g

/-- The process that acts has done something to its own memory. -/
theorem acts_moves (hs : Held s) (hp : s.procs a.actor = some q)
    (hm : Moves (fun _ _ => True) ⟨s.mem, q.pde⟩ ⟨m', q'.pde⟩) (h : (q.task s.mem).Does a (q'.task m')) :
    Acts s.tasks a (s.setProc a.actor m' q').tasks := by
  rw [tasks_setProc hs fun g hg => Moves.keeps hm (hs.fits hp) g hg]
  exact .own a _ _ (tasks_some hp) h

/-- **An access.** -/
theorem acts_access (hs : Held s) (hp : s.procs a.actor = some q) (ha : (q.task s.mem).access a = some v)
    (hw : Task.written a = w) (hnone : o = none → v < USER_EXEC_ADDR ∨ USER_STACK_TOP ≤ v)
    (hsome : ∀ m' q', o = some (m', q') → Access s.mem q v w m' q')
    (h : accessed s a.actor q o = .ok s') : Acts s.tasks a s'.tasks := by
  cases o with
  | none =>
    have h : taskExit s a.actor q = .ok s' := h
    rw [tasks_exit hs hp h]
    exact .killed a _ v (tasks_some hp) ha (hnone rfl)
  | some x =>
    obtain ⟨m', q'⟩ := x
    cases h
    rcases hsome m' q' rfl with ⟨hm, hg, hb, hseg⟩ | ⟨w', rfl, ⟨hv, hmap, rfl, rfl⟩, h1⟩
    · refine acts_moves hs hp hm ?_
      have ht : q'.task m' = { q.task s.mem with memory := Space.memory ⟨m', q'.pde⟩ } := by
        rw [Proc.task, hb, hseg]
        rfl
      rw [ht]
      exact .touch a v _ ha hg
    · rw [tasks_setProc hs fun g hg => put_others (S := ⟨s.mem, q'.pde⟩) (hs.fits hp) hv hmap h1 hg]
      refine .own a _ _ (tasks_some hp) ?_
      have ht : q'.task (Space.put ⟨s.mem, q'.pde⟩ v w') =
          { q'.task s.mem with memory := (q'.task s.mem).memory.store v w' } := by
        rw [Proc.task, put_memory (S := ⟨s.mem, q'.pde⟩) (hs.fits hp) hv hmap h1]
        rfl
      rw [ht]
      exact .store a v w' ha hw (isSome_memory hv hmap rfl)

/-- **What an action does to the memories.** -/
theorem act_acts (hs : Held s) (hpriv : Private s.mem (s.tablesOf s.live))
    (hbrk : ∀ p q, s.procs p = some q → USER_EXEC_ADDR ≤ q.brk) (ha : Enabled s a = true) (hok : Proper a = true)
    (hst : StoresOwn s a = true) (h : act s a = .ok s') : Acts s.tasks a s'.tasks := by
  obtain ⟨c, rfl, rfl⟩ | ⟨q, hp, h⟩ := act_run h
  · have hc := Option.isNone_iff_eq_none.mp ha
    have hempty : Space.memory ⟨s.mem, taskToUserMode.pde⟩ = fun _ => none := by
      funext v
      simp [Space.memory, Space.read, Space.mapped, taskToUserMode, Word.zero]
    have ht : (born s s.mem c taskToUserMode).tasks = Function.update s.tasks c (some (taskToUserMode.task s.mem)) :=
      tasks_update (born s s.mem c taskToUserMode) (some taskToUserMode) rfl fun _ _ _ _ => rfl
    rw [ht, task_eq hempty rfl rfl]
    exact .start c (by rw [State.tasks, hc]; rfl)
  have hq := hs.sane a.actor q hp
  have hf := hs.fits hp
  cases a with
  | start c => cases h
  | fork p c =>
    obtain ⟨⟨m, pde⟩, hcopy, h⟩ := ok_of_bind h
    cases h
    have hc : s.procs c = none := Option.isNone_iff_eq_none.mp ha
    obtain ⟨hchild, hkept⟩ := copyPde_memory (S := ⟨s.mem, q.pde⟩) (tables_subset hs hp) hs.counted hcopy
    have ht : (born s m c { q with pde, segment := none }).tasks =
        Function.update s.tasks c (some (Proc.task { q with pde, segment := none } m)) :=
      tasks_update (born s m c { q with pde, segment := none }) (some { q with pde, segment := none }) rfl
        fun _ r _ hr => hkept r.pde (tables_subset hs hr)
    rw [ht, task_eq hchild rfl rfl]
    exact .fork p c (q.task s.mem) (tasks_some hp) (by rw [State.tasks, hc]; rfl)
  | load p v =>
    obtain ⟨o, ho, h⟩ := ok_of_bind h
    exact acts_access hs hp rfl rfl (fun e => load_ends (e ▸ ho)) (fun _ _ e => load_access hq hf (e ▸ ho)) h
  | userStore p v w =>
    obtain ⟨o, ho, h⟩ := ok_of_bind h
    have hv : v < SELF_MAP := of_decide_eq_true hok
    have hns : Space.mapped ⟨s.mem, q.pde⟩ v = true → (Space.entry ⟨s.mem, q.pde⟩ v).shared = false := by
      have hp : s.procs p = some q := hp
      rw [StoresOwn, hp] at hst
      intro hmap
      simpa [hmap] using hst
    exact acts_access hs hp rfl rfl (fun e => userStore_ends hv (e ▸ ho))
      (fun _ _ e => userStore_access hq hf (private_split hs hp hpriv) hv hns (e ▸ ho)) h
  | kernelStore p v w =>
    obtain ⟨o, ho, h⟩ := ok_of_bind h
    have hv := userAddr_of_proper hok
    have hp : s.procs p = some q := hp
    rw [StoresOwn, hp] at hst
    exact acts_access hs hp rfl rfl (fun e => kernelStore_ends hv (e ▸ ho))
      (fun _ _ e => kernelStore_access hq hf hv hst (e ▸ ho)) h
  | mmap p addr length fl =>
    obtain ⟨⟨m, q', r⟩, hm, h⟩ := ok_of_bind h
    cases h
    have hmv := (sysMmap_moves (P := fun _ _ => True) (Q := fun _ _ _ => True) (fun _ _ _ _ _ _ _ _ => ⟨trivial, trivial⟩)
      hq hm fun _ _ _ => trivial).1
    exact acts_moves hs hp hmv (sysMmap_does hq hf hm)
  | munmap p addr length =>
    obtain ⟨⟨m, q', r⟩, hm, h⟩ := ok_of_bind h
    cases h
    exact acts_moves hs hp (sysMunmap_moves hq hm).1 (sysMunmap_does hq hf hm)
  | brk p addr =>
    obtain ⟨⟨m, q', r⟩, hm, h⟩ := ok_of_bind h
    cases h
    exact acts_moves hs hp (sysBrk_moves hq hm).1 (sysBrk_does hq hf hm)
  | execve p =>
    obtain ⟨⟨m, q'⟩, hm, h⟩ := ok_of_bind h
    cases h
    exact acts_moves hs hp (execve_moves hq hm).1 (execve_does hq hf (hbrk _ _ hp) hm)
  | loadSegment p ptr ph =>
    obtain ⟨⟨m, q'⟩, hm, h⟩ := ok_of_bind h
    cases h
    rw [Proper, decide_eq_true_eq] at hok
    exact acts_moves hs hp (loadSegment_moves hq hok hm).1 (loadSegment_does hf (headerAt_of hp ha) hm)
  | segmentWord p i w =>
    obtain ⟨sg, o, hsg, hfills, ho, h⟩ := segmentWord_of hp ha h
    have hv := segment_addr hq hsg hfills
    have hp : s.procs p = some q := hp
    rw [StoresOwn, hp, Option.all_some, hsg, Option.all_some] at hst
    have haddr : (q.task s.mem).access (.segmentWord p i w) = some (sg.word i) := congrArg (Option.map _) hsg
    exact acts_access hs hp haddr rfl (fun e => kernelStore_ends hv (e ▸ ho))
      (fun _ _ e => kernelStore_access hq hf hv hst (e ▸ ho)) h
  | readAgain p ph =>
    obtain ⟨sg, hsg, rfl⟩ := readAgain_of h
    have hph := headerAt_again (c := fun sg => sg.clear.isNone) hp hsg ha
    exact acts_moves hs hp .refl (.readAgain p ph sg hsg ((headerAt_memory _ _).trans hph))
  | segmentZero p v w =>
    obtain ⟨o, ho, h⟩ := ok_of_bind h
    have hv := userAddr_of_proper hok
    have hp : s.procs p = some q := hp
    rw [StoresOwn, hp] at hst
    exact acts_access hs hp rfl rfl (fun e => kernelStore_ends hv (e ▸ ho))
      (fun _ _ e => kernelStore_access hq hf hv hst (e ▸ ho)) h
  | endSegment p ph =>
    obtain ⟨sg, m, q', hsg, hm, rfl⟩ := endSegment_of h
    have hph := headerAt_again (c := fun sg => sg.clear.isSome) hp hsg ha
    exact acts_moves hs hp (endSegment_moves admits_true hq hsg hm).1 (endSegment_does hq hf hsg hph hm)
  | exit p =>
    have h : taskExit s p q = .ok s' := h
    rw [tasks_exit hs hp h]
    exact .exit p

end Actions

/-! ## 8. Runs -/

/-- **The conditions on an action**: `Proper`, `MapsOwn` and `StoresOwn`. -/
def Alone (s : State) (a : Action) : Bool := Proper a && MapsOwn s a && StoresOwn s a

section Runs

variable {pages p v : Nat} {s₀ s s' : State} {as bs : List Action} {T T' : Nat → Option Task} {t t' : Task} {a : Action}
  {w : Word}

/-- The heap begins where the program does. -/
theorem Acted.low (h : Acted as T) : ∀ p t, T p = some t → USER_EXEC_ADDR ≤ t.brk := by
  induction h with
  | start =>
    intro p t h
    cases h
  | @act as a T T' _ ha ih =>
    have key : ∀ {p₀ : Nat} {x : Option Task}, (∀ t : Task, x = some t → USER_EXEC_ADDR ≤ t.brk) →
        ∀ p t, Function.update T p₀ x p = some t → USER_EXEC_ADDR ≤ t.brk := by
      intro p₀ x hx p t ht
      by_cases e : p = p₀
      · rw [e, Function.update_self] at ht
        exact hx t ht
      · rw [Function.update_of_ne e] at ht
        exact ih p t ht
    cases ha with
    | start c hc => exact key fun t ht => by cases ht; exact le_rfl
    | fork p c t hp hc => exact key fun t' ht => by cases ht; exact ih p t hp
    | exit p => exact key fun t ht => by cases ht
    | killed _ t v hp ha hv => exact key fun t ht => by cases ht
    | own _ t t' hp hd =>
      refine key fun t'' ht => ?_
      cases ht
      have hlow := ih _ _ hp
      cases hd with
      | touch _ v μ ha h => exact hlow
      | store _ v w ha hw h => exact hlow
      | mmap p addr length v fl μ hv h hall => exact hlow
      | munmap p addr length => exact hlow
      | shrink p addr hl h => exact hl
      | grow p addr hl h => exact hl
      | refuse p addr h => exact hlow
      | execve p μ h => exact le_rfl
      | loadSegment p ptr ph μ hph h => exact hlow
      | readAgain p ph sg hsg hph => exact hlow
      | endSegment p ph sg hsg hph => exact hlow

/-- One action after a run. -/
theorem acted_step (hk : CowKept pages s) (hT : Acted as s.tasks) (ha : Enabled s a = true) (hok : Alone s a = true)
    (h : act s a = .ok s') : CowKept pages s' ∧ Acts s.tasks a s'.tasks := by
  simp only [Alone, Bool.and_eq_true] at hok
  obtain ⟨⟨hproper, hmaps⟩, hstores⟩ := hok
  obtain ⟨hs, hpriv⟩ := cowKept_private hk
  refine ⟨hk.step a ha (by rw [hproper, hmaps]; rfl) h, ?_⟩
  exact act_acts hs hpriv (fun p q hp => hT.low p _ (tasks_some hp)) ha hproper hstores h

theorem acted_all (hk : CowKept pages s) (hT : Acted as s.tasks) (h : actAll Alone s bs = some s') :
    CowKept pages s' ∧ Acted (as ++ bs) s'.tasks := by
  induction bs generalizing as s with
  | nil =>
    cases h
    rw [List.append_nil]
    exact ⟨hk, hT⟩
  | cons a bs ih =>
    rw [actAll] at h
    split at h
    · next hen =>
        rw [Bool.and_eq_true] at hen
        split at h
        · next s₁ ha =>
            obtain ⟨hk₁, hacts⟩ := acted_step hk hT hen.1 hen.2 ha
            have hrest := ih hk₁ (hT.act hacts) h
            rw [List.append_assoc] at hrest
            exact hrest
        · cases h
    · cases h

theorem boot_acted (h₀ : Boot pages s₀) : CowKept pages s₀ ∧ Acted [] s₀.tasks := by
  refine ⟨.boot h₀, ?_⟩
  have ht : s₀.tasks = fun _ => none := funext fun p => by rw [State.tasks, h₀.procs]; rfl
  rw [ht]
  exact .start

/-- **Every process has a memory of its own.** Every run of the frames, page tables and counts in which the
    stores meet their condition is a run of the machine in which an action changes the memory of the process
    that acts, and `fork` copies one. -/
theorem memories_refined (h₀ : Boot pages s₀) (h : actAll Alone s₀ as = some s) : Acted as s.tasks :=
  (acted_all (boot_acted h₀).1 (boot_acted h₀).2 h).2

/-- A page is mapped and stored to, the process forks, and the child stores to the page, which is copied, and ends. -/
def diverging : List Action :=
  [.start 1, .mmap 1 USER_MMAP_ADDR 4096 ⟨true, false, true⟩, .userStore 1 USER_MMAP_ADDR (entryInit 7), .fork 1 2,
    .userStore 2 USER_MMAP_ADDR (entryInit 8), .userStore 2 USER_MMAP_ADDR (entryInit 8), .exit 2]

theorem memories_refined_diverging : (actAll Alone (bootState 4400) (diverging.take 4)).isSome ∧
    ∀ s, actAll Alone (bootState 4400) (diverging.take 4) = some s → Acted (diverging.take 4) s.tasks :=
  ⟨by decide +kernel, fun _ h => memories_refined (boot_bootState (by decide) (by decide)) h⟩

/-! ## 9. What a process reads -/

/-- **The action leaves the word at `v` of process `p` alone**: it is not a store of `p` to the word, the page is
    not given up, and `p` neither begins, ends nor runs another program. -/
def Spares (p v : Nat) : Action → Prop
  | .start c | .fork _ c => c ≠ p
  | .userStore p' u _ | .kernelStore p' u _ | .segmentZero p' u _ => p' = p → u / 4 ≠ v / 4
  | .munmap p' addr length => p' = p → ¬Within addr (divRoundUp length PAGE_SIZE) (IDX v)
  | .brk p' addr => p' = p → IDX v < IDX addr
  | .segmentWord p' _ _ | .execve p' => p' ≠ p
  | _ => True

/-- Process `p` is no more, or has the word. -/
def HasWord (T : Nat → Option Task) (p v : Nat) (w : Word) : Prop := ∀ t, T p = some t → t.memory v = some w

theorem Extends.word {N : Nat → Prop} {μ μ' : Memory} (h : Extends N μ μ') (hv : μ v = some w) : μ' v = some w := by
  rcases h v with e | ⟨e, -⟩
  · exact e.trans hv
  · rw [hv] at e
    cases e

/-- What a process does itself. -/
theorem Task.Does.word (hd : t.Does a t') (ha : Spares a.actor v a) (hv : t.memory v = some w) :
    t'.memory v = some w := by
  cases hd with
  | touch _ u μ hu h => exact h.word hv
  | store _ u w' hu hw h =>
    have hne : v / 4 ≠ u / 4 := by
      cases a with
      | userStore p' u' w' =>
        cases hu
        exact (ha rfl).symm
      | kernelStore p' u' w' =>
        cases hu
        exact (ha rfl).symm
      | segmentZero p' u' w' =>
        cases hu
        exact (ha rfl).symm
      | segmentWord p' i w' => exact (ha rfl).elim
      | _ => cases hw
    exact (if_neg hne).trans hv
  | mmap p addr length u fl μ hu h hall => exact h.word hv
  | munmap p addr length => exact (if_neg (ha rfl)).trans hv
  | shrink p addr hl h =>
    refine (if_neg fun hin => ?_).trans hv
    have hlt : IDX v < IDX addr := ha rfl
    unfold Within at hin
    omega
  | grow p addr hl h => exact hv
  | refuse p addr h => exact hv
  | execve p μ h => exact (ha rfl).elim
  | loadSegment p ptr ph μ hph h => exact h.word hv
  | readAgain p ph sg hsg hph => exact hv
  | endSegment p ph sg hsg hph => exact hv

/-- One action. -/
theorem Acts.word (h : Acts T a T') (ha : Spares p v a) (hv : HasWord T p v w) : HasWord T' p v w := by
  intro t' ht'
  cases h with
  | start c hc =>
    rw [Function.update_of_ne (Ne.symm ha)] at ht'
    exact hv t' ht'
  | fork q c t hp hc =>
    rw [Function.update_of_ne (Ne.symm ha)] at ht'
    exact hv t' ht'
  | exit q =>
    by_cases e : p = q
    · rw [e, Function.update_self] at ht'
      cases ht'
    · rw [Function.update_of_ne e] at ht'
      exact hv t' ht'
  | killed _ t u hp hu hout =>
    by_cases e : p = a.actor
    · rw [e, Function.update_self] at ht'
      cases ht'
    · rw [Function.update_of_ne e] at ht'
      exact hv t' ht'
  | own _ t t₁ hp hd =>
    by_cases e : p = a.actor
    · subst e
      rw [Function.update_self] at ht'
      cases ht'
      exact hd.word ha (hv t hp)
    · rw [Function.update_of_ne e] at ht'
      exact hv t' ht'

end Runs

end Yuios.Paging
