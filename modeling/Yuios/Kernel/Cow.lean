/-
  File:      Yuios/Kernel/Cow.lean
  Subject:   COPY ON WRITE: which entries may be written, and what a store in user mode reaches.

  * `Used`, `Move.keeps` -- what the calls do in one address space does not reach a frame that the
    tables of the others use.
  * `Private` -- the invariant: an entry with `write` and without `shared` names a frame that is
    counted once.
  * `MapsOwn` -- what `sys_mmap` does not check: that a page which is mapped already, and is to be
    written and not to be shared, is not shared with another process by `copy_pde`.
  * **`cow_kept`** -- in every run in which `sys_mmap` meets this.
  * `cow_lost` -- a page is mapped, the process forks, and the page is mapped again.
-/
import Yuios.Kernel.Frames

namespace Yuios.Paging

open Lib Relation

/-- A frame that the tables `A` use: one of them, or a page of one of them. -/
def Used (m : Mem) (A : Finset Nat) (g : Nat) : Prop :=
  g ∈ A ∨ ∃ T ∈ A, ∃ t < 1024, target (m.frame T t) = some g

/-- **An entry that may be written and is not shared names a frame that is counted once.** -/
def Private (m : Mem) (K : Finset Nat) : Prop :=
  ∀ T ∈ K, ∀ t < 1024, (m.frame T t).present = true → (m.frame T t).write = true →
    (m.frame T t).shared = false → m.memoryMap (m.frame T t).index ≤ 1

/-- What is known of an entry that changes. -/
def Good (m : Mem) (e : Word) : Prop :=
  e.write = true → e.shared = false → m.memoryMap e.index ≤ 1

theorem admits_good : Admits Good where
  closed := fun m e h hw => by
    rw [h] at hw
    cases hw
  sole := fun m e h _ _ => h.le

/-! ## 1. The frames of the others -/

section Used

variable {P : Mem → Word → Prop} {A : Finset Nat} {S S' : Space} {v g : Nat}

theorem Fits.used_pos (hf : Fits A S) (hg : Used S.mem A g) : S.mem.memoryMap g ≠ 0 := by
  obtain hg | ⟨T, hT, t, ht, he⟩ := hg
  · rw [hf.counted.table g (Finset.mem_union_left _ hg)]
    exact Nat.one_ne_zero
  · exact (hf.counted.entry (Finset.mem_union_left _ hT) ht he).1.ne'

/-- It is no table of the process. -/
theorem Fits.used_ne (hf : Fits A S) (hg : Used S.mem A g) (hv : UserAddr v)
    (hd : (S.pde (DIDX v)).present = true) : g ≠ (S.pde (DIDX v)).index := by
  rintro rfl
  obtain hg | ⟨T, hT, t, ht, he⟩ := hg
  · exact hf.rooted.apart _ hv.slot.1 hv.slot.2 hd hg
  · exact (hf.counted.entry (Finset.mem_union_left _ hT) ht he).2 (table_mem hv hd)

/-- **A move does not reach what the others use.** -/
theorem Move.keeps (h : Move P S S') (hf : Fits A S) (hg : Used S.mem A g) :
    S'.mem.frame g = S.mem.frame g := by
  have hpos := hf.used_pos hg
  cases h with
  | table d g₁ free hd ha hg₁ => exact Function.update_of_ne (by rintro rfl; exact hpos hg₁) _ _
  | page v g₁ free hv hd ha hg₁ => exact Function.update_of_ne (hf.used_ne hg hv hd) _ _
  | unmap v free hv hd he => exact Function.update_of_ne (hf.used_ne hg hv hd) _ _
  | edit v e hv hd he hP => exact Function.update_of_ne (hf.used_ne hg hv hd) _ _
  | copy v g₁ free hv hd he hn hg₁ =>
    exact (Function.update_of_ne (hf.used_ne hg hv hd) _ _).trans
      (Function.update_of_ne (by rintro rfl; exact hpos hg₁) _ _)

/-- What is used stays used. -/
theorem Used.congr {m m' : Mem} (hg : Used m A g) (h : ∀ g, Used m A g → m'.frame g = m.frame g) :
    Used m' A g := by
  obtain hg | ⟨T, hT, t, ht, he⟩ := hg
  · exact .inl hg
  · exact .inr ⟨T, hT, t, ht, by rw [h T (.inl hT)]; exact he⟩

theorem Moves.keeps (h : Moves P S S') (hf : Fits A S) :
    ∀ g, Used S.mem A g → S'.mem.frame g = S.mem.frame g := by
  induction h with
  | refl => exact fun _ _ => rfl
  | tail h hm ih =>
    intro g hg
    exact (hm.keeps (Moves.fits h hf) (hg.congr ih)).trans (ih g hg)

end Used

/-! ## 2. Entries that may be written -/

section Private

variable {A : Finset Nat} {S S' : Space} {v : Nat}

/-- One entry is written, and is good; the counts of what the others name do not grow. -/
theorem Private.setWord {m m' : Mem} {K : Finset Nat} {T t : Nat} {e : Word} (hp : Private m K)
    (hframe : ∀ U ∈ K, m'.frame U = (m.setWord T t e).frame U) (hnew : e.present = true → Good m' e)
    (hcount : ∀ U ∈ K, ∀ u < 1024, ∀ f, target (m.frame U u) = some f →
      m'.memoryMap f ≤ m.memoryMap f) : Private m' K := by
  intro U hU u hu
  rw [hframe U hU]
  by_cases h : U = T ∧ u = t
  · obtain ⟨rfl, rfl⟩ := h
    rw [setWord_self]
    exact hnew
  · rw [setWord_ne h]
    intro h1 h2 h3
    exact (hcount U hU u hu _ (target_present h1)).trans (hp U hU u hu h1 h2 h3)

/-- A frame is taken: the counts of what the entries name stay. -/
theorem count_take {m : Mem} {K : Finset Nat} {x : Nat → Nat} {g U u f n : Nat} (hc : Counted m K x)
    (hg : m.memoryMap g = 0) (hU : U ∈ K) (hu : u < 1024) (he : target (m.frame U u) = some f) :
    Function.update m.memoryMap g n f = m.memoryMap f := by
  refine Function.update_of_ne ?_ _ _
  rintro rfl
  exact (hc.free hg).2 U hU u hu he

theorem Move.owned (h : Move Good S S') (hf : Fits A S)
    (hp : Private S.mem (A ∪ tables S.pde FIRST_SLOT LAST_SLOT)) :
    Private S'.mem (A ∪ tables S'.pde FIRST_SLOT LAST_SLOT) := by
  have hc := hf.counted
  cases h with
  | table d g free hd ha hg =>
    show Private _ (A ∪ tables (Function.update S.pde d (entryInit g)) FIRST_SLOT LAST_SLOT)
    rw [tables_new hd.1 hd.2 ha rfl, Finset.union_insert]
    intro T hT t ht
    by_cases e : T = g
    · subst e
      rw [newTable_self]
      nofun
    · have hT := Finset.mem_of_mem_insert_of_ne hT e
      rw [newTable_ne e]
      intro h1 h2 h3
      exact (count_take hc hg hT ht (target_present h1)).trans_le (hp T hT t ht h1 h2 h3)
  | page v g free hv hd ha hg =>
    refine hp.setWord (fun _ _ => rfl) (fun _ _ _ => ?_) fun U hU u hu f he => ?_
    · exact (Function.update_self g 1 S.mem.memoryMap).le
    · exact (count_take hc hg hU hu he).le
  | unmap v free hv hd he =>
    refine hp.setWord (fun _ _ => rfl) nofun fun U hU u hu f he => ?_
    show Function.update S.mem.memoryMap _ _ f ≤ _
    by_cases e : f = (S.entry v).index
    · subst e
      rw [Function.update_self]
      exact Nat.sub_le _ _
    · rw [Function.update_of_ne e]
  | edit v e hv hd he hP => exact hp.setWord (fun _ _ => rfl) hP fun _ _ _ _ _ _ => Nat.le_refl _
  | copy v g free hv hd he hn hg =>
    have hne : g ≠ (S.entry v).index := by
      rintro rfl
      omega
    have hgK := (hc.free hg).1
    have hframe : ∀ U, U ∈ A ∪ tables S.pde FIRST_SLOT LAST_SLOT →
        ∀ r, Function.update S.mem.frame g r U = S.mem.frame U :=
      fun U hU r => Function.update_of_ne (by rintro rfl; exact hgK hU) _ _
    refine hp.setWord (T := (S.pde (DIDX v)).index) (t := TIDX v) (e := entryInit g)
      (fun U hU => ?_) (fun _ _ _ => ?_) fun U hU u hu f he => ?_
    · show Function.update (Function.update S.mem.frame g _) _
        (Function.update (Function.update S.mem.frame g _ _) _ _) U = Function.update S.mem.frame _ _ U
      rw [hframe _ (table_mem hv hd)]
      by_cases e : U = (S.pde (DIDX v)).index
      · subst e
        rw [Function.update_self, Function.update_self]
      · rw [Function.update_of_ne e, Function.update_of_ne e, hframe U hU]
    · show Function.update (Function.update S.mem.memoryMap g 1) _ _ g ≤ 1
      rw [Function.update_of_ne hne, Function.update_self]
    · show Function.update (Function.update S.mem.memoryMap g 1) _ _ f ≤ _
      by_cases e : f = (S.entry v).index
      · subst e
        rw [Function.update_self]
        exact Nat.sub_le _ _
      · rw [Function.update_of_ne e, count_take hc hg hU hu he]

theorem Moves.owned (h : Moves Good S S') (hf : Fits A S)
    (hp : Private S.mem (A ∪ tables S.pde FIRST_SLOT LAST_SLOT)) :
    Private S'.mem (A ∪ tables S'.pde FIRST_SLOT LAST_SLOT) := by
  induction h with
  | refl => exact hp
  | tail h hm ih => exact hm.owned (Moves.fits h hf) ih

/-- After `copy_pde` no entry may be written that is not shared. -/
theorem forkEntry_closed {e : Word} (h1 : (forkEntry e).present = true)
    (h2 : (forkEntry e).write = true) (h3 : (forkEntry e).shared = false) : False := by
  cases hp : e.present with
  | false => simp [forkEntry, hp] at h1
  | true =>
    cases hs : e.shared with
    | true => simp [forkEntry, shareEntry, hp, hs] at h3
    | false => simp [forkEntry, shareEntry, hp, hs] at h2

theorem usesFrom_none {r : Nat → Word} {f : Nat} (h : ∀ i < 1024, target (r i) ≠ some f) :
    usesFrom r 0 1024 f = 0 := by
  rw [usesFrom_all]
  exact Finset.sum_eq_zero fun i hi => hit_ne (h i (Finset.mem_range.mp hi))

/-- **`copy_pde` closes what it shares.** -/
theorem copies_private : Copies Private := by
  intro m m₁ K T g free hc hp hT hs hg U hU u hu
  have hclosed : ∀ i < 1024, (m₁.frame T i).present = true → (m₁.frame T i).write = true →
      (m₁.frame T i).shared = false → False := fun i hi => by
    rw [hs.inside i (Nat.zero_le i) (by omega)]
    exact forkEntry_closed
  by_cases e : U = g
  · subst e
    rw [fill_self]
    exact fun h1 h2 h3 => (hclosed u hu h1 h2 h3).elim
  rw [fill_ne e]
  have hU := Finset.mem_of_mem_insert_of_ne hU e
  show (m₁.frame U u).present = true → (m₁.frame U u).write = true → (m₁.frame U u).shared = false →
    Function.update m₁.memoryMap g 1 (m₁.frame U u).index ≤ 1
  by_cases eT : U = T
  · subst eT
    exact fun h1 h2 h3 => (hclosed u hu h1 h2 h3).elim
  rw [hs.other U eT]
  intro h1 h2 h3
  have hle := hp U hU u hu h1 h2 h3
  have hpos := (hc.entry hU hu (target_present h1)).1
  have hnone : usesFrom (m.frame T) 0 1024 (m.frame U u).index = 0 := usesFrom_none fun i hi he =>
    eT (hc.sole (by omega) hU hu hT hi (target_present h1) he).1
  have hcount : m₁.memoryMap (m.frame U u).index = m.memoryMap (m.frame U u).index := by
    rw [hs.count, hnone, Nat.add_zero]
  rw [Function.update_of_ne (by rintro rfl; omega), hcount]
  exact hle

/-- `free_pde` makes no count grow. -/
theorem freePde_private {m' : Mem} (hf : Fits A S)
    (hp : Private S.mem (A ∪ tables S.pde FIRST_SLOT LAST_SLOT)) (h : freePde S = .ok m') :
    Private m' A := by
  obtain ⟨hc, hframe⟩ := freePde_counted hf h
  intro T hT t ht
  rw [hframe]
  intro h1 h2 h3
  refine Nat.le_trans ?_ (hp T (Finset.mem_union_left _ hT) t ht h1 h2 h3)
  rw [hc.total, hf.counted.total, hframe]
  exact Nat.add_le_add_right
    (Nat.add_le_add_left (names_mono Finset.subset_union_left _) _) _

/-- A store to a page changes no entry. -/
theorem Private.put (hp : Private S.mem (A ∪ tables S.pde FIRST_SLOT LAST_SLOT)) (hf : Fits A S)
    (hv : UserAddr v) (hmap : S.mapped v = true) (w : Word) :
    Private (S.put v w) (A ∪ tables S.pde FIRST_SLOT LAST_SLOT) := by
  simp only [Space.mapped, Bool.and_eq_true] at hmap
  have hf' := (hf.counted.entry (table_mem hv hmap.1) (tidx_lt v) (target_present hmap.2)).2
  intro T hT
  rw [show (S.put v w).frame T = S.mem.frame T from
    Function.update_of_ne (by rintro rfl; exact hf' hT) _ _]
  exact hp T hT

end Private

/-! ## 3. `sys_mmap` -/

/-- The page is not there yet, or shared on purpose, or the task's alone. -/
def ownPage (S : Space) (v : Nat) : Bool :=
  !S.mapped v || (S.entry v).shared || S.mem.memoryMap (S.entry v).index ≤ 1

/-- **A page that is mapped to be written, and not to be shared, is not shared with another process.** -/
def MapsOwn (s : State) : Action → Bool
  | .mmap p addr length fl => !fl.write || fl.shared || (s.procs p).all fun q =>
    match mmapAddr q addr (divRoundUp length PAGE_SIZE) with
    | .error _ => true
    | .ok (v, _) => (List.range (divRoundUp length PAGE_SIZE)).all fun i =>
      USER_STACK_TOP ≤ v + i * PAGE_SIZE || ownPage ⟨s.mem, q.pde⟩ (v + i * PAGE_SIZE)
  | _ => true

section Mmap

variable {A : Finset Nat} {S S' : Space} {v v' d g free : Nat} {e : Word}

theorem ownPage_iff : ownPage S v = true ↔ (S.mapped v = true → (S.entry v).shared = false →
    S.mem.memoryMap (S.entry v).index ≤ 1) := by
  unfold ownPage
  cases S.mapped v <;> cases (S.entry v).shared <;> simp

theorem idx_eq (hv : UserAddr v) (hv' : UserAddr v') (hd : DIDX v = DIDX v') (ht : TIDX v = TIDX v') :
    IDX v = IDX v' := by
  unfold UserAddr SELF_MAP at hv hv'
  unfold DIDX at hd
  unfold TIDX at ht
  unfold IDX PAGE_SIZE
  omega

/-- An entry of another page stays when one is written. -/
theorem entry_setEntry_ne (hf : Fits A S) (hv : UserAddr v) (hv' : UserAddr v') (hne : IDX v' ≠ IDX v)
    (hd : (S.pde (DIDX v)).present = true) (hd' : (S.pde (DIDX v')).present = true) :
    (S.setEntry v e).entry v' = S.entry v' := by
  refine setWord_ne ?_
  rintro ⟨h1, h2⟩
  exact hne (idx_eq hv' hv (hf.rooted.inj _ _ hv'.slot.1 hv'.slot.2 hv.slot.1 hv.slot.2 hd' hd h1) h2)

/-- Another page stays one's own while an entry is written and a free frame taken. -/
theorem ownPage_setEntry (hf : Fits A S) (hv : UserAddr v) (hv' : UserAddr v')
    (hne : IDX v' ≠ IDX v) (hd : (S.pde (DIDX v)).present = true) (ho : ownPage S v' = true)
    (hpde : S'.pde = S.pde) (hframe : S'.mem.frame = (S.setEntry v e).mem.frame)
    (hcount : ∀ f, S.mem.memoryMap f ≠ 0 → S'.mem.memoryMap f = S.mem.memoryMap f) :
    ownPage S' v' = true := by
  rw [ownPage_iff] at ho ⊢
  intro hmap hs
  simp only [Space.mapped, Bool.and_eq_true] at hmap
  have hd' : (S.pde (DIDX v')).present = true := by rw [← hpde]; exact hmap.1
  have he : S'.entry v' = S.entry v' := by
    rw [← entry_setEntry_ne (e := e) hf hv hv' hne hd hd', Space.entry, Space.entry, hpde, hframe]
    rfl
  rw [he] at hmap hs ⊢
  have hpos : 0 < S.mem.memoryMap (S.entry v').index :=
    (hf.counted.entry (table_mem hv' hd') (tidx_lt v') (target_present hmap.2)).1
  rw [hcount _ hpos.ne']
  exact ho (by rw [Space.mapped, hd', hmap.2]; rfl) hs

/-- It stays one's own while a new table is made. -/
theorem ownPage_newTable (hf : Fits A S) (hv : UserAddr v) (hg : S.mem.memoryMap g = 0)
    (ho : ownPage S v = true) : ownPage (S.newTable d g free) v = true := by
  rw [ownPage_iff] at ho ⊢
  intro hmap hs
  simp only [Space.mapped, Bool.and_eq_true] at hmap
  by_cases hd : DIDX v = d
  · subst hd
    simp [Space.entry, Space.newTable, entryInit, fill_self, Word.zero] at hmap
  · have hpde : (S.newTable d g free).pde (DIDX v) = S.pde (DIDX v) := Function.update_of_ne hd _ _
    rw [hpde] at hmap
    have hT := table_mem (A := A) hv hmap.1
    have he : (S.newTable d g free).entry v = S.entry v := by
      rw [Space.entry, hpde, newTable_ne (by rintro e; exact (hf.counted.free hg).1 (e ▸ hT))]
      rfl
    rw [he] at hmap hs ⊢
    refine (count_take hf.counted hg hT (tidx_lt v) (target_present hmap.2)).trans_le ?_
    exact ho (by rw [Space.mapped, hmap.1, hmap.2]; rfl) hs

/-- **A page is linked and its entry written**: the entry is good, and the other pages stay one's
    own. -/
theorem linkPage_own (fl : MapFlags) (hf : Fits A S) (hv : UserAddr v) (h : linkPage S v = .ok S')
    (ho : ownPage S v = true) : Good S'.mem (mapEntry fl (S'.entry v)) ∧
      ∀ v', UserAddr v' → IDX v' ≠ IDX v → ownPage S v' = true →
        ownPage (S'.setEntry v (mapEntry fl (S'.entry v))) v' = true := by
  obtain ⟨hmap, rfl⟩ | ⟨S₁, g, free, hS₁, hd, he, hg, rfl⟩ := linkPage_cases h
  · refine ⟨fun hw hs => ?_, fun v' hv' hne ho' => ?_⟩
    · have hs' : (S'.entry v).shared = false := by
        unfold mapEntry at hs
        simp only [Bool.or_eq_false_iff] at hs
        exact hs.1
      exact ownPage_iff.mp ho hmap hs'
    · rw [Space.mapped, Bool.and_eq_true] at hmap
      exact ownPage_setEntry hf hv hv' hne hmap.1 ho' rfl rfl fun _ _ => rfl
  · have hf₁ : Fits A S₁ := by
      obtain rfl | ⟨g₁, free₁, ha, hg₁, rfl⟩ := hS₁
      · exact hf
      · exact (Move.table (P := Good) _ g₁ free₁ hv.slot ha hg₁).fits hf
    refine ⟨fun _ _ => ?_, fun v' hv' hne ho' => ?_⟩
    · rw [Space.newPage, entry_setEntry]
      exact (Function.update_self g 1 S₁.mem.memoryMap).le
    · have ho₁ : ownPage S₁ v' = true := by
        obtain rfl | ⟨g₁, free₁, -, hg₁, rfl⟩ := hS₁
        · exact ho'
        · exact ownPage_newTable hf hv' hg₁ ho'
      refine ownPage_setEntry (e := mapEntry fl ((S₁.newPage v g free).entry v)) hf₁ hv hv' hne hd ho₁
        rfl ?_ fun f hf => ?_
      · simp [Space.newPage, Space.setEntry, Mem.setWord, Mem.recount, Mem.setCount]
      · exact Function.update_of_ne (by rintro rfl; exact hf hg) _ _

theorem idx_add (v i : Nat) : IDX (v + (i + 1) * PAGE_SIZE) ≠ IDX v := by
  unfold IDX PAGE_SIZE
  omega

/-- The loop of `sys_mmap` over pages that are one's own. -/
theorem sysMmap_own {m m' : Mem} {q q' : Proc} {addr length r : Nat} {fl : MapFlags} (hs : Sane q)
    (hf : Fits A ⟨m, q.pde⟩) (h : sysMmap m q addr length fl = .ok (m', q', r))
    (hown : ∀ v b, mmapAddr q addr (divRoundUp length PAGE_SIZE) = .ok (v, b) →
      ∀ i < divRoundUp length PAGE_SIZE, v + i * PAGE_SIZE < USER_STACK_TOP →
        ownPage ⟨m, q.pde⟩ (v + i * PAGE_SIZE) = true) :
    Moves Good ⟨m, q.pde⟩ ⟨m', q'.pde⟩ ∧ Sane q' := by
  refine sysMmap_moves (Q := fun n v S => Fits A S ∧
    ∀ i < n, v + i * PAGE_SIZE < USER_STACK_TOP → ownPage S (v + i * PAGE_SIZE) = true)
    (fun n v S S₁ hv hlt hQ hl => ?_) hs h fun v b hv => ⟨hf, hown v b hv⟩
  obtain ⟨hf, hall⟩ := hQ
  have hu := userAddr_of_mmap hv hlt
  obtain ⟨hgood, hothers⟩ := linkPage_own fl hf hu hl
    (by simpa using hall 0 (Nat.succ_pos n) (by simpa using hlt))
  obtain ⟨hm, hmap⟩ := linkPage_moves (P := Good) hu hl
  rw [Space.mapped, Bool.and_eq_true] at hmap
  have hedit := hm.tail (.edit v (mapEntry fl (S₁.entry v)) hu hmap.1 rfl fun _ => hgood)
  refine ⟨hgood, Moves.fits hedit hf, fun i hi hlt' => ?_⟩
  rw [page_add] at hlt' ⊢
  exact hothers _ (userAddr_of_mmap (by omega) hlt') (idx_add v i) (hall (i + 1) (by omega) hlt')

end Mmap

/-! ## 4. All processes -/

section Actions

variable {s s' : State} {p : Nat} {q : Proc}

theorem private_split (hs : Held s) (hp : s.procs p = some q)
    (h : Private s.mem (s.tablesOf s.live)) :
    Private s.mem (s.tablesOf (s.live.erase p) ∪ tables q.pde FIRST_SLOT LAST_SLOT) := by
  rwa [← Finset.insert_eq_of_mem (hs.mem_live hp), tablesOf_insert, pde_some hp] at h

/-- **Every action keeps the entries private**, if `sys_mmap` does. -/
theorem Did.owned (hd : Did Good s s') (hs : Held s) (h : Private s.mem (s.tablesOf s.live)) :
    Private s'.mem (s'.tablesOf s'.live) := by
  cases hd with
  | start c hc =>
    show Private s.mem ((born s s.mem c taskToUserMode).tablesOf (insert c s.live))
    rw [tablesOf_born, erase_new hs hc]
    have ht : tables taskToUserMode.pde FIRST_SLOT LAST_SLOT = ∅ := by
      simp [tables, taskToUserMode, Word.zero]
    rwa [ht, Finset.union_empty]
  | fork p c q m pde hp hc hcopy =>
    show Private m ((born s m c { q with pde, segment := none }).tablesOf (insert c s.live))
    rw [tablesOf_born, erase_new hs hc]
    exact (copyPde_fits (S := ⟨s.mem, q.pde⟩) copies_private (tables_subset hs hp)
      hs.counted h hcopy).2
  | exit p q _ hp he =>
    obtain ⟨m₁, hm, he⟩ := ok_of_bind he
    cases he
    show Private m₁ (State.tablesOf _ (s.live.erase p))
    rw [tablesOf_exit]
    exact freePde_private (hs.fits hp) (private_split hs hp h) hm
  | moves p q q' m hp hm hq =>
    rw [setProc_born hs hp]
    show Private m ((born s m p q').tablesOf (insert p s.live))
    rw [tablesOf_born]
    exact hm.owned (hs.fits hp) (private_split hs hp h)
  | stores p v w q hp hv hmap =>
    rw [setProc_born hs hp]
    show Private _ ((born s _ p q).tablesOf (insert p s.live))
    rw [tablesOf_born]
    exact Private.put (S := ⟨s.mem, q.pde⟩) (private_split hs hp h) (hs.fits hp) hv hmap w

theorem mapsOwn_moves {addr length r : Nat} {fl : MapFlags} {m' : Mem} {q' : Proc} (hs : Held s)
    (hp : s.procs p = some q) (hok : MapsOwn s (.mmap p addr length fl) = true)
    (h : sysMmap s.mem q addr length fl = .ok (m', q', r)) :
    Moves Good ⟨s.mem, q.pde⟩ ⟨m', q'.pde⟩ ∧ Sane q' := by
  have hq := hs.sane p q hp
  simp only [MapsOwn, hp, Option.all_some, Bool.or_eq_true, Bool.not_eq_true'] at hok
  obtain (hw | hsh) | hall := hok
  · exact sysMmap_moves (Q := fun _ _ _ => True) (fun _ _ _ _ _ _ _ _ =>
      ⟨fun hw' => by simp [mapEntry, hw] at hw', trivial⟩) hq h fun _ _ _ => trivial
  · exact sysMmap_moves (Q := fun _ _ _ => True) (fun _ _ _ _ _ _ _ _ =>
      ⟨fun _ hs' => by simp [mapEntry, hsh] at hs', trivial⟩) hq h fun _ _ _ => trivial
  · refine sysMmap_own hq (hs.fits hp) h fun v b hv i hi hlt => ?_
    rw [hv] at hall
    have := List.all_eq_true.mp hall i (List.mem_range.mpr hi)
    rw [Bool.or_eq_true, decide_eq_true_eq] at this
    exact this.resolve_left (by omega)

/-- **What an action comes to**, if `sys_mmap` meets the condition. -/
theorem act_good {a : Action} (hs : Held s) (ha : Enabled s a = true) (hok : Proper a = true)
    (hown : MapsOwn s a = true) (h : act s a = .ok s') : Did Good s s' :=
  act_did admits_good hs ha hok (fun _ _ _ _ _ _ _ _ e hp hm => mapsOwn_moves hs hp (e ▸ hown) hm) h

end Actions

/-! ## 5. Stores in user mode -/

/-- What process `p` reads at an address. -/
def State.read (s : State) (p v : Nat) : Option Word := Space.read ⟨s.mem, s.pde p⟩ v

section Read

variable {s s' : State} {p p' v v' : Nat} {q q' : Proc} {m' : Mem} {w : Word}

/-- What a process reads is in its tables and in the frames they name. -/
theorem read_congr (hp : s'.procs p = s.procs p) (hv : UserAddr v)
    (h : ∀ g, Used s.mem (tables (s.pde p) FIRST_SLOT LAST_SLOT) g → s'.mem.frame g = s.mem.frame g) :
    s'.read p v = s.read p v := by
  have hpde : s'.pde p = s.pde p := by rw [State.pde, State.pde, hp]
  unfold State.read
  rw [hpde]
  by_cases hd : (s.pde p (DIDX v)).present = true
  · have hT := mem_tables_of hv.slot.1 hv.slot.2 hd
    have he : Space.entry ⟨s'.mem, s.pde p⟩ v = Space.entry ⟨s.mem, s.pde p⟩ v :=
      congrFun (h _ (.inl hT)) _
    have hm : Space.mapped ⟨s'.mem, s.pde p⟩ v = Space.mapped ⟨s.mem, s.pde p⟩ v := by
      rw [Space.mapped, Space.mapped, he]
    unfold Space.read
    rw [hm, he]
    split
    · next hmap =>
        rw [Space.mapped, Bool.and_eq_true] at hmap
        exact congrArg some (congrFun (h _ (.inr ⟨_, hT, TIDX v, tidx_lt v, target_present hmap.2⟩)) _)
    · rfl
  · simp [Space.read, Space.mapped, hd]

theorem Used.mono {m : Mem} {A B : Finset Nat} (hAB : A ⊆ B) {g : Nat} (h : Used m A g) : Used m B g :=
  h.imp (fun h => hAB h) fun ⟨T, hT, h⟩ => ⟨T, hAB hT, h⟩

/-- The tables of another process are tables of the others. -/
theorem tables_others (hs : Held s) (hne : p' ≠ p) :
    tables (s.pde p') FIRST_SLOT LAST_SLOT ⊆ s.tablesOf (s.live.erase p) := by
  intro T hT
  obtain ⟨d, h1, h2, h3, h4⟩ := mem_tables.mp hT
  refine mem_tablesOf.mpr ⟨p', Finset.mem_erase.mpr ⟨hne, ?_⟩, d, ⟨h1, h2⟩, h3, h4⟩
  rw [hs.alive]
  by_contra hno
  rw [Bool.not_eq_true, Option.isSome_eq_false_iff, Option.isNone_iff_eq_none] at hno
  simp [State.pde, hno, Word.zero] at h3

/-- What a process may write, and does not share, nobody else uses. -/
theorem put_keeps {A : Finset Nat} {S : Space} (hf : Fits A S)
    (hp : Private S.mem (A ∪ tables S.pde FIRST_SLOT LAST_SLOT)) (hv : UserAddr v)
    (hmap : S.mapped v = true) (hw : (S.entry v).write = true) (hns : (S.entry v).shared = false)
    {g : Nat} (hg : Used S.mem A g) : (S.put v w).frame g = S.mem.frame g := by
  rw [Space.mapped, Bool.and_eq_true] at hmap
  have hT := table_mem (A := A) hv hmap.1
  have hentry : target (S.mem.frame (S.pde (DIDX v)).index (TIDX v)) = some (S.entry v).index :=
    target_present hmap.2
  obtain ⟨hpos, hnK⟩ := hf.counted.entry hT (tidx_lt v) hentry
  refine Function.update_of_ne ?_ _ _
  rintro rfl
  obtain hg | ⟨T, hTA, t, ht, he⟩ := hg
  · exact hnK (Finset.mem_union_left _ hg)
  · have hle : S.mem.memoryMap (S.entry v).index ≤ 1 := hp _ hT _ (tidx_lt v) hmap.2 hw hns
    have hsole := (hf.counted.sole (by omega) (Finset.mem_union_left _ hTA) ht hT (tidx_lt v) he hentry).1
    exact hf.rooted.apart _ hv.slot.1 hv.slot.2 hmap.1 (hsole ▸ hTA)

/-- **A store in user mode reaches no other process**, if the page is not shared. -/
theorem userStore_others (hs : Held s) (hpriv : Private s.mem (s.tablesOf s.live)) (hv : v < SELF_MAP)
    (hns : ∀ q, s.procs p = some q → Space.mapped ⟨s.mem, q.pde⟩ v = true →
      (Space.entry ⟨s.mem, q.pde⟩ v).shared = false)
    (h : act s (.userStore p v w) = .ok s') (hne : p' ≠ p) (hv' : UserAddr v') :
    s'.read p' v' = s.read p' v' := by
  obtain ⟨c, hc, -⟩ | ⟨q, hp, h⟩ := act_run h
  · cases hc
  obtain ⟨o, ho, h⟩ := ok_of_bind h
  have hf := hs.fits hp
  cases o with
  | none =>
    obtain ⟨m₁, hm, h⟩ := ok_of_bind h
    cases h
    exact read_congr (Function.update_of_ne hne _ _) hv' fun g _ =>
      congrFun (freePde_counted hf hm).2 g
  | some r =>
    cases h
    refine read_congr (Function.update_of_ne hne _ _) hv' fun g hg => ?_
    have hg' := hg.mono (tables_others hs hne)
    obtain ⟨hm, -⟩ | ⟨⟨hu, hmap, hmem, -⟩, hw⟩ :=
      userStore_cases admits_good (hs.sane p q hp) hv ho
    · exact Moves.keeps hm hf g hg'
    · show r.1.frame g = _
      rw [hmem]
      exact put_keeps hf (private_split hs hp hpriv) hu hmap hw (hns q hp hmap) hg'

end Read

/-! ## 6. Runs -/

/-- The states reached by proper actions in which `sys_mmap` maps what is the task's own. -/
abbrev CowKept : Nat → State → Prop := Run fun s a => Proper a && MapsOwn s a

theorem cowKept_private {pages : Nat} {s : State} (h : CowKept pages s) :
    Held s ∧ Private s.mem (s.tablesOf s.live) := by
  induction h with
  | boot h =>
    refine ⟨boot_held h, ?_⟩
    rw [h.live]
    nofun
  | step _ a ha hok hs ih =>
    rw [Bool.and_eq_true] at hok
    have hd := act_good ih.1 ha hok.1 hok.2 hs
    exact ⟨hd.held ih.1, hd.owned ih.1 ih.2⟩

/-- **Copy on write.** In every state reached, an entry of a user's page with `write` and without
    `shared` names a frame that is counted once; so a store in user mode to a page that is not shared
    changes nothing that another process reads. -/
theorem cow_kept {pages : Nat} {s : State} (h : CowKept pages s) :
    (∀ p q, s.procs p = some q → ∀ d t, UserSlot d → t < 1024 → (q.pde d).present = true →
      (s.mem.frame (q.pde d).index t).present = true → (s.mem.frame (q.pde d).index t).write = true →
      (s.mem.frame (q.pde d).index t).shared = false →
      s.mem.memoryMap (s.mem.frame (q.pde d).index t).index ≤ 1) ∧
    (∀ p v w s', UserAddr v → (∀ q, s.procs p = some q → Space.mapped ⟨s.mem, q.pde⟩ v = true →
        (Space.entry ⟨s.mem, q.pde⟩ v).shared = false) → act s (.userStore p v w) = .ok s' →
      ∀ p' v', p' ≠ p → UserAddr v' → s'.read p' v' = s.read p' v') := by
  obtain ⟨hs, hpriv⟩ := cowKept_private h
  refine ⟨fun p q hp d t hd ht hpres => ?_, fun p v w s' hv hns ha p' v' hne hv' => ?_⟩
  · exact hpriv _ (tables_subset hs hp (mem_tables_of hd.1 hd.2 hpres)) t ht
  · exact userStore_others hs hpriv hv.2 hns ha hne hv'

/-- A process maps a page and forks. -/
def forking : List Action := [.start 1, .mmap 1 USER_MMAP_ADDR 4096 ⟨true, false, true⟩, .fork 1 2]

/-- The first store meets a page that is closed, the second is made in a copy. -/
def storing : List Action :=
  forking ++ [.userStore 1 USER_MMAP_ADDR (entryInit 7), .userStore 1 USER_MMAP_ADDR (entryInit 7)]

theorem cow_kept_forking :
    ((actAll (fun s a => Proper a && MapsOwn s a) (bootState 4400) storing).map fun s =>
      (s.read 1 USER_MMAP_ADDR, s.read 2 USER_MMAP_ADDR)) = some (some (entryInit 7), some .zero) ∧
    ∀ s, actAll (fun s a => Proper a && MapsOwn s a) (bootState 4400) storing = some s →
      ∀ p q, s.procs p = some q → ∀ d t, UserSlot d → t < 1024 → (q.pde d).present = true →
        (s.mem.frame (q.pde d).index t).present = true →
        (s.mem.frame (q.pde d).index t).write = true →
        (s.mem.frame (q.pde d).index t).shared = false →
        s.mem.memoryMap (s.mem.frame (q.pde d).index t).index ≤ 1 :=
  ⟨by decide +kernel,
    fun _ hs => (cow_kept ((Run.boot (boot_bootState (by decide) (by decide))).all hs)).1⟩

/-- What the state is asked for: the entry of process 1, the count of its frame, and what process 2 reads before
    and after a store. -/
def askEntry (s : State) : (Bool × Bool × Nat × Nat) × Option Word × Option (Option Word) :=
  let e := Space.entry ⟨s.mem, s.pde 1⟩ USER_MMAP_ADDR
  ((e.write, e.shared, e.index, s.mem.memoryMap 4097), s.read 2 USER_MMAP_ADDR,
    (act s (.userStore 1 USER_MMAP_ADDR (entryInit 7))).toOption.map fun s => s.read 2 USER_MMAP_ADDR)

/-- **`sys_mmap` opens a page that `copy_pde` has closed**: the child reads what its parent stores. -/
theorem cow_lost : ∃ s s', Kept 4400 s ∧
    (Space.entry ⟨s.mem, s.pde 1⟩ USER_MMAP_ADDR).write = true ∧
    (Space.entry ⟨s.mem, s.pde 1⟩ USER_MMAP_ADDR).shared = false ∧
    s.mem.memoryMap (Space.entry ⟨s.mem, s.pde 1⟩ USER_MMAP_ADDR).index = 2 ∧
    act s (.userStore 1 USER_MMAP_ADDR (entryInit 7)) = .ok s' ∧
    s.read 2 USER_MMAP_ADDR = some .zero ∧ s'.read 2 USER_MMAP_ADDR = some (entryInit 7) := by
  have hrun : (actAll (fun _ a => Proper a) (bootState 4400)
      (forking ++ [.mmap 1 USER_MMAP_ADDR 4096 ⟨true, false, true⟩])).map askEntry
      = some ((true, false, 4097, 2), some .zero, some (some (entryInit 7))) := by decide +kernel
  obtain ⟨s, hs, he⟩ := Option.map_eq_some_iff.mp hrun
  simp only [askEntry, Prod.mk.injEq] at he
  obtain ⟨⟨h1, h2, h3, h4⟩, h5, h6⟩ := he
  have hkept : Kept 4400 s := (Run.boot (boot_bootState (by decide) (by decide))).all hs
  cases ha : act s (.userStore 1 USER_MMAP_ADDR (entryInit 7)) with
  | error e =>
    rw [ha] at h6
    cases h6
  | ok s₁ =>
    rw [ha] at h6
    exact ⟨s, s₁, hkept, h1, h2, h3 ▸ h4, ha, h5, Option.some.inj h6⟩

end Yuios.Paging
