/-
  File:      Yuios/Kernel/Linking.lean
  Subject:   PAGES THAT ARE LINKED AND PROTECTED: what `link_page` and the two page loops of
             `load_segment` leave behind, where there are frames enough.

  * `Space.pageAt` -- the entry of the page at an address, if there is one.
  * `Stays` -- between two address spaces: the entries of the pages outside `R` are the same.
  * `Room` -- so many frames can be taken.
  * **`linkSegment_links`, `protectSegment_protects`** -- the loops come to their end.
-/
import Yuios.Kernel.Faulting
import Yuios.Kernel.Mapping

namespace Yuios.Paging

open Lib

/-- The entry of the page at an address. -/
def Space.pageAt (S : Space) (v : Nat) : Option Word := if S.mapped v then some (S.entry v) else none

/-- **What stays**: the tables there were, and the entries of the pages whose number is not in `R`. -/
structure Stays (R : Nat → Prop) (S S' : Space) : Prop where
  slots : ∀ d, (S.pde d).present = true → S'.pde d = S.pde d
  pages : ∀ v, UserAddr v → ¬R (IDX v) → S'.pageAt v = S.pageAt v

/-- **`n` frames can be taken**, and `free_pages`, a `u32`, says so. -/
structure Room (m : Mem) (n : Nat) : Prop where
  frames : n ≤ (freeFrames m).card
  counted : n < m.freePages
  small : m.freePages < 2 ^ 32

/-! ## 1. Entries -/

section Stays

variable {A : Finset Nat} {R R' : Nat → Prop} {S S' S₁ : Space} {u v d g free : Nat} {e : Word}

theorem pageAt_mapped : (S.pageAt v).isSome = S.mapped v := by
  unfold Space.pageAt
  cases S.mapped v <;> rfl

theorem pageAt_some (h : S.mapped v = true) : S.pageAt v = some (S.entry v) := if_pos h

theorem pageAt_iff : S.pageAt v = some e ↔ S.mapped v = true ∧ S.entry v = e := by
  unfold Space.pageAt
  cases S.mapped v <;> simp

theorem pageAt_none (h : (S.pde (DIDX v)).present = false) : S.pageAt v = none := by
  unfold Space.pageAt Space.mapped
  rw [h]
  rfl

/-- The page is the same for all addresses in it. -/
theorem pageAt_page (h : IDX u = IDX v) : S.pageAt u = S.pageAt v := by
  have hd : DIDX u = DIDX v := by
    unfold IDX PAGE_SIZE at h
    unfold DIDX
    omega
  have ht : TIDX u = TIDX v := by
    unfold IDX PAGE_SIZE at h
    unfold TIDX
    omega
  unfold Space.pageAt Space.mapped Space.entry
  rw [hd, ht]

theorem Stays.refl (S : Space) : Stays R S S := ⟨fun _ _ => rfl, fun _ _ _ => rfl⟩

theorem Stays.mono (h : Stays R S S') (hR : ∀ k, R k → R' k) : Stays R' S S' :=
  ⟨h.slots, fun v hv hno => h.pages v hv fun hr => hno (hR _ hr)⟩

theorem Stays.trans (h : Stays R S S₁) (h' : Stays R S₁ S') : Stays R S S' :=
  ⟨fun d hd => (h'.slots d (by rw [h.slots d hd]; exact hd)).trans (h.slots d hd),
    fun v hv hno => (h'.pages v hv hno).trans (h.pages v hv hno)⟩

theorem Stays.mapped (h : Stays R S S') (hv : UserAddr v) (hno : ¬R (IDX v)) : S'.mapped v = S.mapped v := by
  rw [← pageAt_mapped, h.pages v hv hno, pageAt_mapped]

theorem Stays.entry (h : Stays R S S') (hv : UserAddr v) (hno : ¬R (IDX v)) (hm : S.mapped v = true) :
    S'.mapped v = true ∧ S'.entry v = S.entry v :=
  pageAt_iff.mp ((h.pages v hv hno).trans (pageAt_some hm))

/-- An entry is written. -/
theorem stays_setEntry (hf : Fits A S) (hv : UserAddr v) (hd : (S.pde (DIDX v)).present = true) (e : Word) :
    Stays (· = IDX v) S (S.setEntry v e) := by
  refine ⟨fun _ _ => rfl, fun u hu hne => ?_⟩
  cases hd' : (S.pde (DIDX u)).present with
  | false =>
    have hnone : (S.setEntry v e).pageAt u = none := pageAt_none hd'
    rw [hnone, pageAt_none hd']
  | true =>
    have he : (S.setEntry v e).entry u = S.entry u := entry_setEntry_ne hf hv hu hne hd hd'
    unfold Space.pageAt Space.mapped
    rw [he]
    rfl

/-- A table is made: it is empty. -/
theorem stays_newTable (hf : Fits A S) (ha : (S.pde d).present = false) (hg : S.mem.memoryMap g = 0) :
    Stays R S (S.newTable d g free) := by
  have hslot : ∀ d', d' ≠ d → (S.newTable d g free).pde d' = S.pde d' :=
    fun d' hd' => Function.update_of_ne hd' _ _
  refine ⟨fun d' hd' => hslot d' ?_, fun v hv _ => ?_⟩
  · rintro rfl
    rw [ha] at hd'
    cases hd'
  · by_cases e : DIDX v = d
    · have hnone : S.pageAt v = none := pageAt_none (e ▸ ha)
      rw [hnone]
      simp [Space.pageAt, Space.mapped, Space.entry, Space.newTable, e, entryInit, fill_self, Word.zero]
    · cases hd : (S.pde (DIDX v)).present with
      | false => rw [pageAt_none hd, pageAt_none (by rw [hslot _ e]; exact hd)]
      | true =>
        have hne : (S.pde (DIDX v)).index ≠ g := by
          intro he
          exact (hf.counted.free hg).1 (he ▸ table_mem hv hd)
        unfold Space.pageAt Space.mapped Space.entry
        rw [hslot _ e, newTable_ne hne]

end Stays

/-! ## 2. Frames -/

section Frames

variable {A : Finset Nat} {S S' : Space} {m m' : Mem} {v k n : Nat} {e : Word}

theorem Room.mono (h : Room m n) (hk : k ≤ n) : Room m k :=
  ⟨Nat.le_trans hk h.frames, Nat.lt_of_le_of_lt hk h.counted, h.small⟩

/-- **A frame is taken.** -/
theorem getPage_room (h : Room m (n + 1)) : ∃ m' g, getPage m = .ok (m', g) ∧ Room m' n := by
  have hcounted := h.counted
  have hsmall := h.small
  have henough : Enough m 1 := ⟨Nat.le_trans (Nat.le_add_left 1 n) h.frames, .inr (by omega)⟩
  obtain ⟨⟨m', g⟩, hget, -⟩ := (getPage_iff m).mpr henough
  obtain ⟨hfree, -⟩ := getPage_free hget
  obtain ⟨hg, hlow, hhigh, free, rfl⟩ := getPage_ok hget
  have hmem : g ∈ freeFrames m := Finset.mem_filter.mpr ⟨Finset.mem_Ico.mpr ⟨hlow, hhigh⟩, hg⟩
  refine ⟨_, g, hget, ?_, by omega, by omega⟩
  rw [freeFrames_recount, Finset.card_erase_of_mem hmem]
  exact Nat.le_sub_one_of_lt h.frames

theorem room_fill {g : Nat} {r : Nat → Word} : Room (m.fill g r) n ↔ Room m n := by
  constructor
  · exact fun h => ⟨h.frames, h.counted, h.small⟩
  · exact fun h => ⟨h.frames, h.counted, h.small⟩

theorem room_setEntry : Room (S.setEntry v e).mem n ↔ Room S.mem n := by
  constructor
  · exact fun h => ⟨h.frames, h.counted, h.small⟩
  · exact fun h => ⟨h.frames, h.counted, h.small⟩

theorem getPte_room (h : Room S.mem (n + 1)) : ∃ S', getPte S v true = .ok S' ∧ Room S'.mem n := by
  by_cases hd : (S.pde (DIDX v)).present = true
  · exact ⟨S, getPte_same hd, h.mono (Nat.le_succ n)⟩
  · obtain ⟨m', g, hget, hroom⟩ := getPage_room h
    refine ⟨⟨m'.fill g fun _ => .zero, Function.update S.pde (DIDX v) (entryInit g)⟩, ?_, room_fill.mpr hroom⟩
    unfold getPte
    rw [Kernel.assert, if_pos (by simp)]
    show (if (S.pde (DIDX v)).present = true then _ else getPage S.mem >>= _) = _
    rw [if_neg hd, hget]
    rfl

/-- The page is linked, for two frames at most. -/
theorem linkPage_room (ha : v % PAGE_SIZE = 0) (h : Room S.mem (n + 2)) :
    ∃ S', linkPage S v = .ok S' ∧ Room S'.mem n := by
  obtain ⟨S₁, h1, hroom⟩ := getPte_room (v := v) h
  have hlink : linkPage S v = if (S₁.entry v).present then pure S₁ else
      getPage S₁.mem >>= fun r => pure ({ S₁ with mem := r.1 }.setEntry v (entryInit r.2)) := by
    unfold linkPage
    rw [Kernel.assert, if_pos (by simpa using ha), h1]
    rfl
  rw [hlink]
  by_cases he : (S₁.entry v).present = true
  · rw [if_pos he]
    exact ⟨S₁, rfl, hroom.mono (Nat.le_succ n)⟩
  · obtain ⟨m', g, hget, hroom'⟩ := getPage_room hroom
    rw [if_neg he, hget]
    exact ⟨_, rfl, room_setEntry.mpr hroom'⟩

/-- **A page is linked.** -/
theorem linkPage_links (hf : Fits A S) (hv : UserAddr v) (ha : v % PAGE_SIZE = 0) (h : Room S.mem (n + 2)) :
    ∃ S', linkPage S v = .ok S' ∧ Fits A S' ∧ Stays (· = IDX v) S S' ∧ S'.mapped v = true ∧ Room S'.mem n := by
  obtain ⟨S', hlink, hroom⟩ := linkPage_room ha h
  obtain ⟨hm, hmapped⟩ := linkPage_moves (P := fun _ _ => True) hv hlink
  refine ⟨S', hlink, hm.fits hf, ?_, hmapped, hroom⟩
  rcases linkPage_cases hlink with ⟨-, rfl⟩ | ⟨S₁, g, free, hS₁, hd, he, hg, rfl⟩
  · exact .refl _
  · have h1 : Fits A S₁ ∧ Stays (· = IDX v) S S₁ := by
      rcases hS₁ with rfl | ⟨g₁, free₁, hd₁, hg₁, rfl⟩
      · exact ⟨hf, .refl _⟩
      · exact ⟨(Move.table (P := fun _ _ => True) _ g₁ free₁ hv.slot hd₁ hg₁).fits hf,
          stays_newTable hf hd₁ hg₁⟩
    refine h1.2.trans ⟨fun _ _ => rfl, fun u hu hne => ?_⟩
    exact (stays_setEntry h1.1 hv hd (entryInit g)).pages u hu hne

end Frames

/-! ## 3. The loops of `load_segment` -/

section Loops

variable {A : Finset Nat} {S : Space} {v n k : Nat}

/-- **The pages of a segment are linked.** -/
theorem linkSegment_links (hf : Fits A S) (hv : USER_EXEC_ADDR ≤ v) (hend : v + n * PAGE_SIZE ≤ USER_MMAP_ADDR)
    (ha : v % PAGE_SIZE = 0) (hr : Room S.mem (k + 2 * n)) :
    ∃ S', linkSegment n v S = .ok S' ∧ Fits A S' ∧ Stays (Within v n) S S' ∧
      (∀ i < n, S'.mapped (v + i * PAGE_SIZE) = true) ∧ Room S'.mem k := by
  induction n generalizing v S with
  | zero => exact ⟨S, rfl, hf, .refl S, nofun, hr⟩
  | succ n ih =>
    have hlow : v < USER_MMAP_ADDR := by
      unfold PAGE_SIZE at hend
      omega
    have hu := userAddr_of_heap hv hlow.le
    obtain ⟨S₁, h1, hf₁, hs₁, hm₁, hr₁⟩ := linkPage_links (n := k + 2 * n) hf hu ha hr
    obtain ⟨S₂, h2, hf₂, hs₂, hm₂, hr₂⟩ := ih (v := v + PAGE_SIZE) hf₁ (by omega) (by rwa [page_add])
      (by rw [Nat.add_mod_right]; exact ha) hr₁
    refine ⟨S₂, ?_, hf₂, ?_, fun i hi => ?_, hr₂⟩
    · unfold linkSegment
      rw [Kernel.assert, if_pos (by simp [hv, hlow])]
      show (linkPage S v >>= _) = _
      rw [h1]
      exact h2
    · refine (hs₁.mono fun j hj => ?_).trans (hs₂.mono fun j => within_next)
      rw [hj]
      exact within_self v n
    · cases i with
      | zero =>
        rw [Nat.zero_mul, Nat.add_zero, hs₂.mapped hu (not_within_next v n)]
        exact hm₁
      | succ i =>
        rw [← page_add]
        exact hm₂ i (by omega)

/-- The page may only be read. -/
def ReadOnly (S : Space) (v : Nat) : Prop := (S.entry v).write = false ∧ (S.entry v).readonly = true

/-- **The pages of a segment are made read-only.** -/
theorem protectSegment_protects (hf : Fits A S) (hu : ∀ i < n, UserAddr (v + i * PAGE_SIZE))
    (hm : ∀ i < n, S.mapped (v + i * PAGE_SIZE) = true) (hr : Room S.mem k) :
    ∃ S', protectSegment n v S = .ok S' ∧ Fits A S' ∧ Stays (Within v n) S S' ∧
      (∀ i < n, S'.mapped (v + i * PAGE_SIZE) = true ∧ ReadOnly S' (v + i * PAGE_SIZE)) ∧ Room S'.mem k := by
  induction n generalizing v S with
  | zero => exact ⟨S, rfl, hf, .refl S, nofun, hr⟩
  | succ n ih =>
    have hv : UserAddr v := by simpa using hu 0 (Nat.succ_pos n)
    have hmv : S.mapped v = true := by simpa using hm 0 (Nat.succ_pos n)
    obtain ⟨hd, he⟩ := Bool.and_eq_true_iff.mp hmv
    obtain ⟨e, hedit⟩ : ∃ e, e = { S.entry v with write := false, readonly := true } := ⟨_, rfl⟩
    have hep : e.present = true := by rw [hedit]; exact he
    have hf₁ : Fits A (S.setEntry v e) := (Move.edit (P := fun _ _ => True) v e hv hd
      (by rw [hedit]; rfl) fun _ => trivial).fits hf
    have hs₁ := stays_setEntry hf hv hd e
    have hm₁ : (S.setEntry v e).mapped v = true := by
      rw [Space.mapped, entry_setEntry, hep, Bool.and_true]
      exact hd
    have hne : ∀ i, ¬IDX (v + PAGE_SIZE + i * PAGE_SIZE) = IDX v := fun i => by
      rw [idx_pages, idx_next]
      omega
    have hu' : ∀ i < n, UserAddr (v + PAGE_SIZE + i * PAGE_SIZE) := fun i hi => by
      rw [page_add]
      exact hu (i + 1) (by omega)
    obtain ⟨S₂, h2, hf₂, hs₂, hm₂, hr₂⟩ := ih (v := v + PAGE_SIZE) hf₁ hu' (fun i hi => by
      rw [hs₁.mapped (hu' i hi) (hne i), page_add]
      exact hm (i + 1) (by omega)) (room_setEntry.mpr hr)
    refine ⟨S₂, ?_, hf₂, ?_, fun i hi => ?_, hr₂⟩
    · unfold protectSegment
      rw [getPte_same hd]
      show protectSegment n (v + PAGE_SIZE) (S.setEntry v { S.entry v with write := false, readonly := true }) = _
      rw [← hedit]
      exact h2
    · refine (hs₁.mono fun j hj => ?_).trans (hs₂.mono fun j => within_next)
      rw [hj]
      exact within_self v n
    · cases i with
      | zero =>
        obtain ⟨hmap, hent⟩ := hs₂.entry hv (not_within_next v n) hm₁
        rw [Nat.zero_mul, Nat.add_zero]
        unfold ReadOnly
        rw [hent, entry_setEntry, hedit]
        exact ⟨hmap, rfl, rfl⟩
      | succ i =>
        rw [← page_add]
        exact hm₂ i (by omega)

end Loops

end Yuios.Paging
