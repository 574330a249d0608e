/-
  File:      Yuios/Kernel/Frames.lean
  Subject:   THE COUNTS OF THE FRAMES: `memory_map` against the page tables of all processes.

  * `Fits` -- one address space beside the tables of the others: its slots name tables of their own,
    and the counts are exact. Every move keeps it (`Move.fits`), `copy_pde` makes a second one
    (`copyPde_fits`), `free_pde` leaves the others (`freePde_counted`).
  * `Held` -- the same of all processes.
  * `Did` -- what an action comes to, whichever call it is.
  * **`frames_counted`** -- in every run of proper actions.
  * `frames_lost` -- a program header that `load_segment` does not check.
-/
import Mathlib.Algebra.BigOperators.Intervals
import Mathlib.Algebra.BigOperators.Ring.Finset
import Mathlib.Order.Interval.Finset.Nat
import Yuios.Kernel.Moves
import Yuios.Lib.Refs

namespace Yuios.Paging

open Lib Relation
open Kernel (of_assert)

/-- The frames of the kernel, which it never gives up. -/
def kernelFrames (f : Nat) : Nat := if f < KERNEL_MEMORY_SIZE / PAGE_SIZE then 1 else 0

/-- The counts are exact for the tables `K`, but for the references `x`. -/
abbrev Counted (m : Mem) (K : Finset Nat) (x : Nat → Nat) : Prop :=
  Exact target 1024 kernelFrames m.memoryMap m.frame K x

/-- The tables that the slots from `a` to `b` name. -/
def tables (pde : Nat → Word) (a b : Nat) : Finset Nat :=
  ((Finset.Ico a b).filter fun d => (pde d).present = true).image fun d => (pde d).index

/-- The slots from `a` to `b` name different tables, none of them in `A`. -/
structure Rooted (A : Finset Nat) (pde : Nat → Word) (a b : Nat) : Prop where
  apart : ∀ d, a ≤ d → d < b → (pde d).present = true → (pde d).index ∉ A
  inj : ∀ d e, a ≤ d → d < b → a ≤ e → e < b → (pde d).present = true → (pde e).present = true →
    (pde d).index = (pde e).index → d = e

/-- An address space beside the tables `A` of the others. -/
structure Fits (A : Finset Nat) (S : Space) : Prop where
  counted : Counted S.mem (A ∪ tables S.pde FIRST_SLOT LAST_SLOT) 0
  rooted : Rooted A S.pde FIRST_SLOT LAST_SLOT

/-! ## 1. Directories -/

section Tables

variable {A : Finset Nat} {pde : Nat → Word} {a b d g T : Nat} {e : Word}

theorem mem_tables : T ∈ tables pde a b ↔ ∃ d, a ≤ d ∧ d < b ∧ (pde d).present = true ∧ (pde d).index = T := by
  simp only [tables, Finset.mem_image, Finset.mem_filter, Finset.mem_Ico, and_assoc]

theorem mem_tables_of (ha : a ≤ d) (hb : d < b) (h : (pde d).present = true) :
    (pde d).index ∈ tables pde a b := mem_tables.mpr ⟨d, ha, hb, h, rfl⟩

/-- A slot that was empty names a table. -/
theorem tables_new (ha : a ≤ d) (hb : d < b) (h : (pde d).present = false) (he : e.present = true) :
    tables (Function.update pde d e) a b = insert e.index (tables pde a b) := by
  ext T
  simp only [Finset.mem_insert, mem_tables]
  constructor
  · rintro ⟨d', h1, h2, h3, h4⟩
    by_cases hd : d' = d
    · subst hd
      rw [Function.update_self] at h4
      exact .inl h4.symm
    · rw [Function.update_of_ne hd] at h3 h4
      exact .inr ⟨d', h1, h2, h3, h4⟩
  · rintro (rfl | ⟨d', h1, h2, h3, h4⟩)
    · exact ⟨d, ha, hb, by rwa [Function.update_self], by rw [Function.update_self]⟩
    · have hd : d' ≠ d := by
        rintro rfl
        rw [h] at h3
        cases h3
      exact ⟨d', h1, h2, by rwa [Function.update_of_ne hd], by rwa [Function.update_of_ne hd]⟩

theorem Rooted.new (hr : Rooted A pde a b) (ha : a ≤ d) (hb : d < b) (hA : e.index ∉ A)
    (hT : e.index ∉ tables pde a b) : Rooted A (Function.update pde d e) a b := by
  have key : ∀ d', a ≤ d' → d' < b → d' ≠ d → (pde d').present = true → (pde d').index ≠ e.index :=
    fun d' h1 h2 _ h3 he => hT (he ▸ mem_tables_of h1 h2 h3)
  refine ⟨fun d' h1 h2 h3 => ?_, fun d' e' h1 h2 h3 h4 h5 h6 h7 => ?_⟩
  · by_cases hd : d' = d
    · subst hd
      rwa [Function.update_self]
    · rw [Function.update_of_ne hd] at h3 ⊢
      exact hr.apart d' h1 h2 h3
  · by_cases hd : d' = d
    · by_cases hd' : e' = d
      · rw [hd, hd']
      · subst hd
        rw [Function.update_self, Function.update_of_ne hd'] at h7
        rw [Function.update_of_ne hd'] at h6
        exact absurd h7.symm (key e' h3 h4 hd' h6)
    · by_cases hd' : e' = d
      · subst hd'
        rw [Function.update_self, Function.update_of_ne hd] at h7
        rw [Function.update_of_ne hd] at h5
        exact absurd h7 (key d' h1 h2 hd h5)
      · rw [Function.update_of_ne hd] at h5 h7
        rw [Function.update_of_ne hd'] at h6 h7
        exact hr.inj d' e' h1 h2 h3 h4 h5 h6 h7

end Tables

/-! ## 2. The moves -/

section Moves

variable {P : Mem → Word → Prop} {A : Finset Nat} {S S' : Space} {v : Nat}

theorem target_init (g : Nat) : target (entryInit g) = some g := rfl

theorem target_present {e : Word} (h : e.present = true) : target e = some e.index := if_pos h

theorem target_absent {e : Word} (h : e.present = false) : target e = none := by simp [target, h]

/-- The table for an address is one of the tables. -/
theorem table_mem (hv : UserAddr v) (hd : (S.pde (DIDX v)).present = true) :
    (S.pde (DIDX v)).index ∈ A ∪ tables S.pde FIRST_SLOT LAST_SLOT :=
  Finset.mem_union_right _ (mem_tables_of hv.slot.1 hv.slot.2 hd)

/-- A frame whose words name nothing. -/
theorem uses_zero (f : Nat) : uses target 1024 (fun _ => Word.zero) f = 0 := by
  simp [uses, hit, target, Word.zero]

/-- **Every move keeps the counts exact.** -/
theorem Move.fits (h : Move P S S') (hf : Fits A S) : Fits A S' := by
  have hc := hf.counted
  cases h with
  | table d g free hd ha hg =>
    obtain ⟨hgK, -⟩ := hc.free hg
    refine ⟨?_, hf.rooted.new hd.1 hd.2 (fun h => hgK (Finset.mem_union_left _ h))
      fun h => hgK (Finset.mem_union_right _ h)⟩
    show Counted _ (A ∪ tables (Function.update S.pde d (entryInit g)) FIRST_SLOT LAST_SLOT) 0
    rw [tables_new hd.1 hd.2 ha rfl, Finset.union_insert]
    refine Exact.adopt (Exact.of_eq (Exact.congr (hc.take hg) fun T hT => ?_) fun f => ?_)
      (Function.update_self _ _ _)
    · exact Function.update_of_ne (by rintro rfl; exact hgK hT) _ _
    · show 0 + one g f + uses target 1024 (Function.update S.mem.frame g (fun _ => Word.zero) g) f = _
      rw [Function.update_self, uses_zero]
      rfl
  | page v g free hv hd ha hg =>
    refine ⟨(hc.take hg).write (table_mem hv hd) (tidx_lt v) fun f => ?_, hf.rooted⟩
    show 0 + one g f + hit target (S.entry v) f = 0 + hit target (entryInit g) f
    rw [hit_none (target_absent ha), hit_some (target_init g), Nat.add_zero]
  | unmap v free hv hd he =>
    refine ⟨Exact.drop (Exact.write hc (table_mem hv hd) (tidx_lt v) fun f => ?_), hf.rooted⟩
    show 0 + hit target (S.entry v) f = 0 + one (S.entry v).index f + _
    rw [hit_some (target_present he), hit_none (target_absent rfl), Nat.add_zero]
  | edit v e hv hd he hP =>
    refine ⟨hc.write (table_mem hv hd) (tidx_lt v) fun f => ?_, hf.rooted⟩
    show 0 + hit target (S.entry v) f = 0 + hit target e f
    unfold hit
    rw [he]
  | copy v g free hv hd he hn hg =>
    obtain ⟨hgK, -⟩ := hc.free hg
    have hT := table_mem (A := A) hv hd
    have hne : (S.entry v).index ≠ g := by
      intro e
      rw [e] at hn
      omega
    have hframe : ∀ r, ∀ T ∈ A ∪ tables S.pde FIRST_SLOT LAST_SLOT,
        Function.update S.mem.frame g r T = S.mem.frame T :=
      fun r T hT => Function.update_of_ne (by rintro rfl; exact hgK hT) _ _
    have hcount : Function.update S.mem.memoryMap g 1 (S.entry v).index
        = S.mem.memoryMap (S.entry v).index := Function.update_of_ne hne _ _
    refine ⟨?_, hf.rooted⟩
    have hdrop := Exact.drop (x := 0) (f := (S.entry v).index) (Exact.write (e := entryInit g)
      (Exact.congr (hc.take hg) (hframe (S.mem.frame (S.entry v).index))) hT (tidx_lt v) fun f => ?_)
    · rw [hcount] at hdrop
      exact hdrop
    · show 0 + one g f + hit target (Function.update S.mem.frame g _ _ (TIDX v)) f
        = 0 + one (S.entry v).index f + hit target (entryInit g) f
      rw [hframe _ _ hT, hit_some (target_init g)]
      have : hit target (S.entry v) f = one (S.entry v).index f := hit_some (target_present he) f
      unfold Space.entry at this ⊢
      omega

/-- A store to a page does not meet a table. -/
theorem Fits.put (hf : Fits A S) (hv : UserAddr v) (hmap : S.mapped v = true) (w : Word) :
    Fits A ⟨S.put v w, S.pde⟩ := by
  simp only [Space.mapped, Bool.and_eq_true] at hmap
  have hf' := (hf.counted.entry (table_mem hv hmap.1) (tidx_lt v) (target_present hmap.2)).2
  exact ⟨hf.counted.congr fun T hT => Function.update_of_ne (by rintro rfl; exact hf' hT) _ _, hf.rooted⟩

theorem Moves.fits (h : Moves P S S') (hf : Fits A S) : Fits A S' := by
  induction h with
  | refl => exact hf
  | tail _ hm ih => exact hm.fits ih

end Moves

/-! ## 3. `copy_pde` -/

section Copy

variable {m m' : Mem} {K A B : Finset Nat} {x : Nat → Nat} {T n t d a b : Nat}
  {pde pde' : Nat → Word}

theorem target_share (e : Word) : target (shareEntry e) = target e := by
  unfold shareEntry
  split <;> rfl

/-- An entry after `copy_pde`. -/
def forkEntry (e : Word) : Word := if e.present then shareEntry e else e

theorem target_fork (e : Word) : target (forkEntry e) = target e := by
  unfold forkEntry
  split
  · exact target_share e
  · rfl

/-- What the entries from `t` on name. -/
def usesFrom (r : Nat → Word) (t n : Nat) (f : Nat) : Nat := ∑ i ∈ Finset.Ico t (t + n), hit target (r i) f

theorem usesFrom_succ (r : Nat → Word) (t n f : Nat) :
    usesFrom r t (n + 1) f = hit target (r t) f + usesFrom r (t + 1) n f := by
  unfold usesFrom
  rw [Finset.sum_eq_sum_Ico_succ_bot (by omega), show t + (n + 1) = t + 1 + n by omega]

theorem usesFrom_zero (r : Nat → Word) (t f : Nat) : usesFrom r t 0 f = 0 := by simp [usesFrom]

theorem usesFrom_all (r : Nat → Word) : usesFrom r 0 1024 = uses target 1024 r := by
  funext f
  unfold usesFrom uses
  rw [Nat.zero_add, Finset.range_eq_Ico]

theorem usesFrom_congr {r r' : Nat → Word} (h : ∀ i, target (r' i) = target (r i)) :
    usesFrom r' t n = usesFrom r t n := by
  funext f
  exact Finset.sum_congr rfl fun i _ => by unfold hit; rw [h i]

/-- A table after the inner loop has passed the entries from `t` on. -/
structure Shared (T t n : Nat) (m m' : Mem) : Prop where
  inside : ∀ i, t ≤ i → i < t + n → m'.frame T i = forkEntry (m.frame T i)
  outside : ∀ i, i < t ∨ t + n ≤ i → m'.frame T i = m.frame T i
  other : ∀ U, U ≠ T → m'.frame U = m.frame U
  count : ∀ f, m'.memoryMap f = m.memoryMap f + usesFrom (m.frame T) t n f

/-- **The inner loop of `copy_pde`**: every entry has one more reference, and is not to be written
    unless it is shared. -/
theorem copyEntries_counted (hT : T ∈ K) (hn : t + n ≤ 1024) (hc : Counted m K x)
    (h : copyEntries T n t m = .ok m') :
    Counted m' K (x + usesFrom (m.frame T) t n) ∧ Shared T t n m m' := by
  induction n generalizing t m x with
  | zero =>
    cases h
    refine ⟨hc.of_eq fun f => ?_, fun i h1 h2 => ?_, fun _ _ => rfl, fun _ _ => rfl, fun f => ?_⟩
    · rw [Pi.add_apply, usesFrom_zero, Nat.add_zero]
    · omega
    · rw [usesFrom_zero, Nat.add_zero]
  | succ n ih =>
    simp only [copyEntries] at h
    split at h
    · next ha =>
        rw [Bool.not_eq_true'] at ha
        obtain ⟨hc', hs⟩ := ih (by omega) hc h
        refine ⟨hc'.of_eq fun f => ?_, fun i h1 h2 => ?_, fun i hi => hs.outside i (by omega), hs.other,
          fun f => ?_⟩
        · rw [Pi.add_apply, Pi.add_apply, usesFrom_succ, hit_none (target_absent ha), Nat.zero_add]
        · by_cases e : i = t
          · subst e
            rw [hs.outside i (by omega)]
            simp [forkEntry, ha]
          · exact hs.inside i (by omega) (by omega)
        · rw [hs.count, usesFrom_succ, hit_none (target_absent ha), Nat.zero_add]
    · next hp =>
        have hp : (m.frame T t).present = true := by simpa using hp
        obtain ⟨-, h⟩ := of_assert h
        obtain ⟨-, h⟩ := of_assert h
        have hfK := (hc.entry hT (by omega) (target_present hp)).2
        have hw : Counted (m.setWord T t (shareEntry (m.frame T t))) K x :=
          hc.write hT (by omega) fun f => by unfold hit; rw [target_share]
        obtain ⟨hc', hs⟩ := ih (by omega) (hw.raise hfK) h
        have hother : ∀ i, i ≠ t →
            (m.setWord T t (shareEntry (m.frame T t))).frame T i = m.frame T i := fun i hi => by
          simp [Mem.setWord, hi]
        have hat : (m.setWord T t (shareEntry (m.frame T t))).frame T t = forkEntry (m.frame T t) := by
          simp [Mem.setWord, forkEntry, hp]
        have hu : usesFrom ((m.setWord T t (shareEntry (m.frame T t))).frame T) (t + 1) n
            = usesFrom (m.frame T) (t + 1) n := usesFrom_congr fun i => by
          by_cases e : i = t
          · rw [e, hat, target_fork]
          · rw [hother i e]
        refine ⟨hc'.of_eq fun f => ?_, fun i h1 h2 => ?_, fun i hi => ?_, fun U hU => ?_, fun f => ?_⟩
        · show x f + usesFrom (m.frame T) t (n + 1) f = x f + one (m.frame T t).index f +
            usesFrom ((m.setWord T t (shareEntry (m.frame T t))).frame T) (t + 1) n f
          rw [usesFrom_succ, hit_some (target_present hp), hu, Nat.add_assoc]
        · by_cases e : i = t
          · subst e
            exact (hs.outside i (by omega)).trans hat
          · rw [← hother i e]
            exact hs.inside i (by omega) (by omega)
        · exact (hs.outside i (by omega)).trans (hother i (by omega))
        · exact (hs.other U hU).trans (Function.update_of_ne hU _ _)
        · rw [hs.count, usesFrom_succ, hit_some (target_present hp)]
          show Function.update m.memoryMap _ (m.memoryMap _ + 1) f +
            usesFrom ((m.setWord T t (shareEntry (m.frame T t))).frame T) (t + 1) n f = _
          rw [hu]
          by_cases e : f = (m.frame T t).index
          · subst e
            rw [Function.update_self, one_self, Nat.add_assoc]
          · rw [Function.update_of_ne e, one_ne e, Nat.zero_add]

theorem tables_succ (had : a ≤ d) : tables pde a (d + 1)
    = if (pde d).present then insert (pde d).index (tables pde a d) else tables pde a d := by
  ext T
  split
  · next hp =>
      rw [Finset.mem_insert, mem_tables, mem_tables]
      constructor
      · rintro ⟨d', h1, h2, h3, h4⟩
        by_cases e : d' = d
        · exact .inl (e ▸ h4.symm)
        · exact .inr ⟨d', h1, by omega, h3, h4⟩
      · rintro (rfl | ⟨d', h1, h2, h3, h4⟩)
        · exact ⟨d, had, Nat.lt_succ_self d, hp, rfl⟩
        · exact ⟨d', h1, by omega, h3, h4⟩
  · next hp =>
      rw [mem_tables, mem_tables]
      constructor
      · rintro ⟨d', h1, h2, h3, h4⟩
        have : d' ≠ d := by
          rintro rfl
          exact hp h3
        exact ⟨d', h1, by omega, h3, h4⟩
      · rintro ⟨d', h1, h2, h3, h4⟩
        exact ⟨d', h1, by omega, h3, h4⟩

theorem tables_congr (h : ∀ d, a ≤ d → d < b → pde' d = pde d) : tables pde' a b = tables pde a b := by
  ext T
  rw [mem_tables, mem_tables]
  exact exists_congr fun d => and_congr_right fun h1 => and_congr_right fun h2 => by rw [h d h1 h2]

theorem Rooted.congr (h : ∀ d, a ≤ d → d < b → pde' d = pde d) (hr : Rooted A pde a b) :
    Rooted A pde' a b := by
  refine ⟨fun d h1 h2 h3 => ?_, fun d e h1 h2 h3 h4 h5 h6 h7 => ?_⟩
  · rw [h d h1 h2] at h3 ⊢
    exact hr.apart d h1 h2 h3
  · rw [h d h1 h2] at h5 h7
    rw [h e h3 h4] at h6 h7
    exact hr.inj d e h1 h2 h3 h4 h5 h6 h7

/-- One more slot, which is empty or names a new table. -/
theorem Rooted.succ (hr : Rooted A pde a d)
    (h : (pde d).present = true → (pde d).index ∉ A ∧ (pde d).index ∉ tables pde a d) :
    Rooted A pde a (d + 1) := by
  have key : ∀ e, a ≤ e → e < d → (pde e).present = true → (pde d).present = true →
      (pde e).index ≠ (pde d).index :=
    fun e h1 h2 h3 h4 he => (h h4).2 (he ▸ mem_tables_of h1 h2 h3)
  refine ⟨fun e h1 h2 h3 => ?_, fun e e' h1 h2 h3 h4 h5 h6 h7 => ?_⟩
  · by_cases he : e = d
    · subst he
      exact (h h3).1
    · exact hr.apart e h1 (by omega) h3
  · by_cases he : e = d
    · by_cases he' : e' = d
      · rw [he, he']
      · subst he
        exact absurd h7.symm (key e' h3 (by omega) h6 h5)
    · by_cases he' : e' = d
      · subst he'
        exact absurd h7 (key e h1 (by omega) h5 h6)
      · exact hr.inj e e' h1 (by omega) h3 (by omega) h5 h6 h7

/-- What holds of memory and its tables goes on to hold when `copy_pde` has copied one of them. -/
def Copies (R : Mem → Finset Nat → Prop) : Prop :=
  ∀ m m₁ K T g free, Counted m K 0 → R m K → T ∈ K → Shared T 0 1024 m m₁ → m₁.memoryMap g = 0 →
    R ((m₁.recount g 1 free).fill g (m₁.frame T)) (insert g K)

/-- **The outer loop of `copy_pde`**: a table for each of the task's, one slot after the other. -/
theorem copyTables_counted {R : Mem → Finset Nat → Prop} (hR : Copies R) {S : Space}
    (hB : tables S.pde FIRST_SLOT LAST_SLOT ⊆ B) (hd : FIRST_SLOT ≤ d) (hn : d + n ≤ LAST_SLOT)
    (hsame : ∀ e, d ≤ e → pde e = S.pde e) (hc : Counted m (B ∪ tables pde FIRST_SLOT d) 0)
    (hr : Rooted B pde FIRST_SLOT d) (hm : R m (B ∪ tables pde FIRST_SLOT d))
    (h : copyTables n d m pde = .ok (m', pde')) :
    Counted m' (B ∪ tables pde' FIRST_SLOT (d + n)) 0 ∧ Rooted B pde' FIRST_SLOT (d + n) ∧
      R m' (B ∪ tables pde' FIRST_SLOT (d + n)) := by
  induction n generalizing d m pde with
  | zero =>
    cases h
    exact ⟨hc, hr, hm⟩
  | succ n ih =>
    simp only [copyTables] at h
    rw [show d + (n + 1) = d + 1 + n by omega]
    split at h
    · next ha =>
        rw [Bool.not_eq_true'] at ha
        have ht : tables pde FIRST_SLOT (d + 1) = tables pde FIRST_SLOT d := by
          rw [tables_succ hd, if_neg (by simp [ha])]
        refine ih (by omega) (by omega) (fun e he => hsame e (by omega)) ?_ (hr.succ ?_) ?_ h
        · rwa [ht]
        · simp [ha]
        · rwa [ht]
    · next hp =>
        have hp : (pde d).present = true := by simpa using hp
        obtain ⟨m₁, h1, h⟩ := ok_of_bind h
        obtain ⟨⟨m₂, g⟩, h2, h⟩ := ok_of_bind h
        obtain ⟨hg, free, rfl⟩ := copyPage_ok h2
        have hTB : (pde d).index ∈ B := by
          rw [hsame d (Nat.le_refl d)] at hp ⊢
          exact hB (mem_tables_of hd (by omega) hp)
        have hTK := Finset.mem_union_left (tables pde FIRST_SLOT d) hTB
        obtain ⟨hc₁, hs⟩ := copyEntries_counted hTK (by omega) hc h1
        obtain ⟨hgK, -⟩ := hc₁.free hg
        have hsame' : ∀ e, e ≠ d →
            Function.update pde d { pde d with index := g } e = pde e :=
          fun e he => Function.update_of_ne he _ _
        have ht : B ∪ tables (Function.update pde d { pde d with index := g }) FIRST_SLOT (d + 1)
            = insert g (B ∪ tables pde FIRST_SLOT d) := by
          rw [tables_succ hd, Function.update_self, if_pos hp,
            tables_congr fun e _ he => hsame' e (by omega), Finset.union_insert]
        refine ih (by omega) (by omega) (fun e he => (hsame' e (by omega)).trans (hsame e (by omega)))
          ?_ (Rooted.succ (hr.congr fun e _ he => hsame' e (by omega)) fun _ => ?_) ?_ h
        · rw [ht]
          refine Exact.adopt (Exact.of_eq (Exact.congr (hc₁.take hg) fun U hU => ?_) fun f => ?_)
            (Function.update_self _ _ _)
          · exact Function.update_of_ne (by rintro rfl; exact hgK hU) _ _
          · have hu : uses target 1024 (m₁.frame (pde d).index)
                = usesFrom (m.frame (pde d).index) 0 1024 := by
              rw [usesFrom_all]
              exact uses_congr fun i hi => by rw [hs.inside i (Nat.zero_le i) (by omega), target_fork]
            show 0 + one g f + uses target 1024 (Function.update m₁.frame g _ g) f
              = 0 + usesFrom (m.frame (pde d).index) 0 1024 f + one g f
            rw [Function.update_self, hu]
            omega
        · rw [Function.update_self, tables_congr fun e _ he => hsame' e (by omega)]
          exact ⟨fun h => hgK (Finset.mem_union_left _ h), fun h => hgK (Finset.mem_union_right _ h)⟩
        · rw [ht]
          exact hR _ _ _ _ g free hc hm hTK hs hg

/-- **`copy_pde`**: the new directory fits beside all tables there were. -/
theorem copyPde_fits {R : Mem → Finset Nat → Prop} (hR : Copies R) {S : Space} {B : Finset Nat}
    (hB : tables S.pde FIRST_SLOT LAST_SLOT ⊆ B) (hc : Counted S.mem B 0) (hm : R S.mem B)
    (h : copyPde S = .ok (m', pde')) :
    Fits B ⟨m', pde'⟩ ∧ R m' (B ∪ tables pde' FIRST_SLOT LAST_SLOT) := by
  have ht : B ∪ tables S.pde FIRST_SLOT FIRST_SLOT = B := by simp [tables]
  obtain ⟨hc', hr', hm'⟩ := copyTables_counted hR hB (Nat.le_refl FIRST_SLOT) (by decide)
    (fun _ _ => rfl) (by rwa [ht])
    ⟨fun d h1 h2 => absurd h2 (not_lt.mpr h1), fun d e h1 h2 => absurd h2 (not_lt.mpr h1)⟩ (by rwa [ht]) h
  exact ⟨⟨hc', hr'⟩, hm'⟩

end Copy

/-! ## 4. `free_pde` -/

section Free

variable {m m' : Mem} {K A : Finset Nat} {x : Nat → Nat} {T n t d b i : Nat} {pde : Nat → Word}

theorem putPage_counted (hc : Counted m K (x + one i)) (h : putPage m i = .ok m') :
    Counted m' K x ∧ m'.frame = m.frame := by
  obtain ⟨-, -, free, rfl⟩ := putPage_ok h
  exact ⟨hc.drop, rfl⟩

/-- The inner loop of `free_pde`: the references of the entries are given up. -/
theorem freeEntries_counted (hc : Counted m K (x + usesFrom (m.frame T) t n))
    (h : freeEntries T n t m = .ok m') : Counted m' K x ∧ m'.frame = m.frame := by
  induction n generalizing t m with
  | zero =>
    cases h
    exact ⟨hc.of_eq fun f => by rw [Pi.add_apply, usesFrom_zero, Nat.add_zero], rfl⟩
  | succ n ih =>
    simp only [freeEntries] at h
    split at h
    · next ha =>
        rw [Bool.not_eq_true'] at ha
        refine ih (hc.of_eq fun f => ?_) h
        rw [Pi.add_apply, Pi.add_apply, usesFrom_succ, hit_none (target_absent ha), Nat.zero_add]
    · next hp =>
        have hp : (m.frame T t).present = true := by simpa using hp
        obtain ⟨-, h⟩ := of_assert h
        obtain ⟨m₁, hput, h⟩ := ok_of_bind h
        have hc₁ : Counted m K (x + usesFrom (m.frame T) (t + 1) n + one (m.frame T t).index) := by
          refine hc.of_eq fun f => ?_
          simp only [Pi.add_apply]
          rw [usesFrom_succ, hit_some (target_present hp)]
          omega
        obtain ⟨hc₂, hf⟩ := putPage_counted hc₁ hput
        obtain ⟨hc', hf'⟩ := ih (by rwa [hf]) h
        exact ⟨hc', hf'.trans hf⟩

theorem tables_pred (hd : d < b) : tables pde d b
    = if (pde d).present then insert (pde d).index (tables pde (d + 1) b) else tables pde (d + 1) b := by
  ext T
  split
  · next hp =>
      rw [Finset.mem_insert, mem_tables, mem_tables]
      constructor
      · rintro ⟨d', h1, h2, h3, h4⟩
        by_cases e : d' = d
        · exact .inl (e ▸ h4.symm)
        · exact .inr ⟨d', by omega, h2, h3, h4⟩
      · rintro (rfl | ⟨d', h1, h2, h3, h4⟩)
        · exact ⟨d, Nat.le_refl d, hd, hp, rfl⟩
        · exact ⟨d', by omega, h2, h3, h4⟩
  · next hp =>
      rw [mem_tables, mem_tables]
      constructor
      · rintro ⟨d', h1, h2, h3, h4⟩
        have : d' ≠ d := by
          rintro rfl
          exact hp h3
        exact ⟨d', by omega, h2, h3, h4⟩
      · rintro ⟨d', h1, h2, h3, h4⟩
        exact ⟨d', by omega, h2, h3, h4⟩

/-- The outer loop of `free_pde`: the tables are given up. -/
theorem freeTables_counted (hn : d + n = LAST_SLOT) (hc : Counted m (A ∪ tables pde d LAST_SLOT) 0)
    (hr : Rooted A pde d LAST_SLOT) (h : freeTables pde n d m = .ok m') :
    Counted m' A 0 ∧ m'.frame = m.frame := by
  induction n generalizing d m with
  | zero =>
    cases h
    have ht : A ∪ tables pde d LAST_SLOT = A := by
      rw [← hn]
      simp [tables]
    rw [ht] at hc
    exact ⟨hc, rfl⟩
  | succ n ih =>
    have hr' : Rooted A pde (d + 1) LAST_SLOT :=
      ⟨fun e h1 h2 h3 => hr.apart e (by omega) h2 h3,
        fun e e' h1 h2 h3 h4 => hr.inj e e' (by omega) h2 (by omega) h4⟩
    simp only [freeTables] at h
    split at h
    · next ha =>
        rw [Bool.not_eq_true'] at ha
        rw [tables_pred (by omega), if_neg (by simp [ha])] at hc
        exact ih (by omega) hc hr' h
    · next hp =>
        have hp : (pde d).present = true := by simpa using hp
        obtain ⟨m₁, h1, h⟩ := ok_of_bind h
        obtain ⟨m₂, h2, h⟩ := ok_of_bind h
        have hK : (pde d).index ∉ A ∪ tables pde (d + 1) LAST_SLOT := by
          rw [Finset.mem_union, mem_tables]
          rintro (hA | ⟨e, h1, h2, h3, h4⟩)
          · exact hr.apart d (Nat.le_refl d) (by omega) hp hA
          · have := hr.inj e d (by omega) h2 (Nat.le_refl d) (by omega) h3 hp h4
            omega
        rw [tables_pred (by omega), if_pos hp, Finset.union_insert] at hc
        have hrel := hc.release hK
        rw [← usesFrom_all] at hrel
        obtain ⟨hc₁, hf₁⟩ := freeEntries_counted hrel h1
        obtain ⟨hc₂, hf₂⟩ := putPage_counted hc₁ h2
        obtain ⟨hc', hf'⟩ := ih (by omega) hc₂ hr' h
        exact ⟨hc', hf'.trans (hf₂.trans hf₁)⟩

/-- **`free_pde`**: what remains are the tables of the others. -/
theorem freePde_counted {S : Space} (hf : Fits A S) (h : freePde S = .ok m') :
    Counted m' A 0 ∧ m'.frame = S.mem.frame :=
  freeTables_counted (by decide) hf.counted hf.rooted h

end Free

/-! ## 5. All processes -/

/-- The directory of a process. -/
def State.pde (s : State) (p : Nat) : Nat → Word := (s.procs p).elim (fun _ => .zero) Proc.pde

/-- The tables of some processes. -/
def State.tablesOf (s : State) (ps : Finset Nat) : Finset Nat :=
  ps.biUnion fun p => tables (s.pde p) FIRST_SLOT LAST_SLOT

/-- **The invariant**: no two slots name one table, and the counts are exact. -/
structure Held (s : State) : Prop where
  alive : ∀ p, p ∈ s.live ↔ (s.procs p).isSome = true
  sane : ∀ p q, s.procs p = some q → Sane q
  inj : ∀ p q p' q' d d', s.procs p = some q → s.procs p' = some q' → UserSlot d → UserSlot d' →
    (q.pde d).present = true → (q'.pde d').present = true → (q.pde d).index = (q'.pde d').index →
    p = p' ∧ d = d'
  counted : Counted s.mem (s.tablesOf s.live) 0

section Held

variable {s s' : State} {m' : Mem} {p : Nat} {q q' : Proc} {T : Nat}

theorem pde_some (hp : s.procs p = some q) : s.pde p = q.pde := by simp [State.pde, hp]

theorem mem_tablesOf {ps : Finset Nat} : T ∈ s.tablesOf ps ↔
    ∃ p ∈ ps, ∃ d, UserSlot d ∧ (s.pde p d).present = true ∧ (s.pde p d).index = T := by
  simp only [State.tablesOf, Finset.mem_biUnion, mem_tables, UserSlot, and_assoc]

theorem Held.mem_live (h : Held s) (hp : s.procs p = some q) : p ∈ s.live :=
  (h.alive p).mpr (by rw [hp]; rfl)

theorem Held.proc (h : Held s) (hp : p ∈ s.live) : ∃ q, s.procs p = some q :=
  Option.isSome_iff_exists.mp ((h.alive p).mp hp)

theorem tablesOf_insert (s : State) (p : Nat) (ps : Finset Nat) :
    s.tablesOf (insert p ps) = s.tablesOf (ps.erase p) ∪ tables (s.pde p) FIRST_SLOT LAST_SLOT := by
  have : insert p ps = insert p (ps.erase p) := by
    ext u
    by_cases e : u = p <;> simp [e]
  rw [this, State.tablesOf, Finset.biUnion_insert, Finset.union_comm]
  rfl

theorem tablesOf_congr {ps : Finset Nat} (h : ∀ u ∈ ps, s'.procs u = s.procs u) :
    s'.tablesOf ps = s.tablesOf ps :=
  Finset.biUnion_congr rfl fun u hu => by rw [State.pde, State.pde, h u hu]

/-- What a process has fits beside the tables of the others. -/
theorem Held.fits (h : Held s) (hp : s.procs p = some q) :
    Fits (s.tablesOf (s.live.erase p)) ⟨s.mem, q.pde⟩ := by
  have hc := h.counted
  rw [← Finset.insert_eq_of_mem (h.mem_live hp), tablesOf_insert, pde_some hp] at hc
  refine ⟨hc, fun d h1 h2 h3 hT => ?_, fun d e h1 h2 h3 h4 h5 h6 h7 => ?_⟩
  · obtain ⟨p', hp', d', hd', h4, h5⟩ := mem_tablesOf.mp hT
    obtain ⟨q', hq'⟩ := h.proc (Finset.mem_of_mem_erase hp')
    rw [pde_some hq'] at h4 h5
    exact Finset.ne_of_mem_erase hp' (h.inj p' q' p q d' d hq' hp hd' ⟨h1, h2⟩ h4 h3 h5).1
  · exact (h.inj p q p q d e hp hp ⟨h1, h2⟩ ⟨h3, h4⟩ h5 h6 h7).2

/-- The tables of all, after `p` has got a new record. -/
theorem tablesOf_born (s : State) (m' : Mem) (p : Nat) (q' : Proc) :
    (born s m' p q').tablesOf (insert p s.live)
      = s.tablesOf (s.live.erase p) ∪ tables q'.pde FIRST_SLOT LAST_SLOT := by
  have hself : (born s m' p q').pde p = q'.pde := by simp [State.pde, born]
  rw [tablesOf_insert, hself,
    tablesOf_congr fun u hu => Function.update_of_ne (Finset.ne_of_mem_erase hu) _ _]

/-- The tables of all, after `p` has ended. -/
theorem tablesOf_exit (s : State) (m' : Mem) (p : Nat) :
    (⟨m', Function.update s.procs p none, s.live.erase p⟩ : State).tablesOf (s.live.erase p)
      = s.tablesOf (s.live.erase p) :=
  tablesOf_congr fun _ hu => Function.update_of_ne (Finset.ne_of_mem_erase hu) _ _

/-- **What fits beside the others is a process.** -/
theorem Held.born (h : Held s) (hf : Fits (s.tablesOf (s.live.erase p)) ⟨m', q'.pde⟩) (hs : Sane q') :
    Held (born s m' p q') := by
  have hother : ∀ u, u ≠ p → (Paging.born s m' p q').procs u = s.procs u :=
    fun u hu => Function.update_of_ne hu _ _
  have hapart : ∀ u v d e, s.procs u = some v → u ≠ p → UserSlot d → UserSlot e →
      (v.pde d).present = true → (q'.pde e).present = true → (v.pde d).index ≠ (q'.pde e).index := by
    intro u v d e hu hne hd he h1 h2 h3
    refine hf.rooted.apart e he.1 he.2 h2 ?_
    rw [← h3]
    exact mem_tablesOf.mpr ⟨u, Finset.mem_erase.mpr ⟨hne, h.mem_live hu⟩, d, hd,
      by rwa [pde_some hu], by rw [pde_some hu]⟩
  refine ⟨fun u => ?_, fun u v hu => ?_, fun u v u' v' d d' hu hu' hd hd' h1 h2 h3 => ?_, ?_⟩
  · show u ∈ insert p s.live ↔ _
    by_cases e : u = p
    · subst e
      simp [Paging.born]
    · rw [hother u e, Finset.mem_insert, h.alive u]
      simp [e]
  · by_cases e : u = p
    · subst e
      cases (Function.update_self u _ s.procs).symm.trans hu
      exact hs
    · rw [hother u e] at hu
      exact h.sane u v hu
  · by_cases e : u = p
    · subst e
      cases (Function.update_self u _ s.procs).symm.trans hu
      by_cases e' : u' = u
      · subst e'
        cases (Function.update_self u' _ s.procs).symm.trans hu'
        exact ⟨rfl, hf.rooted.inj d d' hd.1 hd.2 hd'.1 hd'.2 h1 h2 h3⟩
      · rw [hother u' e'] at hu'
        exact absurd h3.symm (hapart u' v' d' d hu' e' hd' hd h2 h1)
    · rw [hother u e] at hu
      by_cases e' : u' = p
      · subst e'
        cases (Function.update_self u' _ s.procs).symm.trans hu'
        exact absurd h3 (hapart u v d d' hu e hd hd' h1 h2)
      · rw [hother u' e'] at hu'
        exact h.inj u v u' v' d d' hu hu' hd hd' h1 h2 h3
  · show Counted m' ((Paging.born s m' p q').tablesOf (insert p s.live)) 0
    rw [tablesOf_born]
    exact hf.counted

theorem setProc_born (h : Held s) (hp : s.procs p = some q) (m' : Mem) (q' : Proc) :
    s.setProc p m' q' = Paging.born s m' p q' := by
  unfold State.setProc Paging.born
  rw [Finset.insert_eq_of_mem (h.mem_live hp)]

/-- A process that ends leaves the tables of the others. -/
theorem Held.taskExit (h : Held s) (hp : s.procs p = some q) (he : taskExit s p q = .ok s') :
    Held s' := by
  obtain ⟨m₁, hm, he⟩ := ok_of_bind he
  cases he
  obtain ⟨hc, -⟩ := freePde_counted (h.fits hp) hm
  have hsome : ∀ u v, Function.update s.procs p none u = some v → u ≠ p ∧ s.procs u = some v := by
    intro u v hu
    by_cases e : u = p
    · subst e
      cases (Function.update_self u _ s.procs).symm.trans hu
    · exact ⟨e, by rwa [Function.update_of_ne e] at hu⟩
  refine ⟨fun u => ?_, fun u v hu => h.sane u v (hsome u v hu).2,
    fun u v u' v' d d' hu hu' => h.inj u v u' v' d d' (hsome u v hu).2 (hsome u' v' hu').2, ?_⟩
  · show u ∈ s.live.erase p ↔ (Function.update s.procs p none u).isSome = true
    by_cases e : u = p
    · subst e
      simp
    · rw [Function.update_of_ne e, Finset.mem_erase, h.alive u]
      simp [e]
  · show Counted m₁ (State.tablesOf _ (s.live.erase p)) 0
    rw [tablesOf_exit]
    exact hc

end Held

/-! ## 6. Actions -/

/-- **What the kernel does not check and should**: that the size of a segment does not wrap around
    when it is rounded up to pages, that a buffer is not in the kernel's memory nor where the page tables are,
    that `load_segment` clears nothing there, and that the page tables behind `SELF_MAP` are not the user's. -/
def Proper : Action → Bool
  | .loadSegment _ _ ph => max ph.memsz ph.filesz + PAGE_SIZE - 1 < 2 ^ 32
  | .kernelStore _ vaddr _ | .segmentZero _ vaddr _ => USER_EXEC_ADDR ≤ vaddr && vaddr < SELF_MAP
  | .userStore _ vaddr _ => vaddr < SELF_MAP
  | _ => true

/-- **What an action comes to**: a new process, one that is forked, one that ends, moves in one
    address space, a store to one page. -/
inductive Did (P : Mem → Word → Prop) (s : State) : State → Prop where
  | start (c : Nat) (hc : s.procs c = none) : Did P s (born s s.mem c taskToUserMode)
  | fork (p c : Nat) (q : Proc) (m : Mem) (pde : Nat → Word) (hp : s.procs p = some q)
      (hc : s.procs c = none) (h : copyPde ⟨s.mem, q.pde⟩ = .ok (m, pde)) :
      Did P s (born s m c { q with pde, segment := none })
  | exit (p : Nat) (q : Proc) (s' : State) (hp : s.procs p = some q) (h : taskExit s p q = .ok s') :
      Did P s s'
  | moves (p : Nat) (q q' : Proc) (m : Mem) (hp : s.procs p = some q)
      (h : Moves P ⟨s.mem, q.pde⟩ ⟨m, q'.pde⟩) (hs : Sane q') : Did P s (s.setProc p m q')
  | stores (p v : Nat) (w : Word) (q : Proc) (hp : s.procs p = some q) (hv : UserAddr v)
      (hmap : Space.mapped ⟨s.mem, q.pde⟩ v = true) :
      Did P s (s.setProc p (Space.put ⟨s.mem, q.pde⟩ v w) q)

section Actions

variable {P : Mem → Word → Prop} {s s' : State} {m' : Mem} {p v : Nat} {q q' : Proc} {a : Action}
  {o : Option (Mem × Proc)}

/-- An access ends the process, or does what the calls do, or stores. -/
theorem accessed_did (hp : s.procs p = some q)
    (ho : ∀ m' q', o = some (m', q') → (Moves P ⟨s.mem, q.pde⟩ ⟨m', q'.pde⟩ ∧ Sane q') ∨
      ∃ v w, Stores s.mem q v w m' q')
    (h : accessed s p q o = .ok s') : Did P s s' := by
  cases o with
  | none => exact .exit p q s' hp h
  | some r =>
    cases h
    obtain ⟨hm, hs⟩ | ⟨v, w, hv, hmap, hm, hq⟩ := ho r.1 r.2 rfl
    · exact .moves p q r.2 r.1 hp hm hs
    · rw [hm, hq]
      exact .stores p v w q hp hv hmap

/-- A word of the file goes to the user's memory. -/
theorem segment_addr {sg : Segment} {i : Nat} {w : Word} {S : Space} (hs : Sane q) (hsg : q.segment = some sg)
    (hw : sg.fills S i w = true) : UserAddr (sg.word i) := by
  unfold Segment.fills at hw
  rw [Bool.and_eq_true, decide_eq_true_eq] at hw
  obtain ⟨h1, h2⟩ := hs.segment sg hsg (4 * i) (lt_max_of_lt_right hw.1)
  have hmod : sg.word i = sg.ph.vaddr + 4 * i := Nat.mod_eq_of_lt (Nat.lt_trans h2 (by decide))
  rw [hmod]
  exact userAddr_of_heap h1 h2.le

theorem segment_of {c : Space → Segment → Bool} (hp : s.procs p = some q) (h : s.loads p c = true) :
    ∃ sg, q.segment = some sg ∧ c ⟨s.mem, q.pde⟩ sg = true := by
  unfold State.loads at h
  rw [hp, Option.any_some] at h
  exact Option.any_eq_true _ _ |>.mp h

/-- The word of the file that is stored. -/
theorem segmentWord_of {i : Nat} {w : Word} (hp : s.procs p = some q) (ha : Enabled s (.segmentWord p i w) = true)
    (h : run s p q (.segmentWord p i w) = .ok s') : ∃ sg o, q.segment = some sg ∧
      sg.fills ⟨s.mem, q.pde⟩ i w = true ∧ kernelStore s.mem q (sg.word i) w = .ok o ∧ accessed s p q o = .ok s' := by
  have hloads : s.loads p (fun S sg => sg.clear.isNone && sg.fills S i w) = true := ha
  obtain ⟨sg, hsg, hc⟩ := segment_of hp hloads
  rw [Bool.and_eq_true] at hc
  rw [run, hsg] at h
  obtain ⟨o, ho, h⟩ := ok_of_bind h
  exact ⟨sg, o, hsg, hc.2, ho, h⟩

/-- The header is read again. -/
theorem readAgain_of {ph : Phdr} (h : run s p q (.readAgain p ph) = .ok s') :
    ∃ sg, q.segment = some sg ∧ s' = s.setProc p s.mem { q with segment := some (sg.again ph) } := by
  rw [run] at h
  split at h
  · cases h
  · next sg hsg =>
      cases h
      exact ⟨sg, hsg, rfl⟩

theorem Sane.again {sg : Segment} {ph : Phdr} (hs : Sane q) (hsg : q.segment = some sg) :
    Sane { q with segment := some (sg.again ph) } := by
  refine ⟨hs.vmap, hs.low, hs.high, ?_⟩
  rintro _ ⟨⟩
  exact hs.segment sg hsg

theorem endSegment_of {ph : Phdr} (h : run s p q (.endSegment p ph) = .ok s') :
    ∃ sg m q', q.segment = some sg ∧
      endSegment s.mem q { sg.ph with writable := ph.writable } = .ok (m, q') ∧ s' = s.setProc p m q' := by
  rw [run] at h
  split at h
  · cases h
  · next sg hsg =>
      obtain ⟨⟨m, q'⟩, hm, h⟩ := ok_of_bind h
      cases h
      exact ⟨sg, m, q', hsg, hm, rfl⟩

/-- A store that is `Proper` is one to the user's memory. -/
theorem userAddr_of_proper (h : (USER_EXEC_ADDR ≤ v && v < SELF_MAP : Bool) = true) : UserAddr v := by
  rw [Bool.and_eq_true, decide_eq_true_eq, decide_eq_true_eq] at h
  exact h

theorem act_run (h : act s a = .ok s') :
    (∃ c, a = .start c ∧ s' = born s s.mem c taskToUserMode) ∨
      ∃ q, s.procs a.actor = some q ∧ run s a.actor q a = .ok s' := by
  unfold act at h
  split at h
  · next c =>
      cases h
      exact .inl ⟨c, rfl, rfl⟩
  · split at h
    · cases h
    · next q hq => exact .inr ⟨q, hq, h⟩

/-- **Every action is one of these**, if `sys_mmap` only does what `P` allows. -/
theorem act_did (hP : Admits P) (hs : Held s) (ha : Enabled s a = true) (hok : Proper a = true)
    (hmmap : ∀ p addr length fl q m' q' r, a = .mmap p addr length fl → s.procs p = some q →
      sysMmap s.mem q addr length fl = .ok (m', q', r) →
      Moves P ⟨s.mem, q.pde⟩ ⟨m', q'.pde⟩ ∧ Sane q')
    (h : act s a = .ok s') : Did P s s' := by
  obtain ⟨c, rfl, rfl⟩ | ⟨q, hp, h⟩ := act_run h
  · exact .start c (Option.isNone_iff_eq_none.mp ha)
  have hq := hs.sane a.actor q hp
  cases a with
  | start c => cases h
  | fork p c =>
    obtain ⟨⟨m, pde⟩, hc, h⟩ := ok_of_bind h
    cases h
    exact .fork p c q m pde hp (Option.isNone_iff_eq_none.mp ha) hc
  | load p v =>
    obtain ⟨o, ho, h⟩ := ok_of_bind h
    exact accessed_did hp (fun m' q' e => .inl (load_moves hP hq (e ▸ ho))) h
  | userStore p v w =>
    obtain ⟨o, ho, h⟩ := ok_of_bind h
    refine accessed_did hp (fun m' q' e => ?_) h
    obtain hm | ⟨hst, -⟩ := userStore_cases hP hq (of_decide_eq_true hok) (e ▸ ho)
    · exact .inl hm
    · exact .inr ⟨v, w, hst⟩
  | kernelStore p v w =>
    obtain ⟨o, ho, h⟩ := ok_of_bind h
    exact accessed_did hp (fun m' q' e => (kernelStore_cases hP hq (userAddr_of_proper hok) (e ▸ ho)).imp_right
      fun hst => ⟨v, w, hst⟩) h
  | mmap p addr length fl =>
    obtain ⟨⟨m, q', r⟩, hm, h⟩ := ok_of_bind h
    cases h
    obtain ⟨hmv, hq'⟩ := hmmap p addr length fl q m q' r rfl hp hm
    exact .moves p q q' m hp hmv hq'
  | munmap p addr length =>
    obtain ⟨⟨m, q', r⟩, hm, h⟩ := ok_of_bind h
    cases h
    obtain ⟨hmv, hq'⟩ := sysMunmap_moves hq hm
    exact .moves p q q' m hp hmv hq'
  | brk p addr =>
    obtain ⟨⟨m, q', r⟩, hm, h⟩ := ok_of_bind h
    cases h
    obtain ⟨hmv, hq'⟩ := sysBrk_moves hq hm
    exact .moves p q q' m hp hmv hq'
  | execve p =>
    obtain ⟨⟨m, q'⟩, hm, h⟩ := ok_of_bind h
    cases h
    obtain ⟨hmv, hq'⟩ := execve_moves hq hm
    exact .moves p q q' m hp hmv hq'
  | loadSegment p ptr ph =>
    obtain ⟨⟨m, q'⟩, hm, h⟩ := ok_of_bind h
    cases h
    rw [Proper, decide_eq_true_eq] at hok
    obtain ⟨hmv, hq'⟩ := loadSegment_moves hq hok hm
    exact .moves p q q' m hp hmv hq'
  | segmentWord p i w =>
    obtain ⟨sg, o, hsg, hfills, ho, h⟩ := segmentWord_of hp ha h
    exact accessed_did hp (fun m' q' e => (kernelStore_cases hP hq (segment_addr hq hsg hfills) (e ▸ ho)).imp_right
      fun hst => ⟨_, w, hst⟩) h
  | readAgain p ph =>
    obtain ⟨sg, hsg, rfl⟩ := readAgain_of h
    exact .moves p q _ s.mem hp .refl (hq.again hsg)
  | segmentZero p v w =>
    obtain ⟨o, ho, h⟩ := ok_of_bind h
    exact accessed_did hp (fun m' q' e => (kernelStore_cases hP hq (userAddr_of_proper hok) (e ▸ ho)).imp_right
      fun hst => ⟨v, w, hst⟩) h
  | endSegment p ph =>
    obtain ⟨sg, m, q', hsg, hm, rfl⟩ := endSegment_of h
    obtain ⟨hmv, hq'⟩ := endSegment_moves hP hq hsg hm
    exact .moves p q q' m hp hmv hq'
  | exit p => exact .exit p q s' hp h

theorem copies_true : Copies fun _ _ => True := fun _ _ _ _ _ _ _ _ _ _ _ => trivial

theorem sane_taskToUserMode : Sane taskToUserMode :=
  ⟨⟨rfl, rfl⟩, Nat.le_refl _, by decide, nofun⟩

theorem fits_taskToUserMode {A : Finset Nat} {m : Mem} (h : Counted m A 0) :
    Fits A ⟨m, taskToUserMode.pde⟩ := by
  have ht : A ∪ tables taskToUserMode.pde FIRST_SLOT LAST_SLOT = A := by
    simp [tables, taskToUserMode, Word.zero]
  refine ⟨?_, fun _ _ _ h => ?_, fun _ _ _ _ _ _ h => ?_⟩
  · show Counted m (A ∪ tables taskToUserMode.pde FIRST_SLOT LAST_SLOT) 0
    rwa [ht]
  · cases h
  · cases h

theorem erase_new (hs : Held s) (hp : s.procs p = none) : s.live.erase p = s.live :=
  Finset.erase_eq_of_notMem fun hm => by simpa [hp] using (hs.alive p).mp hm

theorem tables_subset (hs : Held s) (hp : s.procs p = some q) :
    tables q.pde FIRST_SLOT LAST_SLOT ⊆ s.tablesOf s.live := by
  rw [← pde_some hp]
  exact Finset.subset_biUnion_of_mem (fun p => tables (s.pde p) FIRST_SLOT LAST_SLOT) (hs.mem_live hp)

/-- **Every action keeps the invariant.** -/
theorem Did.held (hd : Did P s s') (hs : Held s) : Held s' := by
  cases hd with
  | start c hc =>
    refine hs.born ?_ sane_taskToUserMode
    rw [erase_new hs hc]
    exact fits_taskToUserMode hs.counted
  | fork p c q m pde hp hc h =>
    have hq := hs.sane p q hp
    refine hs.born ?_ ⟨hq.vmap, hq.low, hq.high, nofun⟩
    rw [erase_new hs hc]
    exact (copyPde_fits (S := ⟨s.mem, q.pde⟩) copies_true (tables_subset hs hp) hs.counted trivial h).1
  | exit p q _ hp h => exact hs.taskExit hp h
  | moves p q q' m hp h hq =>
    rw [setProc_born hs hp]
    exact hs.born (h.fits (hs.fits hp)) hq
  | stores p v w q hp hv hmap =>
    rw [setProc_born hs hp]
    exact hs.born ((hs.fits hp).put hv hmap w) (hs.sane p q hp)

theorem act_held (hs : Held s) (ha : Enabled s a = true) (hok : Proper a = true) (h : act s a = .ok s') : Held s' :=
  (act_did admits_true hs ha hok (fun p _ _ _ q _ _ _ _ hp hm =>
    sysMmap_moves (Q := fun _ _ _ => True) (fun _ _ _ _ _ _ _ _ => ⟨trivial, trivial⟩) (hs.sane p q hp)
      hm fun _ _ _ => trivial) h).held hs

end Actions

/-! ## 7. Runs -/

/-- The states reached by proper actions. -/
abbrev Kept : Nat → State → Prop := Run fun _ a => Proper a

theorem boot_held {pages : Nat} {s : State} (h : Boot pages s) : Held s := by
  have hnone : ∀ p q, s.procs p ≠ some q := fun p q hp => by simp [h.procs p] at hp
  refine ⟨fun p => ?_, fun p q hp => absurd hp (hnone p q),
    fun p q _ _ _ _ hp => absurd hp (hnone p q), fun f => ?_, ?_⟩
  · simp [h.live, h.procs p]
  · simp [h.live, h.memoryMap f, kernelFrames, names, State.tablesOf]
  · simp [h.live, State.tablesOf]

theorem kept_held {pages : Nat} {s : State} (h : Kept pages s) : Held s := by
  induction h with
  | boot h => exact boot_held h
  | step _ a ha hok hs ih => exact act_held ih ha hok hs

/-- How often a slot of a directory refers to a frame: the slot itself, and the entries of the table
    it names. -/
def slotRefs (m : Mem) (dentry : Word) (f : Nat) : Nat :=
  if dentry.present = true then
    (if dentry.index = f then 1 else 0) +
      ((Finset.range 1024).filter fun t => target (m.frame dentry.index t) = some f).card
  else 0

/-- **How often the address spaces refer to a frame.** -/
def references (s : State) (f : Nat) : Nat :=
  ∑ p ∈ s.live, ∑ d ∈ Finset.Ico FIRST_SLOT LAST_SLOT, slotRefs s.mem (s.pde p d) f

/-- The slots that name a table, of all processes. -/
def State.roots (s : State) : Finset (Nat × Nat) :=
  (s.live ×ˢ Finset.Ico FIRST_SLOT LAST_SLOT).filter fun x => (s.pde x.1 x.2).present = true

theorem tablesOf_roots (s : State) :
    s.tablesOf s.live = s.roots.image fun x => (s.pde x.1 x.2).index := by
  ext T
  simp only [mem_tablesOf, State.roots, Finset.mem_image, Finset.mem_filter, Finset.mem_product,
    Finset.mem_Ico, Prod.exists, UserSlot]
  constructor
  · rintro ⟨p, hp, d, hd, h1, h2⟩
    exact ⟨p, d, ⟨⟨hp, hd⟩, h1⟩, h2⟩
  · rintro ⟨p, d, ⟨⟨hp, hd⟩, h1⟩, h2⟩
    exact ⟨p, hp, d, hd, h1, h2⟩

theorem roots_inj {s : State} (hs : Held s) :
    Set.InjOn (fun x => (s.pde x.1 x.2).index) (s.roots : Set (Nat × Nat)) := by
  intro x hx y hy he
  simp only [State.roots, Finset.mem_coe, Finset.mem_filter, Finset.mem_product, Finset.mem_Ico] at hx hy
  obtain ⟨q, hq⟩ := hs.proc hx.1.1
  obtain ⟨q', hq'⟩ := hs.proc hy.1.1
  obtain ⟨⟨-, hdx⟩, hpx⟩ := hx
  obtain ⟨⟨-, hdy⟩, hpy⟩ := hy
  simp only [pde_some hq, pde_some hq'] at hpx hpy he
  obtain ⟨h1, h2⟩ := hs.inj _ q _ q' _ _ hq hq' hdx hdy hpx hpy he
  exact Prod.ext h1 h2

theorem references_eq {s : State} (hs : Held s) (f : Nat) :
    references s f = names target 1024 s.mem.frame (s.tablesOf s.live) f := by
  have huses : ∀ T, ((Finset.range 1024).filter fun t => target (s.mem.frame T t) = some f).card
      = uses target 1024 (s.mem.frame T) f := fun T => Finset.card_filter _ _
  calc references s f
      = ∑ x ∈ s.live ×ˢ Finset.Ico FIRST_SLOT LAST_SLOT, slotRefs s.mem (s.pde x.1 x.2) f :=
        (Finset.sum_product' s.live (Finset.Ico FIRST_SLOT LAST_SLOT)
          fun p d => slotRefs s.mem (s.pde p d) f).symm
    _ = ∑ x ∈ s.roots, ((if (s.pde x.1 x.2).index = f then 1 else 0) +
          uses target 1024 (s.mem.frame (s.pde x.1 x.2).index) f) := by
        unfold slotRefs State.roots
        simp only [huses]
        rw [Finset.sum_filter]
    _ = ∑ T ∈ s.tablesOf s.live, ((if T = f then 1 else 0) + uses target 1024 (s.mem.frame T) f) := by
        rw [tablesOf_roots, Finset.sum_image (roots_inj hs)]
    _ = names target 1024 s.mem.frame (s.tablesOf s.live) f := by
        rw [Finset.sum_add_distrib, Finset.sum_ite_eq']
        rfl

/-- **The counts are the references.** In every state reached, `memory_map` has for each frame above
    the kernel's 16 MiB the number of slots and entries that refer to it; so the frame that `get_page`
    takes is not referred to, what is referred to has a count to give up, and what has a count is
    referred to. -/
theorem frames_counted {pages : Nat} {s : State} (h : Kept pages s) :
    (∀ f, KERNEL_MEMORY_SIZE / PAGE_SIZE ≤ f → s.mem.memoryMap f = references s f) ∧
    (∀ m f, getPage s.mem = .ok (m, f) →
      KERNEL_MEMORY_SIZE / PAGE_SIZE ≤ f ∧ references s f = 0) ∧
    (∀ f, 0 < references s f → 0 < s.mem.memoryMap f) := by
  have hs := kept_held h
  have hcount : ∀ f, s.mem.memoryMap f = kernelFrames f + references s f := fun f => by
    rw [references_eq hs]
    exact hs.counted.total f
  refine ⟨fun f hf => ?_, fun m f hget => ?_, fun f hf => ?_⟩
  · rw [hcount f, kernelFrames, if_neg (not_lt.mpr hf), Nat.zero_add]
  · have h0 := (getPage_ok hget).1
    rw [hcount f, kernelFrames] at h0
    split at h0
    · omega
    · exact ⟨by omega, by omega⟩
  · rw [hcount f]
    omega

/-- The word of a number. -/
def Word.ofBits (n : Nat) : Word where
  present := n % 2 = 1
  write := n / 2 % 2 = 1
  user := n / 4 % 2 = 1
  flags := n / 8 % 64
  shared := n / 512 % 2 = 1
  privat := n / 1024 % 2 = 1
  readonly := n / 2048 % 2 = 1
  index := n / 4096

/-- Where `load_elf` keeps the first program header. -/
def firstHeader : Nat := USER_EXEC_ADDR + 52

/-- The program header has come to memory. -/
def headerStores (p vaddr filesz memsz flags : Nat) : List Action :=
  [(8, vaddr), (16, filesz), (20, memsz), (24, flags), (28, 0x1000)].map fun (k, n) =>
    .kernelStore p (firstHeader + k) (.ofBits n)

/-- A process loads its segment, which begins with the headers, and maps a page. -/
def loading : List Action :=
  let ph : Phdr := ⟨USER_EXEC_ADDR, 100, 5000, true, 0x1000⟩
  [.start 1, .execve 1] ++ headerStores 1 USER_EXEC_ADDR 100 5000 PF_W ++
    [.loadSegment 1 firstHeader ph, .segmentWord 1 0 .zero, .readAgain 1 ph,
      .segmentZero 1 (USER_EXEC_ADDR + 100) .zero, .endSegment 1 ph,
      .mmap 1 USER_MMAP_ADDR 4096 ⟨true, false, true⟩]

theorem frames_counted_loading :
    ((actAll (fun _ a => Proper a) (bootState 4400) loading).map fun s => s.mem.memoryMap 4097)
      = some 1 ∧
    ∀ s, actAll (fun _ a => Proper a) (bootState 4400) loading = some s → ∀ f,
      KERNEL_MEMORY_SIZE / PAGE_SIZE ≤ f → s.mem.memoryMap f = references s f :=
  ⟨by decide +kernel,
    fun _ hs => (frames_counted ((Run.boot (boot_bootState (by decide) (by decide))).all hs)).1⟩

/-- A segment at the address of `memory_map[4096]` whose size wraps around to no pages. -/
def wrapping : List Action :=
  [.start 1, .execve 1] ++ headerStores 1 0x101000 0xfffff001 0xfffff001 PF_W ++
    [.loadSegment 1 firstHeader ⟨0x101000, 0xfffff001, 0xfffff001, true, 0x1000⟩, .segmentWord 1 0 .zero]

/-- **A segment whose size wraps around is loaded over `memory_map`**: the count of the process's page
    table is gone, and `get_page` takes it. -/
theorem frames_lost : ∃ s, Reached 4400 s ∧ s.mem.memoryMap 4096 = 0 ∧ references s 4096 = 1 ∧
    ∃ m, getPage s.mem = .ok (m, 4096) := by
  have hrun : (actAll (fun _ _ => true) (bootState 4400) wrapping).map (fun s =>
      (s.mem.memoryMap 4096, references s 4096, (getPage s.mem).toOption.map Prod.snd))
      = some (0, 1, some 4096) := by decide +kernel
  obtain ⟨s, hs, he⟩ := Option.map_eq_some_iff.mp hrun
  simp only [Prod.mk.injEq] at he
  obtain ⟨h1, h2, h3⟩ := he
  refine ⟨s, (Run.boot (boot_bootState (by decide) (by decide))).all hs, h1, h2, ?_⟩
  cases hg : getPage s.mem with
  | error e =>
    rw [hg] at h3
    cases h3
  | ok r =>
    rw [hg] at h3
    exact ⟨r.1, congrArg Except.ok (Prod.ext rfl (Option.some.inj h3))⟩

end Yuios.Paging
