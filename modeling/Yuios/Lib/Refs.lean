/-
  File:      Yuios/Lib/Refs.lean
  Subject:   REFERENCE COUNTS OVER TABLES.

  Some cells are tables of `n` entries, an entry names at most one cell, and each cell has a count.

  * `names` -- how often a cell is named: by whoever owns the tables if it is one of them, and by the
    entries of the tables.
  * `Exact` -- the counts are what is named, what is fixed (`base`) and what an operation still has in
    its hands (`x`); the tables are counted once, so nothing else names them.
  * One lemma for each thing an operation does: `take`, `drop`, `raise`, `write`, `adopt`, `release`.
-/
import Mathlib.Algebra.BigOperators.Group.Finset.Basic
import Mathlib.Algebra.BigOperators.Group.Finset.Piecewise
import Mathlib.Algebra.Order.BigOperators.Group.Finset
import Mathlib.Algebra.Group.Pi.Basic
import Mathlib.Logic.Function.Basic

namespace Yuios.Lib

variable {F E : Type} [DecidableEq F] {target : E → Option F} {n : Nat}

/-- One if the entry names the cell. -/
def hit (target : E → Option F) (e : E) (f : F) : Nat := if target e = some f then 1 else 0

/-- One reference to `f`. -/
def one (f : F) : F → Nat := fun g => if g = f then 1 else 0

theorem one_self (f : F) : one f f = 1 := if_pos rfl

theorem one_ne {f g : F} (h : g ≠ f) : one f g = 0 := if_neg h

/-- How often a table's entries name `f`. -/
def uses (target : E → Option F) (n : Nat) (r : Nat → E) (f : F) : Nat :=
  ∑ t ∈ Finset.range n, hit target (r t) f

/-- How often `f` is named: as one of the tables `K`, and by their entries. -/
def names (target : E → Option F) (n : Nat) (mem : F → Nat → E) (K : Finset F) (f : F) : Nat :=
  (if f ∈ K then 1 else 0) + ∑ T ∈ K, uses target n (mem T) f

/-- **The counts are exact** but for the references `x` that are not in a table. -/
structure Exact (target : E → Option F) (n : Nat) (base : F → Nat) (count : F → Nat)
    (mem : F → Nat → E) (K : Finset F) (x : F → Nat) : Prop where
  total : ∀ f, count f = base f + names target n mem K f + x f
  table : ∀ T ∈ K, count T = 1

/-! ## 1. Entries and tables -/

section Uses

variable {r : Nat → E} {e : E} {t : Nat} {f g : F} {mem mem' : F → Nat → E} {K : Finset F} {T : F}

theorem hit_self (h : target e = some f) : hit target e f = 1 := if_pos h

theorem hit_ne (h : target e ≠ some f) : hit target e f = 0 := if_neg h

/-- An entry that names `f` names nothing else. -/
theorem hit_some (h : target e = some f) (g : F) : hit target e g = one f g := by
  unfold hit
  rw [h]
  by_cases e : g = f
  · subst e
    rw [one_self, if_pos rfl]
  · rw [one_ne e, if_neg fun h => e (Option.some.inj h).symm]

theorem hit_none (h : target e = none) (g : F) : hit target e g = 0 := by simp [hit, h]

theorem uses_pos (ht : t < n) (h : target (r t) = some f) : 0 < uses target n r f :=
  Finset.sum_pos' (fun _ _ => Nat.zero_le _) ⟨t, Finset.mem_range.mpr ht, by rw [hit_self h]; exact Nat.one_pos⟩

/-- Two entries that name `f` are two uses. -/
theorem uses_two {u : Nat} (ht : t < n) (hu : u < n) (hne : t ≠ u) (h : target (r t) = some f)
    (h' : target (r u) = some f) : 1 < uses target n r f := by
  have hs := Finset.add_sum_erase (Finset.range n) (fun t => hit target (r t) f) (Finset.mem_range.mpr ht)
  have hp : 0 < ∑ v ∈ (Finset.range n).erase t, hit target (r v) f :=
    Finset.sum_pos' (fun _ _ => Nat.zero_le _)
      ⟨u, Finset.mem_erase.mpr ⟨hne.symm, Finset.mem_range.mpr hu⟩, by rw [hit_self h']; exact Nat.one_pos⟩
  rw [hit_self h] at hs
  unfold uses
  omega

theorem uses_congr {r' : Nat → E} (h : ∀ t < n, target (r' t) = target (r t)) :
    uses target n r' = uses target n r := by
  funext f
  exact Finset.sum_congr rfl fun t ht => by unfold hit; rw [h t (Finset.mem_range.mp ht)]

theorem uses_update (target : E → Option F) (e : E) (r : Nat → E) (ht : t < n) (f : F) :
    uses target n (Function.update r t e) f + hit target (r t) f
      = uses target n r f + hit target e f := by
  unfold uses
  rw [← Finset.add_sum_erase (Finset.range n) _ (Finset.mem_range.mpr ht),
    ← Finset.add_sum_erase (Finset.range n) (fun t => hit target (r t) f) (Finset.mem_range.mpr ht),
    Function.update_self]
  have : ∑ u ∈ (Finset.range n).erase t, hit target (Function.update r t e u) f
      = ∑ u ∈ (Finset.range n).erase t, hit target (r u) f :=
    Finset.sum_congr rfl fun u hu => by rw [Function.update_of_ne (Finset.ne_of_mem_erase hu)]
  omega

theorem names_congr (h : ∀ T ∈ K, mem' T = mem T) :
    names target n mem' K = names target n mem K := by
  funext f
  unfold names
  rw [Finset.sum_congr rfl fun T hT => by rw [h T hT]]

theorem names_update (target : E → Option F) (e : E) (mem : F → Nat → E) (hT : T ∈ K) (ht : t < n) (f : F) :
    names target n (Function.update mem T (Function.update (mem T) t e)) K f + hit target (mem T t) f
      = names target n mem K f + hit target e f := by
  unfold names
  rw [← Finset.add_sum_erase K _ hT, ← Finset.add_sum_erase K (fun T => uses target n (mem T) f) hT,
    Function.update_self]
  have hu := uses_update target e (mem T) ht f
  have : ∑ U ∈ K.erase T, uses target n (Function.update mem T (Function.update (mem T) t e) U) f
      = ∑ U ∈ K.erase T, uses target n (mem U) f :=
    Finset.sum_congr rfl fun U hU => by rw [Function.update_of_ne (Finset.ne_of_mem_erase hU)]
  omega

theorem names_insert (hg : g ∉ K) (f : F) :
    names target n mem (insert g K) f
      = names target n mem K f + one g f + uses target n (mem g) f := by
  unfold names
  rw [Finset.sum_insert hg]
  by_cases e : f = g
  · subst e
    simp only [Finset.mem_insert_self, if_true, hg, if_false, one_self]
    omega
  · simp only [Finset.mem_insert, e, false_or, one_ne e]
    omega

theorem names_mono {L : Finset F} (h : K ⊆ L) (f : F) :
    names target n mem K f ≤ names target n mem L f := by
  unfold names
  refine Nat.add_le_add ?_ (Finset.sum_le_sum_of_subset h)
  by_cases hK : f ∈ K
  · rw [if_pos hK, if_pos (h hK)]
  · rw [if_neg hK]
    exact Nat.zero_le _

theorem uses_le_names (target : E → Option F) (hT : T ∈ K) (f : F) :
    uses target n (mem T) f ≤ ∑ T ∈ K, uses target n (mem T) f :=
  Finset.single_le_sum (f := fun T => uses target n (mem T) f) (fun _ _ => Nat.zero_le _) hT

end Uses

/-! ## 2. Exact counts -/

namespace Exact

variable {base count : F → Nat} {mem mem' : F → Nat → E} {K : Finset F} {x x' : F → Nat}
  {f g T U : F} {t u : Nat} {e : E}

/-- The references in hand are given as a function; only its values matter. -/
theorem of_eq (h : Exact target n base count mem K x) (he : ∀ f, x' f = x f) :
    Exact target n base count mem K x' :=
  ⟨fun f => by rw [he]; exact h.total f, h.table⟩

/-- Only what the tables hold matters. -/
theorem congr (h : Exact target n base count mem K x) (he : ∀ T ∈ K, mem' T = mem T) :
    Exact target n base count mem' K x :=
  ⟨fun f => by rw [names_congr he]; exact h.total f, h.table⟩

/-- A table is named by its owner and by nobody else. -/
theorem alone (h : Exact target n base count mem K x) (hT : T ∈ K) :
    base T = 0 ∧ x T = 0 ∧ ∑ U ∈ K, uses target n (mem U) T = 0 := by
  have h1 := h.table T hT
  rw [h.total T, names, if_pos hT] at h1
  omega

theorem not_table (h : Exact target n base count mem K x) (hx : 0 < x f) : f ∉ K :=
  fun hf => by have := (h.alone hf).2.1; omega

/-- What an entry names has a count and is not a table. -/
theorem entry (h : Exact target n base count mem K x) (hT : T ∈ K) (ht : t < n)
    (he : target (mem T t) = some f) : 0 < count f ∧ f ∉ K := by
  have hp := (uses_pos ht he).trans_le (uses_le_names target hT f)
  refine ⟨?_, fun hf => ?_⟩
  · rw [h.total f]
    unfold names
    omega
  · have := (h.alone hf).2.2
    omega

/-- What has no count is not named. -/
theorem free (h : Exact target n base count mem K x) (hf : count f = 0) :
    f ∉ K ∧ ∀ T ∈ K, ∀ t < n, target (mem T t) ≠ some f := by
  refine ⟨fun hK => ?_, fun T hT t ht he => ?_⟩
  · have := h.table f hK
    omega
  · have := (h.entry hT ht he).1
    omega

/-- **What is counted once is named by one entry.** -/
theorem sole (h : Exact target n base count mem K x) (hc : count f = 1) (hT : T ∈ K) (ht : t < n)
    (hU : U ∈ K) (hu : u < n) (he : target (mem T t) = some f) (he' : target (mem U u) = some f) :
    T = U ∧ t = u := by
  have h1 := h.total f
  unfold names at h1
  have hne : T = U := by
    by_contra hne
    have hs := Finset.add_sum_erase K (fun T => uses target n (mem T) f) hT
    have hp := (uses_pos hu he').trans_le
      (uses_le_names target (Finset.mem_erase.mpr ⟨Ne.symm hne, hU⟩) f)
    have := uses_pos ht he
    omega
  subst hne
  refine ⟨rfl, ?_⟩
  by_contra hne
  have := (uses_two ht hu hne he he').trans_le (uses_le_names target hT f)
  omega

/-- A free cell is taken. -/
theorem take (h : Exact target n base count mem K x) (hf : count f = 0) :
    Exact target n base (Function.update count f 1) mem K (x + one f) := by
  refine ⟨fun g => ?_, fun T hT => ?_⟩
  · have hg := h.total g
    by_cases e : g = f
    · subst e
      simp only [Function.update_self, Pi.add_apply, one_self]
      omega
    · rw [Function.update_of_ne e, Pi.add_apply, one_ne e]
      exact hg
  · rw [Function.update_of_ne (by rintro rfl; exact (h.free hf).1 hT)]
    exact h.table T hT

/-- A reference in hand is given up. -/
theorem drop (h : Exact target n base count mem K (x + one f)) :
    Exact target n base (Function.update count f (count f - 1)) mem K x := by
  have hf : f ∉ K := h.not_table (by simp [one_self])
  refine ⟨fun g => ?_, fun T hT => ?_⟩
  · have hg := h.total g
    by_cases e : g = f
    · subst e
      rw [Function.update_self]
      simp only [Pi.add_apply, one_self] at hg
      omega
    · rw [Function.update_of_ne e]
      simpa [one_ne e] using hg
  · rw [Function.update_of_ne (by rintro rfl; exact hf hT)]
    exact h.table T hT

/-- A cell that is no table gets one more reference. -/
theorem raise (h : Exact target n base count mem K x) (hf : f ∉ K) :
    Exact target n base (Function.update count f (count f + 1)) mem K (x + one f) := by
  refine ⟨fun g => ?_, fun T hT => ?_⟩
  · have hg := h.total g
    by_cases e : g = f
    · subst e
      simp only [Function.update_self, Pi.add_apply, one_self]
      omega
    · rw [Function.update_of_ne e, Pi.add_apply, one_ne e]
      exact hg
  · rw [Function.update_of_ne (by rintro rfl; exact hf hT)]
    exact h.table T hT

/-- An entry is written: what it named comes into hand, what it names goes out of it. -/
theorem write (h : Exact target n base count mem K x) (hT : T ∈ K) (ht : t < n)
    (hx : ∀ f, x f + hit target (mem T t) f = x' f + hit target e f) :
    Exact target n base count (Function.update mem T (Function.update (mem T) t e)) K x' := by
  refine ⟨fun f => ?_, h.table⟩
  have h1 := h.total f
  have h2 := names_update target e mem hT ht f
  have h3 := hx f
  omega

/-- A cell in hand becomes a table, with what its entries name. -/
theorem adopt (h : Exact target n base count mem K (x + one g + uses target n (mem g)))
    (hc : count g = 1) : Exact target n base count mem (insert g K) x := by
  have hg : g ∉ K := h.not_table (by simp [one_self])
  refine ⟨fun f => ?_, fun T hT => ?_⟩
  · have h1 := h.total f
    rw [names_insert hg]
    simp only [Pi.add_apply] at h1
    omega
  · obtain rfl | hT := Finset.mem_insert.mp hT
    · exact hc
    · exact h.table T hT

/-- A table is no table any more. -/
theorem release (h : Exact target n base count mem (insert g K) x) (hg : g ∉ K) :
    Exact target n base count mem K (x + one g + uses target n (mem g)) := by
  refine ⟨fun f => ?_, fun T hT => h.table T (Finset.mem_insert_of_mem hT)⟩
  have h1 := h.total f
  rw [names_insert hg] at h1
  simp only [Pi.add_apply]
  omega

end Exact

end Yuios.Lib
