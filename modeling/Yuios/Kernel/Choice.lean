/-
  File:      Yuios/Kernel/Choice.lean
  Subject:   WHICH TASK `task_search` CHOOSES among those that are ready.

  The loop takes a task in place of the one it has kept when the new one has more ticks or has run longer
  ago. That is no ordering: a task may be left for a second one, and that for a third one that is behind
  the first in both.

  * `Candidate`, `Beats` -- a ready task other than the running one; ahead of another in both.
  * `searchReady_eq` -- the loop is `pickFrom` over the candidates.
  * **`taskSearch_best`** -- exactly when no candidate beats the one that is chosen.
  * `taskSearch_beaten` -- three tasks, and the first one beats the last one, which is chosen.
-/
import Yuios.Lib.Pick
import Yuios.Kernel.Sched

namespace Yuios.Sched

open Lib

/-! ## 1. The candidates -/

/-- The task in slot `i` is ready, and not the running one. -/
structure Candidate (s : State) (i : Nat) (t : Task) : Prop where
  slot : i < NR_TASKS
  table : s.table i = some t
  ready : t.state = .ready
  other : s.current ≠ i

/-- `q` has more ticks than `p`, and has run longer ago. -/
def Beats (q p : Task) : Prop := p.ticks.slt q.ticks = true ∧ q.jiffies.ult p.jiffies = true

/-- No candidate in a later slot has more ticks or has run longer ago. -/
def LastsAt (s : State) (j : Nat) (p : Task) : Prop := ∀ i q, j < i → Candidate s i q → better p q = false

/-- **The choice is right**: a candidate that none beats. -/
def ChosenBest (s : State) : Prop := ∃ c, Candidate s (taskSearch s) c ∧ ∀ i q, Candidate s i q → ¬ Beats q c

/-- **The first candidate that lasts is beaten by none before it.** -/
def FirstUnbeaten (s : State) : Prop :=
  ∀ j p, Candidate s j p → LastsAt s j p → (∀ k r, k < j → Candidate s k r → ¬ LastsAt s k r) →
    ∀ i q, i < j → Candidate s i q → ¬ Beats q p

def candidate? (s : State) (i : Nat) : Option (Nat × Task) :=
  (s.table i).bind fun t => if t.state = .ready ∧ s.current ≠ i then some (i, t) else none

def candidates (s : State) : List (Nat × Task) := (List.range NR_TASKS).filterMap (candidate? s)

/-- `better`, of tasks with their slots. -/
def betterAt (p q : Nat × Task) : Bool := better p.2 q.2

section Choice

variable {s : State} {i j : Nat} {p q : Task} {l : List Nat} {c d : Nat × Task} {l₁ l₂ : List (Nat × Task)}

theorem candidate?_eq : candidate? s i = some c ↔
    c.1 = i ∧ s.table i = some c.2 ∧ c.2.state = .ready ∧ s.current ≠ i := by
  unfold candidate?
  rw [Option.bind_eq_some_iff]
  constructor
  · rintro ⟨t, ht, h⟩
    obtain ⟨hc, e⟩ := Option.ite_none_right_eq_some.mp h
    obtain rfl := Option.some.inj e
    exact ⟨rfl, ht, hc.1, hc.2⟩
  · obtain ⟨n, t⟩ := c
    rintro ⟨rfl, ht, hr, hne⟩
    exact ⟨t, ht, if_pos ⟨hr, hne⟩⟩

theorem mem_candidates : c ∈ candidates s ↔ Candidate s c.1 c.2 := by
  unfold candidates
  rw [List.mem_filterMap]
  constructor
  · rintro ⟨i, hi, h⟩
    obtain ⟨rfl, ht, hr, hne⟩ := candidate?_eq.mp h
    exact ⟨List.mem_range.mp hi, ht, hr, hne⟩
  · exact fun h => ⟨c.1, List.mem_range.mpr h.slot, candidate?_eq.mpr ⟨rfl, h.table, h.ready, h.other⟩⟩

/-- The candidates stand in the order of their slots. -/
theorem candidates_sorted : (candidates s).Pairwise fun c d => c.1 < d.1 := by
  refine List.Pairwise.filterMap _ (fun i j hlt c hc d hd => ?_) List.pairwise_lt_range
  rw [(candidate?_eq.mp hc).1, (candidate?_eq.mp hd).1]
  exact hlt

/-- What is not better than a task is passed over with it. -/
theorem betterAt_pass {a b c : Nat × Task} (hab : betterAt a b = false) (hac : betterAt a c = true) :
    betterAt b c = true := by
  unfold betterAt better at *
  simp only [Bool.or_eq_false_iff, Bool.or_eq_true, BitVec.slt, BitVec.ult, decide_eq_false_iff_not,
    decide_eq_true_eq] at *
  omega

/-- A candidate's round of the loop, and the round of any other slot. -/
theorem searchReady_cons (r : Option (Nat × Task)) : searchReady s (i :: l) r =
    match candidate? s i with
    | none => searchReady s l r
    | some c => searchReady s l (some (match r with
      | none => c
      | some d => if betterAt d c then c else d)) := by
  unfold candidate?
  conv_lhs => unfold searchReady
  cases s.table i with
  | none => rfl
  | some t =>
    by_cases hr : t.state = .ready
    · by_cases hc : s.current = i
      · simp [hr, hc]
      · cases r with
        | none => simp [hr, hc]
        | some d =>
          by_cases hb : better d.2 t = true
          · simp [hr, hc, betterAt, hb]
          · simp [hr, hc, betterAt, hb]
    · simp [hr]

/-- **The loop of `task_search`** keeps the best so far. -/
theorem searchReady_eq : searchReady s l (some c) = some (pickFrom betterAt c (l.filterMap (candidate? s))) := by
  induction l generalizing c with
  | nil => rfl
  | cons i l ih =>
    rw [searchReady_cons, List.filterMap_cons]
    cases candidate? s i with
    | none => exact ih
    | some d => exact ih

theorem searchReady_none_eq : searchReady s l none =
    match l.filterMap (candidate? s) with
    | [] => none
    | c :: cs => some (pickFrom betterAt c cs) := by
  induction l with
  | nil => rfl
  | cons i l ih =>
    rw [searchReady_cons, List.filterMap_cons]
    cases candidate? s i with
    | none => exact ih
    | some d => exact searchReady_eq

/-- The choice is the first candidate that lasts. -/
theorem taskSearch_first (h : candidates s ≠ []) : ∃ c l₁ l₂, candidates s = l₁ ++ c :: l₂ ∧ taskSearch s = c.1 ∧
    Lasts betterAt c l₂ ∧ ∀ l' b l'', l₁ = l' ++ b :: l'' → ¬ Lasts betterAt b (l'' ++ c :: l₂) := by
  obtain ⟨a, l, hal⟩ := List.exists_cons_of_ne_nil h
  obtain ⟨l₁, l₂, hl, hlast, hfirst⟩ := @firstLasting_spec _ betterAt a _ h
  refine ⟨firstLasting betterAt a (candidates s), l₁, l₂, hl, ?_, hlast, hfirst⟩
  have hpick : pickFrom betterAt a l = firstLasting betterAt a (a :: l) := pickFrom_eq fun h => betterAt_pass h
  have hsearch : searchReady s (List.range NR_TASKS) none = some (firstLasting betterAt a (a :: l)) := by
    rw [searchReady_none_eq, show (List.range NR_TASKS).filterMap (candidate? s) = a :: l from hal, ← hpick]
  unfold taskSearch
  rw [hsearch, hal]

/-! ## 2. The choice -/

/-- What lasts over the candidates behind it lasts over the later slots. -/
theorem lasts_iff (hl : candidates s = l₁ ++ c :: l₂) : Lasts betterAt c l₂ ↔ LastsAt s c.1 c.2 := by
  have hsorted := @candidates_sorted s
  rw [hl] at hsorted
  obtain ⟨-, hcons, hcross⟩ := List.pairwise_append.mp hsorted
  obtain ⟨hlater, -⟩ := List.pairwise_cons.mp hcons
  constructor
  · intro h i q hi hq
    have hmem : (i, q) ∈ candidates s := mem_candidates.mpr hq
    rw [hl] at hmem
    obtain hmem | hmem := List.mem_append.mp hmem
    · exact absurd (hcross _ hmem _ List.mem_cons_self) (Nat.lt_asymm hi)
    · obtain rfl | hmem := List.mem_cons.mp hmem
      · exact absurd hi (Nat.lt_irrefl _)
      · exact h _ hmem
  · intro h d hd
    have hmem : d ∈ candidates s := hl ▸ List.mem_append_right _ (List.mem_cons_of_mem _ hd)
    exact h d.1 d.2 (hlater d hd) (mem_candidates.mp hmem)

/-- **No candidate beats the one that is chosen** exactly when the first that lasts is beaten by none
    before it. -/
theorem taskSearch_best (h : ∃ i t, Candidate s i t) : ChosenBest s ↔ FirstUnbeaten s := by
  obtain ⟨i₀, t₀, h₀⟩ := h
  have hne : candidates s ≠ [] := List.ne_nil_of_mem (mem_candidates.mpr h₀ : (i₀, t₀) ∈ candidates s)
  obtain ⟨c, l₁, l₂, hl, hchosen, hlast, hfirst⟩ := taskSearch_first hne
  have hc : Candidate s c.1 c.2 := mem_candidates.mp (hl ▸ List.mem_append_right _ List.mem_cons_self)
  have hsorted := @candidates_sorted s
  rw [hl] at hsorted
  obtain ⟨-, -, hcross⟩ := List.pairwise_append.mp hsorted
  have hlasts : LastsAt s c.1 c.2 := (lasts_iff hl).mp hlast
  have hnone : ∀ k r, k < c.1 → Candidate s k r → ¬ LastsAt s k r := by
    intro k r hk hr hlast
    have hmem : (k, r) ∈ candidates s := mem_candidates.mpr hr
    rw [hl] at hmem
    obtain hmem | hmem := List.mem_append.mp hmem
    · obtain ⟨l', l'', rfl⟩ := List.append_of_mem hmem
      have hl' : candidates s = l' ++ (k, r) :: (l'' ++ c :: l₂) := by
        rw [hl, List.append_assoc]
        rfl
      exact hfirst l' (k, r) l'' rfl ((lasts_iff hl').mpr hlast)
    · obtain rfl | hmem := List.mem_cons.mp hmem
      · exact Nat.lt_irrefl _ hk
      · have := (List.pairwise_cons.mp (List.pairwise_append.mp hsorted).2.1).1 _ hmem
        exact Nat.lt_asymm hk this
  constructor
  · rintro ⟨c', hc', hbest⟩ j p hp hlast hfirst i q hi hq
    -- the first candidate that lasts is the one that is chosen
    obtain hlt | rfl | hlt := Nat.lt_trichotomy j c.1
    · exact absurd hlast (hnone j p hlt hp)
    · rw [hchosen] at hc'
      obtain rfl := Option.some.inj (hc'.table.symm.trans hp.table)
      exact hbest i q hq
    · exact absurd hlasts (hfirst c.1 c.2 hlt hc)
  · intro hfu
    refine ⟨c.2, hchosen ▸ hc, fun i q hq hbeats => ?_⟩
    obtain hlt | rfl | hlt := Nat.lt_trichotomy i c.1
    · exact hfu c.1 c.2 hc hlasts hnone i q hlt hq hbeats
    · obtain rfl := Option.some.inj (hq.table.symm.trans hc.table)
      have := hbeats.1
      simp [BitVec.slt] at this
    · have := hlasts i q hlt hq
      unfold better at this
      rw [hbeats.1] at this
      cases this

end Choice

/-- Idle runs, and three tasks are ready. -/
def threeReady : State where
  table := fun i =>
    match i with
    | 0 => some ⟨.running, 1, 1, 102, none⟩
    | 1 => some ⟨.ready, 5, 4, 100, none⟩
    | 2 => some ⟨.ready, 5, 1, 99, none⟩
    | 3 => some ⟨.ready, 5, 2, 101, none⟩
    | _ => none
  lists := fun _ => []
  current := 0
  jiffies := 102

theorem threeReady_candidate : Candidate threeReady 1 ⟨.ready, 5, 4, 100, none⟩ :=
  ⟨by decide, rfl, rfl, by decide⟩

theorem taskSearch_best_three : (∃ i t, Candidate threeReady i t) ∧
    (ChosenBest threeReady ↔ FirstUnbeaten threeReady) :=
  ⟨⟨1, _, threeReady_candidate⟩, taskSearch_best ⟨1, _, threeReady_candidate⟩⟩

/-- The last task is chosen, and the first has more ticks and has run longer ago. -/
theorem taskSearch_beaten : ¬ ∀ s : State, (∃ i t, Candidate s i t) → ChosenBest s := by
  intro h
  obtain ⟨c, hc, hbest⟩ := h threeReady ⟨1, _, threeReady_candidate⟩
  have hthree : taskSearch threeReady = 3 := by decide
  rw [hthree] at hc
  obtain rfl := Option.some.inj hc.table
  exact hbest 1 _ threeReady_candidate ⟨by decide, by decide⟩

end Yuios.Sched
