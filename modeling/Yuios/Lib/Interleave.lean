/-
  File:      Yuios/Lib/Interleave.lean
  Subject:   TASKS THAT TAKE TURNS: programs over one shared state, each run from one blocking point
             to the next without interruption, in any order.

  * `upTo` -- a program run to its next blocking point.
  * `Pool`, `turn`, `Turns` -- the shared state with a program for every task, one task's turn, and
    all sequences of turns whose states meet a condition.
  * `Rules` -- what the tasks agree on: an invariant of the shared state that may speak of the
    labels the tasks sleep at, and a preorder that every turn moves the state along.
  * `Wp` -- what a program needs so that every turn of its own keeps to the rules, whatever the
    other tasks do meanwhile within them. `wp_bind`, `wp_quiet`, `wp_sleep` and `wp_mapLabel` take
    a program apart.
  * `turns_safe` -- if every task's program meets its `Wp`, the invariant holds after any number of
    turns, and every task that has come to its end has its result.
-/
import Mathlib.Logic.Function.Basic
import Yuios.Lib.Prog

namespace Yuios.Lib

open Prog

/-! ## 1. Turns -/

/-- How a turn ends. -/
inductive Pause (ε σ ℓ α : Type) where
  | done (a : α) (s : σ)
  | asleep (l : ℓ) (p : Prog ε σ ℓ α) (s : σ)
  | stopped (e : ε)

/-- `p` run from `s` up to its next blocking point. -/
def upTo {ε σ ℓ α : Type} : Prog ε σ ℓ α → σ → Pause ε σ ℓ α
  | .ret a, s => .done a s
  | .stop e, _ => .stopped e
  | .get k, s => upTo (k s) s
  | .put t p, _ => upTo p t
  | .block l p, s => .asleep l p s

section UpTo

variable {ε σ ℓ α β : Type} {s : σ}

/-- A sequence: the second part begins where the first one ends, unless that falls asleep. -/
theorem upTo_bind (p : Prog ε σ ℓ α) (f : α → Prog ε σ ℓ β) :
    upTo (p >>= f) s = match upTo p s with
      | .done a t => upTo (f a) t
      | .asleep l q t => .asleep l (q >>= f) t
      | .stopped e => .stopped e := by
  show upTo (p.bind f) s = _
  induction p generalizing s with
  | ret a => rfl
  | stop e => rfl
  | get k ih => exact ih s
  | put t p ih => exact ih
  | block l p ih => rfl

@[simp] theorem upTo_pure {a : α} : upTo (pure a : Prog ε σ ℓ α) s = .done a s := rfl

@[simp] theorem upTo_reads {f : σ → α} :
    upTo (reads f : Prog ε σ ℓ α) s = .done (f s) s := rfl

@[simp] theorem upTo_modify {f : σ → σ} :
    upTo (modify f : Prog ε σ ℓ Unit) s = .done () (f s) := rfl

@[simp] theorem upTo_sleep {l : ℓ} :
    upTo (sleep l : Prog ε σ ℓ Unit) s = .asleep l (pure ()) s := rfl

end UpTo

/-- A task: not begun, asleep at a label before the rest of its program, or at its end. -/
inductive Thread (ε σ ℓ α : Type) where
  | ready (p : Prog ε σ ℓ α)
  | asleep (l : ℓ) (p : Prog ε σ ℓ α)
  | done (a : α)

namespace Thread

variable {ε σ ℓ α : Type}

/-- What is left to run. -/
def rest : Thread ε σ ℓ α → Option (Prog ε σ ℓ α)
  | ready p => some p
  | asleep _ p => some p
  | done _ => none

/-- Where the task sleeps. -/
def label : Thread ε σ ℓ α → Option ℓ
  | asleep l _ => some l
  | _ => none

end Thread

/-- The shared state and the tasks. -/
structure Pool (ι ε σ ℓ α : Type) where
  shared : σ
  thread : ι → Thread ε σ ℓ α

namespace Pool

variable {ι ε σ ℓ α : Type} [DecidableEq ι]

/-- Where every task sleeps. -/
def labels (M : Pool ι ε σ ℓ α) (i : ι) : Option ℓ := (M.thread i).label

/-- Task `i`'s turn; `none` if it is at its end or would stop the machine. -/
def turn (M : Pool ι ε σ ℓ α) (i : ι) : Option (Pool ι ε σ ℓ α) :=
  match (M.thread i).rest with
  | none => none
  | some p =>
    match upTo p M.shared with
    | .done a s => some ⟨s, Function.update M.thread i (.done a)⟩
    | .asleep l p s => some ⟨s, Function.update M.thread i (.asleep l p)⟩
    | .stopped _ => none

/-- **Any number of turns**, in states that meet `Ok`. -/
inductive Turns (Ok : (ι → Option ℓ) → σ → Prop) (M : Pool ι ε σ ℓ α) :
    Pool ι ε σ ℓ α → Prop where
  | start (hok : Ok M.labels M.shared) : Turns Ok M M
  | step {N K : Pool ι ε σ ℓ α} (h : Turns Ok M N) (i : ι) (ht : N.turn i = some K)
      (hok : Ok K.labels K.shared) : Turns Ok M K

theorem labels_update (M : Pool ι ε σ ℓ α) (i : ι) (t : Thread ε σ ℓ α) (s : σ) :
    (⟨s, Function.update M.thread i t⟩ : Pool ι ε σ ℓ α).labels =
      Function.update M.labels i t.label := by
  funext j
  by_cases e : j = i
  · subst e
    simp [labels]
  · simp [labels, e]

/-- The turns of a list of tasks, computed: none of them stops, the states meet `Ok`, and `f` holds
    of the last one. -/
def checkTurns (Ok : (ι → Option ℓ) → σ → Prop) [∀ F s, Decidable (Ok F s)]
    (f : Pool ι ε σ ℓ α → Bool) : List ι → Pool ι ε σ ℓ α → Bool
  | [], M => f M
  | i :: l, M =>
    match M.turn i with
    | none => false
    | some N => decide (Ok N.labels N.shared) && checkTurns Ok f l N

theorem turns_of_check (Ok : (ι → Option ℓ) → σ → Prop) [∀ F s, Decidable (Ok F s)]
    (f : Pool ι ε σ ℓ α → Bool) (l : List ι) (M : Pool ι ε σ ℓ α) (hok : Ok M.labels M.shared)
    (h : checkTurns Ok f l M = true) : ∃ N, Turns Ok M N ∧ f N = true := by
  have go : ∀ K, Turns Ok M K → checkTurns Ok f l K = true → ∃ N, Turns Ok M N ∧ f N = true := by
    clear h
    induction l with
    | nil => exact fun K hK h => ⟨K, hK, h⟩
    | cons i l ih =>
      intro K hK h
      unfold checkTurns at h
      split at h
      next => cases h
      next N hN =>
        rw [Bool.and_eq_true] at h
        exact ih N (.step hK i hN (of_decide_eq_true h.1)) h.2
  exact go M (.start hok) h

end Pool

/-! ## 2. Rules and what a program needs -/

/-- What the tasks agree on: the invariant `Inv`, over the labels the tasks sleep at and the
    state; the condition `Ok` the states are assumed to meet; the order `Later`. -/
structure Rules (ι σ ℓ : Type) where
  Inv : (ι → Option ℓ) → σ → Prop
  Ok : (ι → Option ℓ) → σ → Prop
  Later : σ → σ → Prop
  refl : ∀ s, Later s s
  trans : ∀ {s t u}, Later s t → Later t u → Later s u

section Wp

variable {ι ε σ ℓ ℓ' α β : Type} [DecidableEq ι] (R : Rules ι σ ℓ) (i : ι)

/-- What holds at the end of a program: its result, where the tasks slept when its last turn
    began, the state then and the state now. -/
abbrev Post (ι σ ℓ α : Type) := α → (ι → Option ℓ) → σ → σ → Prop

/-- **What task `i` needs to run `p`**, with the labels of `p` read through `g`: falling asleep, it
    keeps to the rules; woken in any state the rules allow, it goes on. -/
def Wp (g : ℓ' → ℓ) : Prog ε σ ℓ' α → Post ι σ ℓ α → (ι → Option ℓ) → σ → σ → Prop
  | .ret a, Q, F, s₀, s => Q a F s₀ s
  | .stop _, _, _, _, _ => True
  | .get k, Q, F, s₀, s => Wp g (k s) Q F s₀ s
  | .put t p, Q, F, s₀, _ => Wp g p Q F s₀ t
  | .block l p, Q, F, s₀, s =>
    R.Ok (Function.update F i (some (g l))) s →
      R.Later s₀ s ∧ R.Inv (Function.update F i (some (g l))) s ∧
      ∀ F' s', F' i = some (g l) → R.Later s s' → R.Inv F' s' → R.Ok F' s' →
        Wp g p Q F' s' s'

variable {R i} {g : ℓ' → ℓ} {F : ι → Option ℓ} {s₀ s : σ}

theorem wp_bind {p : Prog ε σ ℓ' α} {f : α → Prog ε σ ℓ' β} {Q : Post ι σ ℓ β} :
    Wp R i g (p >>= f) Q F s₀ s ↔ Wp R i g p (fun a F s₀ s => Wp R i g (f a) Q F s₀ s) F s₀ s := by
  show Wp R i g (p.bind f) Q F s₀ s ↔ _
  induction p generalizing F s₀ s with
  | ret a => exact Iff.rfl
  | stop e => exact Iff.rfl
  | get k ih => exact ih s
  | put t p ih => exact ih
  | block l p ih =>
    refine forall_congr' fun _ => and_congr_right fun _ => and_congr_right fun _ => ?_
    exact forall_congr' fun _ => forall_congr' fun _ => forall_congr' fun _ =>
      forall_congr' fun _ => forall_congr' fun _ => forall_congr' fun _ => ih

theorem wp_mapLabel {f : ℓ' → ℓ'} {p : Prog ε σ ℓ' α} {Q : Post ι σ ℓ α} :
    Wp R i g (p.mapLabel f) Q F s₀ s ↔ Wp R i (fun l => g (f l)) p Q F s₀ s := by
  induction p generalizing F s₀ s with
  | ret a => exact Iff.rfl
  | stop e => exact Iff.rfl
  | get k ih => exact ih s
  | put t p ih => exact ih
  | block l p ih =>
    refine forall_congr' fun _ => and_congr_right fun _ => and_congr_right fun _ => ?_
    exact forall_congr' fun _ => forall_congr' fun _ => forall_congr' fun _ =>
      forall_congr' fun _ => forall_congr' fun _ => forall_congr' fun _ => ih

/-- A program that never blocks. -/
def Quiet (p : Prog ε σ ℓ' α) : Prop := ∀ s, Along (fun _ _ => False) p s

omit [DecidableEq ι] in
theorem quiet_bind {p : Prog ε σ ℓ' α} {f : α → Prog ε σ ℓ' β} (hp : Quiet p)
    (hf : ∀ a, Quiet (f a)) : Quiet (p >>= f) := by
  intro s
  show Along _ (p.bind f) s
  have h := hp s
  clear hp
  induction p generalizing s with
  | ret a => exact hf a s
  | stop e => trivial
  | get k ih => exact ih s s h
  | put t p ih => exact ih t h
  | block l p ih => exact h.1.elim

theorem quiet_reads (f : σ → α) : Quiet (reads f : Prog ε σ ℓ' α) := fun _ => trivial

theorem quiet_modify (f : σ → σ) : Quiet (modify f : Prog ε σ ℓ' Unit) := fun _ => trivial

theorem quiet_pure (a : α) : Quiet (pure a : Prog ε σ ℓ' α) := fun _ => trivial

theorem quiet_stop (e : ε) : Quiet (stop e : Prog ε σ ℓ' α) := fun _ => trivial

theorem quiet_check (c : Bool) (e : ε) : Quiet (check c e : Prog ε σ ℓ' Unit) := fun _ => by
  cases c <;> trivial

theorem quiet_need (e : ε) (o : Option α) : Quiet (need e o : Prog ε σ ℓ' α) := fun _ => by
  cases o <;> trivial

/-- Such a program is run in one turn: what it leads to, run alone, is all there is. -/
theorem wp_quiet {p : Prog ε σ ℓ' α} {Q : Post ι σ ℓ α} (hq : Quiet p)
    (h : ∀ a t, Ends p s a t → Q a F s₀ t) : Wp R i g p Q F s₀ s := by
  have hs := hq s
  clear hq
  induction p generalizing s with
  | ret a => exact h a s ⟨rfl, rfl⟩
  | stop e => trivial
  | get k ih => exact ih s h hs
  | put t p ih => exact ih h hs
  | block l p ih => exact hs.1.elim

theorem wp_pure {a : α} {Q : Post ι σ ℓ α} :
    Wp R i g (pure a : Prog ε σ ℓ' α) Q F s₀ s ↔ Q a F s₀ s := Iff.rfl

theorem wp_reads {f : σ → α} {Q : Post ι σ ℓ α} :
    Wp R i g (reads f : Prog ε σ ℓ' α) Q F s₀ s ↔ Q (f s) F s₀ s := Iff.rfl

theorem wp_modify {f : σ → σ} {Q : Post ι σ ℓ Unit} :
    Wp R i g (modify f : Prog ε σ ℓ' Unit) Q F s₀ s ↔ Q () F s₀ (f s) := Iff.rfl

theorem wp_check {c : Bool} {e : ε} {Q : Post ι σ ℓ Unit} (h : c = true → Q () F s₀ s) :
    Wp R i g (check c e : Prog ε σ ℓ' Unit) Q F s₀ s := by
  cases c with
  | false => trivial
  | true => exact h rfl

theorem wp_ite {c : Prop} [Decidable c] {p q : Prog ε σ ℓ' α} {Q : Post ι σ ℓ α}
    (hp : c → Wp R i g p Q F s₀ s) (hq : ¬ c → Wp R i g q Q F s₀ s) :
    Wp R i g (if c then p else q) Q F s₀ s := by
  by_cases h : c
  · rw [if_pos h]
    exact hp h
  · rw [if_neg h]
    exact hq h

/-- Falling asleep. -/
theorem wp_sleep {l : ℓ'} {Q : Post ι σ ℓ Unit} :
    Wp R i g (sleep l : Prog ε σ ℓ' Unit) Q F s₀ s ↔
      (R.Ok (Function.update F i (some (g l))) s →
        R.Later s₀ s ∧ R.Inv (Function.update F i (some (g l))) s ∧
        ∀ F' s', F' i = some (g l) → R.Later s s' → R.Inv F' s' → R.Ok F' s' →
          Q () F' s' s') := Iff.rfl

/-- How a turn that meets its `Wp` ends. -/
def Paused (R : Rules ι σ ℓ) (i : ι) (g : ℓ' → ℓ) (Q : Post ι σ ℓ α) (F : ι → Option ℓ) (s₀ : σ) :
    Pause ε σ ℓ' α → Prop
  | .done a t => Q a F s₀ t
  | .asleep l p t =>
    R.Ok (Function.update F i (some (g l))) t →
      R.Later s₀ t ∧ R.Inv (Function.update F i (some (g l))) t ∧
      ∀ F' s', F' i = some (g l) → R.Later t s' → R.Inv F' s' → R.Ok F' s' →
        Wp R i g p Q F' s' s'
  | .stopped _ => True

theorem paused_of_wp {p : Prog ε σ ℓ' α} {Q : Post ι σ ℓ α} (h : Wp R i g p Q F s₀ s) :
    Paused R i g Q F s₀ (upTo p s) := by
  induction p generalizing s with
  | ret a => exact h
  | stop e => trivial
  | get k ih => exact ih s h
  | put t p ih => exact ih h
  | block l p ih => exact h

end Wp

/-! ## 3. Any number of turns -/

section Turns

variable {ι ε σ ℓ α : Type} [DecidableEq ι] {R : Rules ι σ ℓ} {Q : ι → α → σ → Prop}

/-- What the end of task `i` has to keep to. -/
def AtEnd (R : Rules ι σ ℓ) (Q : ι → α → σ → Prop) (i : ι) : Post ι σ ℓ α := fun a F s₀ s =>
  R.Ok (Function.update F i none) s →
    R.Later s₀ s ∧ R.Inv (Function.update F i none) s ∧ Q i a s

/-- Task `i` can go on from every state the rules lead to; at its end it has its result. -/
def Safe (R : Rules ι σ ℓ) (Q : ι → α → σ → Prop) (i : ι) (s : σ) : Thread ε σ ℓ α → Prop
  | .ready p => ∀ F' s', F' i = none → R.Later s s' → R.Inv F' s' → R.Ok F' s' →
      Wp R i id p (AtEnd R Q i) F' s' s'
  | .asleep l p => ∀ F' s', F' i = some l → R.Later s s' → R.Inv F' s' → R.Ok F' s' →
      Wp R i id p (AtEnd R Q i) F' s' s'
  | .done a => Q i a s

/-- Other tasks' turns do no harm. -/
theorem Safe.later (hQ : ∀ i a s t, R.Later s t → Q i a s → Q i a t) {i : ι} {s t : σ}
    {th : Thread ε σ ℓ α} (h : Safe R Q i s th) (hl : R.Later s t) : Safe R Q i t th := by
  cases th with
  | ready p => exact fun F' s' e hl' => h F' s' e (R.trans hl hl')
  | asleep l p => exact fun F' s' e hl' => h F' s' e (R.trans hl hl')
  | done a => exact hQ i a s t hl h

theorem Safe.wp {i : ι} {M : Pool ι ε σ ℓ α} {p : Prog ε σ ℓ α}
    (h : Safe R Q i M.shared (M.thread i)) (hp : (M.thread i).rest = some p)
    (hi : R.Inv M.labels M.shared) (hok : R.Ok M.labels M.shared) :
    Wp R i id p (AtEnd R Q i) M.labels M.shared M.shared := by
  have hlab : M.labels i = (M.thread i).label := rfl
  cases hth : M.thread i with
  | ready q =>
    rw [hth] at h hp hlab
    cases hp
    exact h _ _ hlab (R.refl _) hi hok
  | asleep l q =>
    rw [hth] at h hp hlab
    cases hp
    exact h _ _ hlab (R.refl _) hi hok
  | done a =>
    rw [hth] at hp
    cases hp

/-- **One turn** keeps the invariant and everyone's safety. -/
theorem turn_safe (hQ : ∀ i a s t, R.Later s t → Q i a s → Q i a t) {M N : Pool ι ε σ ℓ α} {i : ι}
    (ht : M.turn i = some N) (hi : R.Inv M.labels M.shared) (hok : R.Ok M.labels M.shared)
    (hokN : R.Ok N.labels N.shared) (hs : ∀ j, Safe R Q j M.shared (M.thread j)) :
    R.Inv N.labels N.shared ∧ ∀ j, Safe R Q j N.shared (N.thread j) := by
  unfold Pool.turn at ht
  split at ht
  next => cases ht
  next p hp =>
    have hend := paused_of_wp ((hs i).wp hp hi hok)
    split at ht
    next a t hu =>
      cases ht
      rw [hu] at hend
      rw [Pool.labels_update] at hokN ⊢
      obtain ⟨hl, hi', hq⟩ := hend hokN
      refine ⟨hi', fun j => ?_⟩
      by_cases e : j = i
      · subst e
        simpa [Safe] using hq
      · simpa [e] using (hs j).later hQ hl
    next l q t hu =>
      cases ht
      rw [hu] at hend
      rw [Pool.labels_update] at hokN ⊢
      obtain ⟨hl, hi', hw⟩ := hend hokN
      refine ⟨hi', fun j => ?_⟩
      by_cases e : j = i
      · subst e
        simpa [Safe] using hw
      · simpa [e] using (hs j).later hQ hl
    next => cases ht

/-- **Any number of turns.** -/
theorem turns_safe (hQ : ∀ i a s t, R.Later s t → Q i a s → Q i a t) {M N : Pool ι ε σ ℓ α}
    (h : Pool.Turns R.Ok M N) (hi : R.Inv M.labels M.shared)
    (hs : ∀ j, Safe R Q j M.shared (M.thread j)) :
    R.Inv N.labels N.shared ∧ ∀ j, Safe R Q j N.shared (N.thread j) := by
  have hall : R.Ok N.labels N.shared ∧ R.Inv N.labels N.shared ∧
      ∀ j, Safe R Q j N.shared (N.thread j) := by
    induction h with
    | start hok => exact ⟨hok, hi, hs⟩
    | step _ i ht hok ih => exact ⟨hok, turn_safe hQ ht ih.2.1 ih.1 hok ih.2.2⟩
  exact hall.2

end Turns

end Yuios.Lib
