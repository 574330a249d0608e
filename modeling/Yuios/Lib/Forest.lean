/-
  File:      Yuios/Lib/Forest.lean
  Subject:   FORESTS OF SLOTS: references from roots through nodes, each node with slots of its own.

  A slot refers to at most one node; the slots a node has are its own whether anything refers to
  the node or not. What is reachable from the roots, and at which height, is `Slot`. The file
  gives one ownership law and what three changes do to it:

  * `Owned F used` -- every node a reachable slot refers to is in use, and no node is referred to
    by two reachable slots;
  * `Owned.congr` -- a change outside the reachable slots;
  * `Owned.fill` -- an empty slot gets a node that was not in use. Above height 0 the slots of
    that node become reachable: they must be empty;
  * `Owned.cut` -- a slot is emptied, and the nodes below it (`Under`) fall out of use.
-/
import Mathlib.Tactic.Common

namespace Yuios.Lib

/-- Roots with their heights, the slots inside a node, and what a slot refers to. -/
structure Forest (σ ν : Type) where
  root : Nat → σ → Prop
  inside : ν → σ → Prop
  val : σ → Option ν

namespace Forest

variable {σ ν : Type} {F F' : Forest σ ν} {node used used' : ν → Prop}

/-- Slot `s` is reachable, `l` nodes above the ones that have no slots. -/
inductive Slot (F : Forest σ ν) : Nat → σ → Prop where
  | root {l : Nat} {s : σ} (h : F.root l s) : Slot F l s
  | inside {l : Nat} {p s : σ} {n : ν} (h : Slot F (l + 1) p) (hv : F.val p = some n)
      (hi : F.inside n s) : Slot F l s

/-- Node `n` hangs below slot `s`, which has height `l`. -/
inductive Under (F : Forest σ ν) : Nat → σ → ν → Prop where
  | here {l : Nat} {s : σ} {n : ν} (h : F.val s = some n) : Under F l s n
  | deep {l : Nat} {s q : σ} {n m : ν} (h : F.val s = some n) (hi : F.inside n q)
      (hu : Under F l q m) : Under F (l + 1) s m

/-- Where the slots lie: a root has one height and is not inside a node, and no slot is inside two
    nodes. -/
structure Laid (F : Forest σ ν) (node : ν → Prop) : Prop where
  level : ∀ {l l' : Nat} {s : σ}, F.root l s → F.root l' s → l = l'
  outside : ∀ {n : ν} {l : Nat} {s : σ}, node n → F.inside n s → ¬ F.root l s
  one : ∀ {n n' : ν} {s : σ}, F.inside n s → F.inside n' s → n = n'

/-- **The ownership law.** -/
structure Owned (F : Forest σ ν) (used : ν → Prop) : Prop where
  used : ∀ {l : Nat} {s : σ} {n : ν}, Slot F l s → F.val s = some n → used n
  one : ∀ {l l' : Nat} {s s' : σ} {n : ν}, Slot F l s → Slot F l' s' → F.val s = some n →
    F.val s' = some n → s = s' ∧ l = l'

/-- A reachable slot has one height. -/
theorem Owned.level (h : Owned F used) (hF : Laid F node) (hu : ∀ n, used n → node n) {l l' : Nat}
    {s : σ} (hs : Slot F l s) (hs' : Slot F l' s) : l = l' := by
  cases hs with
  | root hr =>
    cases hs' with
    | root hr' => exact hF.level hr hr'
    | inside hp hv hi => exact absurd hr (hF.outside (hu _ (h.used hp hv)) hi)
  | inside hp hv hi =>
    cases hs' with
    | root hr' => exact absurd hr' (hF.outside (hu _ (h.used hp hv)) hi)
    | inside hp' hv' hi' =>
      have e := hF.one hi hi'
      subst e
      exact Nat.succ.inj (h.one hp hp' hv hv').2

/-- A node no reachable slot refers to can be taken out of what is in use. -/
theorem Owned.without (h : Owned F used) {n : ν} (hn : ∀ l s, Slot F l s → F.val s ≠ some n) :
    Owned F fun m => used m ∧ m ≠ n :=
  ⟨fun hs hv => ⟨h.used hs hv, fun e => hn _ _ hs (e ▸ hv)⟩, h.one⟩

/-! ## 1. Changes elsewhere -/

/-- A change that leaves the reachable slots reaches no more of them. -/
theorem Slot.of_congr (hroot : ∀ l s, F'.root l s → F.root l s)
    (hin : ∀ n s, F'.inside n s → F.inside n s)
    (hval : ∀ l s, Slot F l s → F'.val s = F.val s) {l : Nat} {s : σ} (h : Slot F' l s) :
    Slot F l s := by
  induction h with
  | root hr => exact .root (hroot _ _ hr)
  | inside _ hv hi ih => exact .inside ih ((hval _ _ ih).symm.trans hv) (hin _ _ hi)

/-- A change that keeps the roots and what slots refer to keeps what is reachable. -/
theorem Slot.mono (hroot : ∀ l s, F.root l s → F'.root l s)
    (hin : ∀ n s, F.inside n s → F'.inside n s)
    (hval : ∀ l s n, Slot F l s → F.val s = some n → F'.val s = some n) {l : Nat} {s : σ}
    (h : Slot F l s) : Slot F' l s := by
  induction h with
  | root hr => exact .root (hroot _ _ hr)
  | inside hp hv hi ih => exact .inside ih (hval _ _ _ hp hv) (hin _ _ hi)

/-- While no root above height 0 refers to anything, the roots are all that is reachable. -/
theorem Slot.root_of_flat (hflat : ∀ l s n, F.root (l + 1) s → F.val s ≠ some n) {l : Nat} {s : σ}
    (h : Slot F l s) : F.root l s := by
  induction h with
  | root hr => exact hr
  | inside _ hv _ ih => exact absurd hv (hflat _ _ _ ih)

theorem Owned.congr (h : Owned F used) (hroot : ∀ l s, F'.root l s → F.root l s)
    (hin : ∀ n s, F'.inside n s → F.inside n s)
    (hval : ∀ l s, Slot F l s → F'.val s = F.val s) (hused : ∀ n, used n → used' n) :
    Owned F' used' where
  used hs hv := by
    have hs' := hs.of_congr hroot hin hval
    exact hused _ (h.used hs' ((hval _ _ hs').symm.trans hv))
  one hs hs' hv hv' := by
    have hs₁ := hs.of_congr hroot hin hval
    have hs₂ := hs'.of_congr hroot hin hval
    exact h.one hs₁ hs₂ ((hval _ _ hs₁).symm.trans hv) ((hval _ _ hs₂).symm.trans hv')

/-! ## 2. Filling a slot -/

/-- `F'` is `F` with node `n` in the empty slot `s₀` of height `l₀`. -/
structure Filled (F F' : Forest σ ν) (node used : ν → Prop) (l₀ : Nat) (s₀ : σ) (n : ν) : Prop where
  root : ∀ l s, F'.root l s → F.root l s
  inside : ∀ m s, F'.inside m s → F.inside m s
  slot : Slot F l₀ s₀
  empty : F.val s₀ = none
  full : F'.val s₀ = some n
  other : ∀ l s, Slot F l s → s ≠ s₀ → F'.val s = F.val s
  node : node n
  unused : ¬ used n
  blank : 0 < l₀ → ∀ q, F.inside n q → F'.val q = none

section Fill

variable {l₀ : Nat} {s₀ : σ} {n : ν}

/-- Besides the slots that were reachable, the slots of the new node are. -/
theorem Filled.slot_cases (hf : Filled F F' node used l₀ s₀ n) (h : Owned F used)
    (hF : Laid F node) (hu : ∀ n, used n → node n) {l : Nat} {s : σ} (hs : Slot F' l s) :
    Slot F l s ∨ (F.inside n s ∧ l + 1 = l₀) := by
  induction hs with
  | root hr => exact .inl (.root (hf.root _ _ hr))
  | inside _ hv hi ih =>
    rename_i l p s m _
    rcases ih with hp | ⟨hp, hl⟩
    · by_cases e : p = s₀
      · subst e
        cases hf.full.symm.trans hv
        exact .inr ⟨hf.inside _ _ hi, h.level hF hu hp hf.slot⟩
      · exact .inl (.inside hp ((hf.other _ _ hp e).symm.trans hv) (hf.inside _ _ hi))
    · have hnone := hf.blank (hl ▸ Nat.succ_pos _) p hp
      cases hnone.symm.trans hv

/-- What a reachable slot refers to now: the new node from the filled slot, and what it referred
    to before from every other. -/
theorem Filled.val_cases (hf : Filled F F' node used l₀ s₀ n) (h : Owned F used)
    (hF : Laid F node) (hu : ∀ n, used n → node n) {l : Nat} {s : σ} {m : ν} (hs : Slot F' l s)
    (hv : F'.val s = some m) :
    (s = s₀ ∧ l = l₀ ∧ m = n) ∨ (Slot F l s ∧ F.val s = some m ∧ m ≠ n) := by
  rcases hf.slot_cases h hF hu hs with hs | ⟨hi, hl⟩
  · by_cases e : s = s₀
    · subst e
      cases hf.full.symm.trans hv
      exact .inl ⟨rfl, h.level hF hu hs hf.slot, rfl⟩
    · have hv' := (hf.other _ _ hs e).symm.trans hv
      refine .inr ⟨hs, hv', fun e' => hf.unused ?_⟩
      exact e' ▸ h.used hs hv'
  · cases (hf.blank (hl ▸ Nat.succ_pos _) s hi).symm.trans hv

theorem Owned.fill (h : Owned F used) (hF : Laid F node) (hu : ∀ n, used n → node n)
    (hf : Filled F F' node used l₀ s₀ n) (hn : used' n) (hused : ∀ n, used n → used' n) :
    Owned F' used' where
  used hs hv := by
    rcases hf.val_cases h hF hu hs hv with ⟨-, -, rfl⟩ | ⟨hs', hv', -⟩
    · exact hn
    · exact hused _ (h.used hs' hv')
  one hs hs' hv hv' := by
    rcases hf.val_cases h hF hu hs hv with ⟨rfl, rfl, rfl⟩ | ⟨hs₁, hv₁, hne₁⟩
    · rcases hf.val_cases h hF hu hs' hv' with ⟨rfl, rfl, -⟩ | ⟨-, -, hne⟩
      · exact ⟨rfl, rfl⟩
      · exact absurd rfl hne
    · rcases hf.val_cases h hF hu hs' hv' with ⟨-, -, e⟩ | ⟨hs₂, hv₂, -⟩
      · exact absurd e hne₁
      · exact h.one hs₁ hs₂ hv₁ hv₂

end Fill

/-! ## 3. Cutting a slot off -/

/-- A node below a slot is referred to by that slot, or by a slot inside a node below it. -/
theorem Under.parent {l : Nat} {s : σ} {m : ν} (hs : Slot F l s) (h : Under F l s m) :
    ∃ l' q, Slot F l' q ∧ F.val q = some m ∧ (q = s ∨ ∃ n, F.inside n q ∧ Under F l s n) := by
  induction h with
  | here hv => exact ⟨_, _, hs, hv, .inl rfl⟩
  | deep hv hi _ ih =>
    obtain ⟨l', q', hq', hv', hq | ⟨n', hi', hu'⟩⟩ := ih (.inside hs hv hi)
    · subst hq
      exact ⟨_, _, hq', hv', .inr ⟨_, hi, .here hv⟩⟩
    · exact ⟨_, _, hq', hv', .inr ⟨n', hi', .deep hv hi hu'⟩⟩

/-- What hangs below a reachable slot is in use. -/
theorem Under.inUse (h : Owned F used) {l : Nat} {s : σ} {m : ν} (hs : Slot F l s)
    (hm : Under F l s m) : used m := by
  obtain ⟨l', q, hq, hv, -⟩ := hm.parent hs
  exact h.used hq hv

/-- `F'` is `F` with the slot `s₀` emptied. -/
structure Emptied (F F' : Forest σ ν) (l₀ : Nat) (s₀ : σ) : Prop where
  root : ∀ l s, F'.root l s → F.root l s
  inside : ∀ m s, F'.inside m s → F.inside m s
  slot : Slot F l₀ s₀
  empty : F'.val s₀ = none
  other : ∀ l s, Slot F l s → s ≠ s₀ → F'.val s = F.val s

section Cut

variable {l₀ : Nat} {s₀ : σ}

/-- A slot with a value that is not the emptied one, nor inside a node below it, refers to no node
    below it. -/
theorem Owned.not_under (h : Owned F used) (hs₀ : Slot F l₀ s₀) {l : Nat} {s : σ} {m : ν}
    (hs : Slot F l s) (hne : s ≠ s₀) (hout : ∀ n, F.inside n s → ¬ Under F l₀ s₀ n)
    (hv : F.val s = some m) : ¬ Under F l₀ s₀ m := by
  intro hm
  obtain ⟨l', q, hq, hvq, e⟩ := hm.parent hs₀
  have heq := (h.one hs hq hv hvq).1
  subst heq
  rcases e with e | ⟨n, hi, hn⟩
  · exact hne e
  · exact hout n hi hn

/-- What stays reachable was reachable, and is inside no node below the emptied slot. -/
theorem Emptied.slot_of (he : Emptied F F' l₀ s₀) (h : Owned F used) (hF : Laid F node)
    (hu : ∀ n, used n → node n) {l : Nat} {s : σ} (hs : Slot F' l s) :
    Slot F l s ∧ ∀ n, F.inside n s → ¬ Under F l₀ s₀ n := by
  induction hs with
  | root hr =>
    have hr' := he.root _ _ hr
    refine ⟨.root hr', fun n hi hn => ?_⟩
    exact hF.outside (hu _ (hn.inUse h he.slot)) hi hr'
  | inside _ hv hi ih =>
    rename_i l p s m _
    obtain ⟨hp, hout⟩ := ih
    have hne : p ≠ s₀ := fun e => by
      subst e
      cases he.empty.symm.trans hv
    have hv' := (he.other _ _ hp hne).symm.trans hv
    have hi' := he.inside _ _ hi
    refine ⟨.inside hp hv' hi', fun n hn => ?_⟩
    rw [hF.one hn hi']
    exact h.not_under he.slot hp hne hout hv'

theorem Owned.cut (h : Owned F used) (hF : Laid F node) (hu : ∀ n, used n → node n)
    (he : Emptied F F' l₀ s₀) (hused : ∀ n, used n → ¬ Under F l₀ s₀ n → used' n) :
    Owned F' used' := by
  -- a slot that still refers to something is one of the old ones, unchanged
  have old : ∀ {l s n}, Slot F' l s → F'.val s = some n →
      Slot F l s ∧ F.val s = some n ∧ ¬ Under F l₀ s₀ n := fun {l s n} hs hv => by
    obtain ⟨hs', hout⟩ := he.slot_of h hF hu hs
    have hne : s ≠ s₀ := fun e => by
      subst e
      cases he.empty.symm.trans hv
    have hv' := (he.other _ _ hs' hne).symm.trans hv
    exact ⟨hs', hv', h.not_under he.slot hs' hne hout hv'⟩
  refine ⟨fun hs hv => ?_, fun hs hs' hv hv' => ?_⟩
  · obtain ⟨hs₁, hv₁, hn⟩ := old hs hv
    exact hused _ (h.used hs₁ hv₁) hn
  · obtain ⟨hs₁, hv₁, -⟩ := old hs hv
    obtain ⟨hs₂, hv₂, -⟩ := old hs' hv'
    exact h.one hs₁ hs₂ hv₁ hv₂

end Cut

end Forest

end Yuios.Lib
