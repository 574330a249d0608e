/-
  File:      Yuios/Lib/Branch.lean
  Subject:   UP AND DOWN A TREE: which walks end below a given node.

  Edges lead from inner nodes down to nodes, and a walk stays, goes down an edge or goes one up. It
  is inside while it is below the node `R`. From there it only gets out by going up from `R`, and from
  outside it only gets in by coming to `R`: `inside` keeps count of the two.

  * `Branching node inner edge` -- inner nodes have one parent, and no node is below its child.
  * **`Branching.inside_iff`** -- one move keeps "inside" right; `inside_below` is the half of it for
    a leaf, which may have several parents.
-/
import Mathlib.Logic.Relation

namespace Yuios.Lib

open Relation

variable {ι : Type} {node inner : ι → Prop} {edge : ι → ι → Prop} {R a b c : ι}

/-- **Edges that branch**, among the nodes `node`. -/
structure Branching (node inner : ι → Prop) (edge : ι → ι → Prop) : Prop where
  closed : ∀ {a b}, node a → edge a b → node b
  one : ∀ {a b c}, node a → node b → inner c → edge a c → edge b c → a = b
  acyclic : ∀ {a b}, node a → edge a b → ¬ ReflTransGen edge b a

/-- A move of a walk; `up` says that it asked to go up. -/
inductive Move (edge : ι → ι → Prop) : (up : Bool) → ι → ι → Prop where
  | stay (up : Bool) (a : ι) : Move edge up a a
  | down {a b : ι} (h : edge a b) : Move edge false a b
  | up {a b : ι} (h : edge b a) : Move edge true a b

/-- After a move from `a` to `b` of a walk that was inside or not. -/
def inside [DecidableEq ι] (R : ι) (up : Bool) (a b : ι) (was : Bool) : Bool :=
  if b = R then true else if up && a = R then false else was

namespace Branching

variable (h : Branching node inner edge)
include h

theorem node_below (hR : node R) (hb : ReflTransGen edge R b) : node b := by
  induction hb with
  | refl => exact hR
  | tail _ he ih => exact h.closed ih he

/-- An inner node below `R`, and not `R` itself, has its parent below `R`. -/
theorem parent_below (hR : node R) (ha : node a) (hc : inner c) (he : edge a c) (hne : c ≠ R)
    (hb : ReflTransGen edge R c) : ReflTransGen edge R a := by
  obtain rfl | ⟨p, hp, hpc⟩ := ReflTransGen.cases_tail hb
  · exact absurd rfl hne
  · rwa [h.one ha (h.node_below hR hp) hc he hpc]

variable [DecidableEq ι] {up was : Bool}

/-- What is inside by the count is below `R`. -/
theorem inside_below (hR : node R) (hb : node b) (ha : inner a) (hm : Move edge up a b)
    (hwas : was = true ↔ ReflTransGen edge R a) (hin : inside R up a b was = true) :
    ReflTransGen edge R b := by
  unfold inside at hin
  split at hin
  · rename_i e
    rw [e]
  · cases hm with
    | stay up a =>
      split at hin
      · cases hin
      · exact hwas.mp hin
    | down he => exact (hwas.mp (by simpa using hin)).tail he
    | up he =>
      split at hin
      · cases hin
      · rename_i hne
        exact h.parent_below hR hb ha he (by simpa using hne) (hwas.mp hin)

/-- **One move**: the walk is below `R` exactly when the count says so. -/
theorem inside_iff (hR : node R) (ha : node a) (hb : node b) (hia : inner a)
    (hone : ∀ {p q}, node p → node q → edge p b → edge q b → p = q) (hm : Move edge up a b)
    (hwas : was = true ↔ ReflTransGen edge R a) :
    inside R up a b was = true ↔ ReflTransGen edge R b := by
  refine ⟨h.inside_below hR hb hia hm hwas, fun hbelow => ?_⟩
  unfold inside
  split
  · rfl
  · rename_i hbR
    cases hm with
    | stay up a =>
      rw [if_neg (by simp [hbR])]
      exact hwas.mpr hbelow
    | down he =>
      obtain e | ⟨p, hp, hpb⟩ := ReflTransGen.cases_tail hbelow
      · exact absurd e hbR
      · have e := hone ha (h.node_below hR hp) he hpb
        simpa using hwas.mpr (e ▸ hp)
    | up he =>
      rw [if_neg, hwas]
      · exact hbelow.tail he
      · intro e
        have e : a = R := by simpa using e
        subst e
        exact h.acyclic hb he hbelow

end Branching

end Yuios.Lib
