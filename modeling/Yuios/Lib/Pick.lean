/-
  File:      Yuios/Lib/Pick.lean
  Subject:   A SEARCH THAT KEEPS THE BEST SO FAR, under a comparison that need not be an ordering.

  * `pickFrom` -- the loop: what is better takes the place of what was kept.
  * `Lasts` -- nothing in the list is better.
  * **`pickFrom_eq`** -- where what is not better may be passed over, the loop ends with the first
    element that lasts over those behind it.
-/
import Mathlib.Data.List.Basic

namespace Yuios.Lib

variable {α : Type} (better : α → α → Bool)

def pickFrom : α → List α → α
  | a, [] => a
  | a, b :: l => pickFrom (if better a b then b else a) l

def Lasts (a : α) (l : List α) : Prop := ∀ b ∈ l, better a b = false

instance (a : α) (l : List α) : Decidable (Lasts better a l) := inferInstanceAs (Decidable (∀ b ∈ l, _))

/-- The first element that lasts over those behind it, or `d`. -/
def firstLasting (d : α) : List α → α
  | [] => d
  | a :: l => if Lasts better a l then a else firstLasting d l

variable {better} {a b d : α} {l : List α}

theorem lasts_cons : Lasts better a (b :: l) ↔ better a b = false ∧ Lasts better a l := List.forall_mem_cons

/-- **The loop ends with the first that lasts.** -/
theorem pickFrom_eq (hpass : ∀ {a b c}, better a b = false → better a c = true → better b c = true) :
    pickFrom better a l = firstLasting better d (a :: l) := by
  induction l generalizing a with
  | nil => exact (if_pos nofun).symm
  | cons b l ih =>
    rw [pickFrom, firstLasting]
    cases hb : better a b with
    | true =>
      have hnot : ¬ Lasts better a (b :: l) := fun h => by
        rw [(lasts_cons.mp h).1] at hb
        cases hb
      rw [if_neg hnot]
      exact ih
    | false =>
      have hkeep := ih (a := a)
      rw [firstLasting] at hkeep
      show pickFrom better a l = _
      rw [hkeep]
      by_cases ha : Lasts better a l
      · rw [if_pos ha, if_pos (lasts_cons.mpr ⟨hb, ha⟩)]
      · -- whatever is better than `a` is better than `b`
        have hnot : ¬ Lasts better b l := fun h => ha fun c hc => by
          by_contra hac
          rw [Bool.not_eq_false] at hac
          exact Bool.noConfusion ((h c hc).symm.trans (hpass hb hac))
        rw [if_neg ha, if_neg fun h => ha (lasts_cons.mp h).2, firstLasting, if_neg hnot]

/-- What the first that lasts is. -/
theorem firstLasting_spec (h : l ≠ []) : ∃ l₁ l₂, l = l₁ ++ firstLasting better d l :: l₂ ∧
    Lasts better (firstLasting better d l) l₂ ∧
    ∀ l' b l'', l₁ = l' ++ b :: l'' → ¬ Lasts better b (l'' ++ firstLasting better d l :: l₂) := by
  induction l with
  | nil => exact absurd rfl h
  | cons a l ih =>
    rw [firstLasting]
    by_cases ha : Lasts better a l
    · rw [if_pos ha]
      exact ⟨[], l, rfl, ha, fun l' b l'' e => by simp at e⟩
    · rw [if_neg ha]
      have hne : l ≠ [] := fun e => ha (e ▸ nofun)
      obtain ⟨l₁, l₂, hl, hlast, hfirst⟩ := ih hne
      refine ⟨a :: l₁, l₂, congrArg (a :: ·) hl, hlast, fun l' b l'' e => ?_⟩
      cases l' with
      | nil =>
        obtain ⟨rfl, rfl⟩ := List.cons.inj e
        rwa [← hl]
      | cons c l' => exact hfirst l' b l'' (List.cons.inj e).2

end Yuios.Lib
