/-
  File:      Yuios/Lib/Places.lean
  Subject:   LISTS PUT TOGETHER FROM PLACES: what a `flatMap` over places without repetition
             holds, up to order, with one place singled out.

  A table is a function on places, the references that start in it a `flatMap` over the places.
  When one place changes, only what starts there changes (`flatMap_pick`); when a place comes or
  goes, only its part does (`filter_come`, `filter_go`).
-/
import Mathlib.Data.List.Basic
import Mathlib.Logic.Function.Basic

namespace Yuios.Lib

variable {α β : Type} [DecidableEq α]

/-- **One place singled out**: the rest is the same for all that differ at this place only. -/
theorem flatMap_pick {l : List α} (hl : l.Nodup) {a : α} (ha : a ∈ l) {f g : α → List β}
    (h : ∀ b, b ≠ a → g b = f b) : (l.flatMap g).Perm (g a ++ (l.erase a).flatMap f) := by
  have he : (l.erase a).flatMap g = (l.erase a).flatMap f :=
    List.flatMap_congr fun b hb => h b (hl.mem_erase_iff.mp hb).1
  have hp := (List.perm_cons_erase ha).flatMap_right g
  rw [List.flatMap_cons, he] at hp
  exact hp

/-- A place comes to those that are chosen. -/
theorem filter_come {l : List α} (hl : l.Nodup) {a : α} (ha : a ∈ l) {p q : α → Bool}
    (h : ∀ b, b ≠ a → q b = p b) (hp : p a = false) (hq : q a = true) :
    (l.filter q).Perm (a :: l.filter p) := by
  refine (List.perm_ext_iff_of_nodup (hl.filter _) (List.nodup_cons.mpr ⟨?_, hl.filter _⟩)).mpr ?_
  · simp [hp]
  · intro b
    by_cases e : b = a
    · simp [e, ha, hq]
    · simp [e, h b e]

/-- A place goes from those that are chosen. -/
theorem filter_go {l : List α} (hl : l.Nodup) {a : α} {p q : α → Bool}
    (h : ∀ b, b ≠ a → q b = p b) (hq : q a = false) :
    (l.filter q).Perm ((l.filter p).erase a) := by
  refine (List.perm_ext_iff_of_nodup (hl.filter _) ((hl.filter _).erase _)).mpr fun b => ?_
  rw [List.Nodup.mem_erase_iff (hl.filter p)]
  by_cases e : b = a
  · simp [e, hq]
  · simp [e, h b e]

end Yuios.Lib
