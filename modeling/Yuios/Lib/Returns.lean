/-
  File:      Yuios/Lib/Returns.lean
  Subject:   PROGRAMS THAT MAY STOP, read as conditions: `Returns x Q` says that `x` comes to its end,
             with a result that meets `Q`.

  Each rule is an equivalence, so that a program turns into the exact condition under which it
  returns.
-/
import Mathlib.Init
import Mathlib.Tactic.TypeStar

namespace Yuios.Lib

variable {ε α β : Type} {x : Except ε α} {Q R : α → Prop}

/-- **The program returns, and the result is as said.** -/
def Returns (x : Except ε α) (Q : α → Prop) : Prop := ∃ r, x = .ok r ∧ Q r

@[simp] theorem returns_ok {r : α} : Returns (.ok r : Except ε α) Q ↔ Q r := by
  constructor
  · rintro ⟨_, h, hq⟩
    cases h
    exact hq
  · exact fun h => ⟨r, rfl, h⟩

@[simp] theorem returns_pure {r : α} : Returns (pure r : Except ε α) Q ↔ Q r := returns_ok

@[simp] theorem returns_error {e : ε} : Returns (.error e) Q ↔ False := by
  constructor
  · rintro ⟨_, h, -⟩
    cases h
  · exact False.elim

/-- The first part, and then the rest. -/
theorem returns_bind {f : α → Except ε β} {Q : β → Prop} :
    Returns (x >>= f) Q ↔ Returns x fun a => Returns (f a) Q := by
  cases x with
  | error e => exact iff_of_false (fun ⟨_, h, _⟩ => nomatch h) (fun ⟨_, h, _⟩ => nomatch h)
  | ok a => exact (returns_ok (Q := fun a => Returns (f a) Q)).symm

theorem Returns.mono (h : Returns x Q) (hQ : ∀ r, x = .ok r → Q r → R r) : Returns x R := by
  obtain ⟨r, hr, hq⟩ := h
  exact ⟨r, hr, hQ r hr hq⟩

/-- What is known of every result may be used. -/
theorem returns_congr (hQ : ∀ r, x = .ok r → (Q r ↔ R r)) : Returns x Q ↔ Returns x R :=
  ⟨fun h => h.mono fun r hr => (hQ r hr).mp, fun h => h.mono fun r hr => (hQ r hr).mpr⟩

/-- A condition that does not speak of the result. -/
theorem returns_and {P : Prop} : (Returns x fun r => P ∧ Q r) ↔ P ∧ Returns x Q := by
  constructor
  · rintro ⟨r, hr, hp, hq⟩
    exact ⟨hp, r, hr, hq⟩
  · rintro ⟨hp, r, hr, hq⟩
    exact ⟨r, hr, hp, hq⟩

end Yuios.Lib
