/-
  File:      Yuios/Lib/Total.lean
  Subject:   PROGRAMS THAT COME TO THEIR END: total correctness of a program run alone.

  `Comes p s Q` -- run alone from `s`, the program returns, and `Q` holds of what it returns and of the
  state then. `Triple` of `Prog.lean` is about the runs that end; here the end is part of what is said. A proof
  goes through a program with one rule per constructor, as there; `comes_range` is the rule of a counting
  loop, whose invariant speaks of the rounds so far, `comes_list` the one of a loop over a list, whose
  invariant speaks of the rest.
-/
import Yuios.Lib.Prog

namespace Yuios.Lib

namespace Prog

variable {ε σ ℓ α β : Type} {s : σ} {Q : α → σ → Prop}

/-- **The program comes to its end**, and `Q` holds there. -/
def Comes (p : Prog ε σ ℓ α) (s : σ) (Q : α → σ → Prop) : Prop := ∃ a t, Ends p s a t ∧ Q a t

theorem Comes.mono {p : Prog ε σ ℓ α} {Q' : α → σ → Prop} (h : Comes p s Q) (hQ : ∀ a t, Q a t → Q' a t) :
    Comes p s Q' := by
  obtain ⟨a, t, ht, hq⟩ := h
  exact ⟨a, t, ht, hQ a t hq⟩

/-- **The sequence rule.** -/
theorem comes_bind {p : Prog ε σ ℓ β} {f : β → Prog ε σ ℓ α} {R : β → σ → Prop} (hp : Comes p s R)
    (hf : ∀ b t, R b t → Comes (f b) t Q) : Comes (p >>= f) s Q := by
  obtain ⟨b, t, ht, hr⟩ := hp
  obtain ⟨a, u, hu, hq⟩ := hf b t hr
  exact ⟨a, u, runs_bind.mpr ⟨b, t, ht, hu⟩, hq⟩

theorem comes_of_run {p : Prog ε σ ℓ α} {a : α} {t : σ} (h : run p s = .ok (a, t)) (hq : Q a t) :
    Comes p s Q := ⟨a, t, ends_iff.mpr h, hq⟩

theorem comes_pure {a : α} (h : Q a s) : Comes (pure a : Prog ε σ ℓ α) s Q := ⟨a, s, ⟨rfl, rfl⟩, h⟩

theorem comes_reads {f : σ → α} (h : Q (f s) s) : Comes (reads f : Prog ε σ ℓ α) s Q :=
  ⟨f s, s, ⟨rfl, rfl⟩, h⟩

theorem comes_modify {f : σ → σ} {Q : Unit → σ → Prop} (h : Q () (f s)) :
    Comes (modify f : Prog ε σ ℓ Unit) s Q := ⟨(), f s, runs_modify.mpr rfl, h⟩

theorem comes_check {c : Bool} {e : ε} {Q : Unit → σ → Prop} (hc : c = true) (h : Q () s) :
    Comes (check c e : Prog ε σ ℓ Unit) s Q := ⟨(), s, runs_check.mpr ⟨hc, rfl⟩, h⟩

theorem comes_need {e : ε} {o : Option α} {a : α} (ho : o = some a) (h : Q a s) :
    Comes (need e o : Prog ε σ ℓ α) s Q := ⟨a, s, runs_need.mpr ⟨ho, rfl⟩, h⟩

theorem comes_mapLabel {f : ℓ → ℓ} {p : Prog ε σ ℓ α} (h : Comes p s Q) : Comes (mapLabel f p) s Q := by
  obtain ⟨a, t, ht, hq⟩ := h
  exact ⟨a, t, ends_mapLabel.mpr ht, hq⟩

theorem comes_pos {c : Prop} [Decidable c] {p q : Prog ε σ ℓ α} (hc : c) (h : Comes p s Q) :
    Comes (if c then p else q) s Q := by
  rw [if_pos hc]
  exact h

theorem comes_neg {c : Prop} [Decidable c] {p q : Prog ε σ ℓ α} (hc : ¬ c) (h : Comes q s Q) :
    Comes (if c then p else q) s Q := by
  rw [if_neg hc]
  exact h

/-- **A loop over a list**: what holds when the loop comes to the rest of it. -/
theorem comes_list {γ : Type} {f : γ → Prog ε σ ℓ PUnit} {I : List γ → σ → Prop} {l : List γ} (h : I l s)
    (hstep : ∀ a l s, I (a :: l) s → Comes (f a) s fun _ t => I l t) : Comes (l.forM f) s fun _ t => I [] t := by
  induction l generalizing s with
  | nil => exact comes_pure h
  | cons a l ih =>
    show Comes (f a >>= fun _ => l.forM f) s _
    exact comes_bind (hstep a l s h) fun _ t ht => ih ht

/-- **A counting loop**: what holds when so many rounds are done. -/
theorem comes_range {f : Nat → Prog ε σ ℓ PUnit} {I : Nat → σ → Prop} {n : Nat} (h : I 0 s)
    (hstep : ∀ j < n, ∀ s, I j s → Comes (f j) s fun _ t => I (j + 1) t) :
    Comes ((List.range n).forM f) s fun _ t => I n t := by
  have hrest : ∀ m k s, m + k = n → I m s → Comes ((List.range' m k).forM f) s fun _ t => I n t := by
    intro m k
    induction k generalizing m with
    | zero =>
      intro s hn hm
      rw [← hn]
      exact comes_pure hm
    | succ k ih =>
      intro s hn hm
      rw [List.range'_succ]
      show Comes (f m >>= fun _ => (List.range' (m + 1) k).forM f) s _
      exact comes_bind (hstep m (by omega) s hm) fun _ t ht => ih (m + 1) t (by omega) ht
  rw [List.range_eq_range']
  exact hrest 0 n s (by omega) h

/-- The part of the state that a program is on. -/
theorem comes_zoom {τ : Type} {look : τ → σ} {fit : σ → τ → τ} (hf : Fits look fit) {p : Prog ε σ ℓ α} {t : τ}
    {Q : α → τ → Prop} (h : Comes p (look t) fun a s => Q a (fit s t)) : Comes (zoom look fit p) t Q := by
  obtain ⟨a, s', hs, hq⟩ := h
  exact ⟨a, fit s' t, (runs_zoom hf).mpr ⟨s', hs, rfl⟩, hq⟩

end Prog

end Yuios.Lib
