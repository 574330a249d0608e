/-
  File:      Yuios/Lib/Logged.lean
  Subject:   PROGRAMS THAT KEEP A LOG: a program that notes events beside what it does.

  A statement about the calls a program makes, and about their order, is one about its log. The
  log is no part of the program: `erase` takes it away, and what is left has the same runs
  (`runs_erase`). `Logs C p s a l t` is `Runs` with the log `l` of the run.
-/
import Mathlib.Control.Monad.Writer
import Yuios.Lib.Prog

namespace Yuios.Lib

/-- A program that notes events of type `η`. -/
abbrev Logged (ε σ ℓ η α : Type) : Type := WriterT (List η) (Prog ε σ ℓ) α

namespace Logged

open Prog

variable {ε σ ℓ η α β : Type}

/-- Note an event. -/
def note (e : η) : Logged ε σ ℓ η Unit := WriterT.mk (pure ((), [e]))

/-- The program without its log. -/
def erase (p : Logged ε σ ℓ η α) : Prog ε σ ℓ α := p.run >>= fun r => pure r.1

/-- Run alone from `s`, `p` returns `a` in `t` and has noted `l`. -/
def Logs (C : ℓ → σ → Prop) (p : Logged ε σ ℓ η α) (s : σ) (a : α) (l : List η) (t : σ) : Prop :=
  Runs C p.run s (a, l) t

/-- Run alone, whatever holds where it blocks. -/
abbrev Yields (p : Logged ε σ ℓ η α) (s : σ) (a : α) (l : List η) (t : σ) : Prop :=
  Logs (fun _ _ => True) p s a l t

section Rules

variable {C : ℓ → σ → Prop} {s t : σ} {l : List η}

@[simp] theorem logs_pure {a b : α} :
    Logs C (pure a : Logged ε σ ℓ η α) s b l t ↔ a = b ∧ l = [] ∧ s = t := by
  show (a, ∅) = (b, l) ∧ s = t ↔ _
  rw [Prod.mk.injEq, and_assoc]
  exact and_congr_right fun _ => and_congr_left fun _ => eq_comm

@[simp] theorem logs_note {e : η} {a : Unit} :
    Logs C (note e : Logged ε σ ℓ η Unit) s a l t ↔ l = [e] ∧ s = t := by
  show ((), [e]) = (a, l) ∧ s = t ↔ _
  rw [Prod.mk.injEq]
  exact and_congr_left fun _ => ⟨fun h => h.2.symm, fun h => ⟨rfl, h.symm⟩⟩

/-- A call that notes nothing. -/
@[simp] theorem logs_lift {p : Prog ε σ ℓ α} {a : α} :
    Logs C (liftM p : Logged ε σ ℓ η α) s a l t ↔ l = [] ∧ Runs C p s a t := by
  show Runs C (p >>= fun a => pure (a, [])) s (a, l) t ↔ _
  rw [runs_bind]
  constructor
  · rintro ⟨b, s', h, e, rfl⟩
    cases e
    exact ⟨rfl, h⟩
  · rintro ⟨rfl, h⟩
    exact ⟨a, t, h, rfl, rfl⟩

/-- **The sequence rule**: the logs come one behind the other. -/
theorem logs_bind {p : Logged ε σ ℓ η α} {f : α → Logged ε σ ℓ η β} {b : β} :
    Logs C (p >>= f) s b l t ↔ ∃ a l₁ s' l₂, Logs C p s a l₁ s' ∧ Logs C (f a) s' b l₂ t ∧
      l = l₁ ++ l₂ := by
  show Runs C (p.run >>= fun r => (f r.1).run >>= fun r' => pure (r'.1, r.2 ++ r'.2)) s (b, l) t ↔ _
  rw [runs_bind]
  constructor
  · rintro ⟨⟨a, l₁⟩, s', h, h'⟩
    obtain ⟨⟨b', l₂⟩, t', hf, e, rfl⟩ := runs_bind.mp h'
    cases e
    exact ⟨a, l₁, s', l₂, h, hf, rfl⟩
  · rintro ⟨a, l₁, s', l₂, h, h', rfl⟩
    exact ⟨(a, l₁), s', h, runs_bind.mpr ⟨(b, l₂), t, h', rfl, rfl⟩⟩

theorem logs_ite {c : Prop} [Decidable c] {p q : Logged ε σ ℓ η α} {a : α} :
    Logs C (if c then p else q) s a l t ↔ (c ∧ Logs C p s a l t) ∨ (¬ c ∧ Logs C q s a l t) := by
  by_cases h : c <;> simp [h]

/-- A loop over two lists, one behind the other. -/
theorem logs_forM_append {γ : Type} {f : γ → Logged ε σ ℓ η PUnit} {l₁ l₂ : List γ} {a : PUnit} :
    Logs C ((l₁ ++ l₂).forM f) s a l t ↔ ∃ m₁ s' m₂, Logs C (l₁.forM f) s ⟨⟩ m₁ s' ∧
      Logs C (l₂.forM f) s' a m₂ t ∧ l = m₁ ++ m₂ := by
  induction l₁ generalizing s l with
  | nil =>
    constructor
    · intro h
      exact ⟨[], s, l, ⟨rfl, rfl⟩, h, rfl⟩
    · rintro ⟨_, _, _, ⟨e, rfl⟩, h, rfl⟩
      cases e
      exact h
  | cons x l₁ ih =>
    show Logs C (f x >>= fun _ => (l₁ ++ l₂).forM f) s a l t ↔
      ∃ m₁ s' m₂, Logs C (f x >>= fun _ => l₁.forM f) s ⟨⟩ m₁ s' ∧ _ ∧ _
    constructor
    · intro h
      obtain ⟨_, m, s₁, n, hx, hl, rfl⟩ := logs_bind.mp h
      obtain ⟨m₁, s₂, m₂, h₁, h₂, rfl⟩ := ih.mp hl
      exact ⟨m ++ m₁, s₂, m₂, logs_bind.mpr ⟨_, m, s₁, m₁, hx, h₁, rfl⟩, h₂,
        (List.append_assoc ..).symm⟩
    · rintro ⟨m₁, s₂, m₂, h₁, h₂, rfl⟩
      obtain ⟨_, m, s₁, n, hx, hl, rfl⟩ := logs_bind.mp h₁
      exact logs_bind.mpr ⟨_, m, s₁, n ++ m₂, hx, ih.mpr ⟨n, s₂, m₂, hl, h₂, rfl⟩,
        List.append_assoc ..⟩

/-- A loop of one round. -/
theorem logs_forM_one {γ : Type} {f : γ → Logged ε σ ℓ η PUnit} {x : γ} {a : PUnit} :
    Logs C ([x].forM f) s a l t ↔ Logs C (f x) s a l t := by
  show Logs C (f x >>= fun _ => pure ⟨⟩) s a l t ↔ _
  constructor
  · intro h
    obtain ⟨_, m, s', n, hx, hr, rfl⟩ := logs_bind.mp h
    obtain ⟨-, rfl, rfl⟩ := logs_pure.mp hr
    rwa [List.append_nil]
  · intro h
    exact logs_bind.mpr ⟨a, l, t, [], h, logs_pure.mpr ⟨rfl, rfl, rfl⟩, (List.append_nil l).symm⟩

end Rules

/-! ## 1. Taking the log away -/

theorem erase_note (e : η) : erase (note e : Logged ε σ ℓ η Unit) = pure () := rfl

theorem erase_lift (p : Prog ε σ ℓ α) : erase (liftM p : Logged ε σ ℓ η α) = p := by
  show (p >>= fun a => pure (a, [])) >>= (fun r : α × List η => pure r.1) = p
  rw [bind_assoc]
  exact bind_pure p

theorem erase_bind (p : Logged ε σ ℓ η α) (f : α → Logged ε σ ℓ η β) :
    erase (p >>= f) = erase p >>= fun a => erase (f a) := by
  show (p.run >>= fun r => (f r.1).run >>= fun r' => pure (r'.1, r.2 ++ r'.2)) >>=
    (fun r : β × List η => pure r.1) = (p.run >>= fun r => pure r.1) >>= fun a => erase (f a)
  simp only [bind_assoc, pure_bind]
  rfl

theorem erase_ite {c : Prop} [Decidable c] (p q : Logged ε σ ℓ η α) :
    erase (if c then p else q) = if c then erase p else erase q := by
  by_cases h : c <;> simp [h]

theorem erase_forM {γ : Type} (f : γ → Logged ε σ ℓ η PUnit) (l : List γ) :
    erase (l.forM f) = l.forM fun a => erase (f a) := by
  induction l with
  | nil => rfl
  | cons a l ih =>
    show erase (f a >>= fun _ => l.forM f) = erase (f a) >>= fun _ => l.forM fun a => erase (f a)
    rw [erase_bind, ih]

/-- **The program without its log has the same runs.** -/
theorem runs_erase {C : ℓ → σ → Prop} {p : Logged ε σ ℓ η α} {s t : σ} {a : α} :
    Runs C (erase p) s a t ↔ ∃ l, Logs C p s a l t := by
  show Runs C (p.run >>= fun r => pure r.1) s a t ↔ _
  rw [runs_bind]
  constructor
  · rintro ⟨⟨_, l⟩, _, h, rfl, rfl⟩
    exact ⟨l, h⟩
  · rintro ⟨l, h⟩
    exact ⟨(a, l), t, h, rfl, rfl⟩

end Logged

end Yuios.Lib
