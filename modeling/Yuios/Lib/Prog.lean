/-
  File:      Yuios/Lib/Prog.lean
  Subject:   PROGRAMS WITH BLOCKING POINTS: a monad of programs that read and write one shared
             state, may stop for good, and may fall asleep at labelled points.

  A program is a tree (`Prog`): it returns, stops the machine (a failed assertion), reads the
  state, writes it, or blocks at a label `l` before it goes on. One tree has two meanings:

  * run alone, blocking does nothing: `run p s` is the result, `.error` when the program stops;
  * run among others, a program is executed from one blocking point to the next
    (`Yuios/Lib/Interleave.lean`).

  Reasoning goes through one judgement, `Runs C p s a t`: run alone from `s` the program returns
  `a` in `t`, and at every blocking point it passes the label and the state there satisfy `C`.
  `runs_bind` takes a sequence apart, the other rules are one per constructor; a proof about a
  composite program never unfolds `Prog`.
-/
import Mathlib.Tactic.Common

namespace Yuios.Lib

/-- A program over states `σ` that returns an `α`, stops with an `ε`, blocks at labels `ℓ`. -/
inductive Prog (ε σ ℓ α : Type) : Type where
  | ret (a : α) : Prog ε σ ℓ α
  | stop (e : ε) : Prog ε σ ℓ α
  | get (k : σ → Prog ε σ ℓ α) : Prog ε σ ℓ α
  | put (s : σ) (p : Prog ε σ ℓ α) : Prog ε σ ℓ α
  | block (l : ℓ) (p : Prog ε σ ℓ α) : Prog ε σ ℓ α

namespace Prog

variable {ε σ ℓ α β : Type}

/-- Sequencing: `f` goes on where `p` returns. -/
protected def bind : Prog ε σ ℓ α → (α → Prog ε σ ℓ β) → Prog ε σ ℓ β
  | ret a, f => f a
  | stop e, _ => stop e
  | get k, f => get fun s => (k s).bind f
  | put s p, f => put s (p.bind f)
  | block l p, f => block l (p.bind f)

instance : Monad (Prog ε σ ℓ) where
  pure := ret
  bind := Prog.bind

theorem bind_ret (p : Prog ε σ ℓ α) : p.bind ret = p := by
  induction p with
  | ret a => rfl
  | stop e => rfl
  | get k ih => exact congrArg get (funext ih)
  | put s p ih => exact congrArg (put s) ih
  | block l p ih => exact congrArg (block l) ih

theorem bind_bind {γ : Type} (p : Prog ε σ ℓ α) (f : α → Prog ε σ ℓ β) (g : β → Prog ε σ ℓ γ) :
    (p.bind f).bind g = p.bind fun a => (f a).bind g := by
  induction p with
  | ret a => rfl
  | stop e => rfl
  | get k ih => exact congrArg get (funext ih)
  | put s p ih => exact congrArg (put s) ih
  | block l p ih => exact congrArg (block l) ih

instance : LawfulMonad (Prog ε σ ℓ) :=
  LawfulMonad.mk' _ (fun p => bind_ret p) (fun _ _ => rfl) bind_bind

/-! ## 1. The steps a program is written with -/

/-- The state. -/
def read : Prog ε σ ℓ σ := get fun s => ret s

/-- A value computed from the state. -/
def reads (f : σ → α) : Prog ε σ ℓ α := get fun s => ret (f s)

/-- Change the state by `f`. -/
def modify (f : σ → σ) : Prog ε σ ℓ Unit := get fun s => put (f s) (ret ())

/-- Stop with `e` unless `c` holds. -/
def check (c : Bool) (e : ε) : Prog ε σ ℓ Unit := if c then ret () else stop e

/-- The value, or stop with `e` where there is none. -/
def need (e : ε) : Option α → Prog ε σ ℓ α
  | some a => ret a
  | none => stop e

/-- Fall asleep at `l`. -/
def sleep (l : ℓ) : Prog ε σ ℓ Unit := block l (ret ())

/-- `p` with every label of its blocking points sent through `f`. -/
def mapLabel (f : ℓ → ℓ) : Prog ε σ ℓ α → Prog ε σ ℓ α
  | ret a => ret a
  | stop e => stop e
  | get k => get fun s => (k s).mapLabel f
  | put s p => put s (p.mapLabel f)
  | block l p => block (f l) (p.mapLabel f)

/-! ## 2. Running a program alone -/

/-- The result of `p` from `s`, run alone. -/
def run : Prog ε σ ℓ α → σ → Except ε (α × σ)
  | ret a, s => .ok (a, s)
  | stop e, _ => .error e
  | get k, s => (k s).run s
  | put s p, _ => p.run s
  | block _ p, s => p.run s

/-- Run alone from `s`, `p` returns `a` in `t`, and `C` holds at every blocking point passed. -/
def Runs (C : ℓ → σ → Prop) : Prog ε σ ℓ α → σ → α → σ → Prop
  | ret a, s, b, t => a = b ∧ s = t
  | stop _, _, _, _ => False
  | get k, s, b, t => Runs C (k s) s b t
  | put s p, _, b, t => Runs C p s b t
  | block l p, s, b, t => C l s ∧ Runs C p s b t

/-- `C` holds at every blocking point `p` passes when run alone from `s`. -/
def Along (C : ℓ → σ → Prop) : Prog ε σ ℓ α → σ → Prop
  | ret _, _ => True
  | stop _, _ => True
  | get k, s => Along C (k s) s
  | put s p, _ => Along C p s
  | block l p, s => C l s ∧ Along C p s

/-- The blocking points of a run can be checked when the condition can. -/
def alongDecidable {C : ℓ → σ → Prop} [∀ l s, Decidable (C l s)] :
    (p : Prog ε σ ℓ α) → (s : σ) → Decidable (Along C p s)
  | ret _, _ => .isTrue trivial
  | stop _, _ => .isTrue trivial
  | get k, s => alongDecidable (k s) s
  | put s p, _ => alongDecidable p s
  | block l p, s =>
    have : Decidable (Along C p s) := alongDecidable p s
    inferInstanceAs (Decidable (C l s ∧ Along C p s))

instance {C : ℓ → σ → Prop} [∀ l s, Decidable (C l s)] (p : Prog ε σ ℓ α) (s : σ) :
    Decidable (Along C p s) := alongDecidable p s

/-- `Runs` is the result of `run` together with the condition along the way. -/
theorem runs_iff {C : ℓ → σ → Prop} {p : Prog ε σ ℓ α} {s : σ} {a : α} {t : σ} :
    Runs C p s a t ↔ run p s = .ok (a, t) ∧ Along C p s := by
  induction p generalizing s with
  | ret b => exact ⟨fun h => ⟨h.1 ▸ h.2 ▸ rfl, trivial⟩, fun h => Prod.mk.inj (Except.ok.inj h.1)⟩
  | stop e => exact ⟨False.elim, fun h => nomatch h.1⟩
  | get k ih => exact ih s
  | put s' p ih => exact ih
  | block l p ih => exact (and_congr_right fun _ => ih).trans and_left_comm

theorem runs_mono {C C' : ℓ → σ → Prop} (hC : ∀ l s, C l s → C' l s) {p : Prog ε σ ℓ α}
    {s : σ} {a : α} {t : σ} (h : Runs C p s a t) : Runs C' p s a t := by
  induction p generalizing s with
  | ret b => exact h
  | stop e => exact h
  | get k ih => exact ih s h
  | put s' p ih => exact ih h
  | block l p ih => exact ⟨hC _ _ h.1, ih h.2⟩

section Rules

variable {C : ℓ → σ → Prop} {s t : σ}

/-- **The sequence rule.** -/
theorem runs_bind {p : Prog ε σ ℓ α} {f : α → Prog ε σ ℓ β} {b : β} :
    Runs C (p >>= f) s b t ↔ ∃ a s', Runs C p s a s' ∧ Runs C (f a) s' b t := by
  show Runs C (p.bind f) s b t ↔ _
  induction p generalizing s with
  | ret a =>
    constructor
    · exact fun h => ⟨a, s, ⟨rfl, rfl⟩, h⟩
    · rintro ⟨_, _, ⟨rfl, rfl⟩, h⟩
      exact h
  | stop e => exact ⟨False.elim, fun ⟨_, _, h, _⟩ => h⟩
  | get k ih => exact ih s
  | put s' p ih => exact ih
  | block l p ih =>
    constructor
    · rintro ⟨hc, h⟩
      obtain ⟨a, s', h1, h2⟩ := ih.mp h
      exact ⟨a, s', ⟨hc, h1⟩, h2⟩
    · rintro ⟨a, s', ⟨hc, h1⟩, h2⟩
      exact ⟨hc, ih.mpr ⟨a, s', h1, h2⟩⟩

@[simp] theorem runs_pure {a b : α} :
    Runs C (pure a : Prog ε σ ℓ α) s b t ↔ a = b ∧ s = t := Iff.rfl

@[simp] theorem runs_stop {e : ε} {a : α} : Runs C (stop e : Prog ε σ ℓ α) s a t ↔ False := Iff.rfl

@[simp] theorem runs_read {a : σ} :
    Runs C (read : Prog ε σ ℓ σ) s a t ↔ s = a ∧ s = t := Iff.rfl

@[simp] theorem runs_reads {f : σ → α} {a : α} :
    Runs C (reads f : Prog ε σ ℓ α) s a t ↔ f s = a ∧ s = t := Iff.rfl

@[simp] theorem runs_modify {f : σ → σ} {a : Unit} :
    Runs C (modify f : Prog ε σ ℓ Unit) s a t ↔ f s = t :=
  ⟨fun h => h.2, fun h => ⟨rfl, h⟩⟩

@[simp] theorem runs_check {c : Bool} {e : ε} {a : Unit} :
    Runs C (check c e : Prog ε σ ℓ Unit) s a t ↔ c = true ∧ s = t := by
  cases c with
  | false => exact ⟨False.elim, fun h => nomatch h.1⟩
  | true => exact ⟨fun h => ⟨rfl, h.2⟩, fun h => ⟨rfl, h.2⟩⟩

@[simp] theorem runs_need {e : ε} {o : Option α} {a : α} :
    Runs C (need e o : Prog ε σ ℓ α) s a t ↔ o = some a ∧ s = t := by
  cases o with
  | none => exact ⟨False.elim, fun h => nomatch h.1⟩
  | some b => exact ⟨fun h => ⟨congrArg some h.1, h.2⟩, fun h => ⟨Option.some.inj h.1, h.2⟩⟩

@[simp] theorem runs_sleep {l : ℓ} {a : Unit} :
    Runs C (sleep l : Prog ε σ ℓ Unit) s a t ↔ C l s ∧ s = t :=
  ⟨fun h => ⟨h.1, h.2.2⟩, fun h => ⟨h.1, rfl, h.2⟩⟩

theorem runs_mapLabel {f : ℓ → ℓ} {p : Prog ε σ ℓ α} {a : α} :
    Runs C (mapLabel f p) s a t ↔ Runs (fun l => C (f l)) p s a t := by
  induction p generalizing s with
  | ret b => exact Iff.rfl
  | stop e => exact Iff.rfl
  | get k ih => exact ih s
  | put s' p ih => exact ih
  | block l p ih => exact and_congr_right fun _ => ih

theorem runs_ite {c : Prop} [Decidable c] {p q : Prog ε σ ℓ α} {a : α} :
    Runs C (if c then p else q) s a t ↔ (c ∧ Runs C p s a t) ∨ (¬ c ∧ Runs C q s a t) := by
  by_cases h : c <;> simp [h]

end Rules

/-- Run alone, whatever holds where it blocks. -/
abbrev Ends (p : Prog ε σ ℓ α) (s : σ) (a : α) (t : σ) : Prop := Runs (fun _ _ => True) p s a t

theorem Runs.ends {C : ℓ → σ → Prop} {p : Prog ε σ ℓ α} {s : σ} {a : α} {t : σ}
    (h : Runs C p s a t) : Ends p s a t := runs_mono (fun _ _ _ => trivial) h

theorem ends_mapLabel {f : ℓ → ℓ} {p : Prog ε σ ℓ α} {s : σ} {a : α} {t : σ} :
    Ends (mapLabel f p) s a t ↔ Ends p s a t := runs_mapLabel

theorem ends_iff {p : Prog ε σ ℓ α} {s : σ} {a : α} {t : σ} :
    Ends p s a t ↔ run p s = .ok (a, t) := by
  refine runs_iff.trans (and_iff_left_of_imp fun _ => ?_)
  induction p generalizing s with
  | ret b => trivial
  | stop e => trivial
  | get k ih => exact ih s ‹_›
  | put s' p ih => exact ih ‹_›
  | block l p ih => exact ⟨trivial, ih ‹_›⟩

/-- A program run alone comes to one end. -/
theorem ends_unique {p : Prog ε σ ℓ α} {s : σ} {a b : α} {t u : σ} (h : Ends p s a t)
    (h' : Ends p s b u) : a = b ∧ t = u :=
  Prod.mk.inj (Except.ok.inj ((ends_iff.mp h).symm.trans (ends_iff.mp h')))

/-- A run that ends keeps to any condition that holds all along. -/
theorem runs_of_ends {C : ℓ → σ → Prop} {p : Prog ε σ ℓ α} {s t : σ} {a : α} (h : Ends p s a t)
    (hC : Along C p s) : Runs C p s a t :=
  runs_iff.mpr ⟨ends_iff.mp h, hC⟩

/-- What a run computes holds of its end. -/
theorem ends_of_run {p : Prog ε σ ℓ α} {s : σ} {q : α → σ → Bool}
    (h : (match run p s with | .ok r => q r.1 r.2 | .error _ => false) = true) :
    ∃ a t, Ends p s a t ∧ q a t = true := by
  cases hr : run p s with
  | error e => simp [hr] at h
  | ok r =>
    rw [hr] at h
    exact ⟨r.1, r.2, ends_iff.mpr hr, h⟩

/-! ## 3. Computing a run -/

section Run

variable {s t : σ}

theorem run_bind (p : Prog ε σ ℓ α) (f : α → Prog ε σ ℓ β) :
    run (p >>= f) s = (run p s).bind fun r => run (f r.1) r.2 := by
  show run (p.bind f) s = _
  induction p generalizing s with
  | ret a => rfl
  | stop e => rfl
  | get k ih => exact ih s
  | put s' p ih => exact ih
  | block l p ih => exact ih

/-- The first part comes to its end, and the rest goes on from there. -/
theorem run_then {p : Prog ε σ ℓ α} {f : α → Prog ε σ ℓ β} {a : α} (h : run p s = .ok (a, t)) :
    run (p >>= f) s = run (f a) t := by
  rw [run_bind, h]
  rfl

/-- The first part stops, and the whole with it. -/
theorem run_stopped {p : Prog ε σ ℓ α} {f : α → Prog ε σ ℓ β} {e : ε} (h : run p s = .error e) :
    run (p >>= f) s = .error e := by
  rw [run_bind, h]
  rfl

theorem run_pure {a : α} : run (pure a : Prog ε σ ℓ α) s = .ok (a, s) := rfl

theorem run_reads {f : σ → α} : run (reads f : Prog ε σ ℓ α) s = .ok (f s, s) := rfl

theorem run_modify {f : σ → σ} : run (modify f : Prog ε σ ℓ Unit) s = .ok ((), f s) := rfl

theorem run_sleep {l : ℓ} : run (sleep l : Prog ε σ ℓ Unit) s = .ok ((), s) := rfl

theorem run_check {c : Bool} {e : ε} :
    run (check c e : Prog ε σ ℓ Unit) s = if c then .ok ((), s) else .error e := by
  cases c <;> rfl

theorem run_need {e : ε} {o : Option α} :
    run (need e o : Prog ε σ ℓ α) s = o.elim (.error e) fun a => .ok (a, s) := by
  cases o <;> rfl

theorem run_mapLabel {f : ℓ → ℓ} {p : Prog ε σ ℓ α} : run (mapLabel f p) s = run p s := by
  induction p generalizing s with
  | ret a => rfl
  | stop e => rfl
  | get k ih => exact ih s
  | put s' p ih => exact ih
  | block l p ih => exact ih

end Run

/-! ## 4. What every run of a program keeps -/

/-- **A Hoare triple**: from `P`, when `p` returns `a`, then to `Q a`. -/
def Triple (C : ℓ → σ → Prop) (P : σ → Prop) (p : Prog ε σ ℓ α) (Q : α → σ → Prop) : Prop :=
  ∀ s a t, P s → Runs C p s a t → Q a t

/-- Every run of `p` leads from `I` to `I`. -/
abbrev Keeps (C : ℓ → σ → Prop) (I : σ → Prop) (p : Prog ε σ ℓ α) : Prop :=
  Triple C I p fun _ => I

section Triple

variable {C : ℓ → σ → Prop} {P : σ → Prop} {I : σ → Prop}

theorem triple_pre {P' : σ → Prop} {p : Prog ε σ ℓ α} {Q : α → σ → Prop} (h : Triple C P p Q)
    (hP : ∀ s, P' s → P s) : Triple C P' p Q := fun s a t hs hr => h s a t (hP s hs) hr

theorem triple_post {p : Prog ε σ ℓ α} {Q Q' : α → σ → Prop} (h : Triple C P p Q)
    (hQ : ∀ a s, Q a s → Q' a s) : Triple C P p Q' := fun s a t hs hr => hQ a t (h s a t hs hr)

theorem triple_bind {p : Prog ε σ ℓ α} {f : α → Prog ε σ ℓ β} {Q : α → σ → Prop}
    {R : β → σ → Prop} (hp : Triple C P p Q) (hf : ∀ a, Triple C (Q a) (f a) R) :
    Triple C P (p >>= f) R := by
  intro s b t hs h
  obtain ⟨a, s', h1, h2⟩ := runs_bind.mp h
  exact hf a s' b t (hp s a s' hs h1) h2

theorem keeps_bind {p : Prog ε σ ℓ α} {f : α → Prog ε σ ℓ β} (hp : Keeps C I p)
    (hf : ∀ a, Keeps C I (f a)) : Keeps C I (p >>= f) := triple_bind hp hf

theorem triple_pure {a : α} {Q : α → σ → Prop} (h : ∀ s, P s → Q a s) :
    Triple C P (pure a : Prog ε σ ℓ α) Q := by
  rintro s b t hs ⟨rfl, rfl⟩
  exact h s hs

theorem keeps_pure (a : α) : Keeps C I (pure a : Prog ε σ ℓ α) := triple_pure fun _ h => h

theorem triple_stop (e : ε) {Q : α → σ → Prop} : Triple C P (stop e : Prog ε σ ℓ α) Q :=
  fun _ _ _ _ h => h.elim

theorem triple_reads (f : σ → α) : Triple C P (reads f : Prog ε σ ℓ α) fun a s => P s ∧ f s = a := by
  rintro s a t hs ⟨h, rfl⟩
  exact ⟨hs, h⟩

theorem keeps_reads (f : σ → α) : Keeps C I (reads f : Prog ε σ ℓ α) :=
  triple_post (triple_reads f) fun _ _ h => h.1

theorem triple_check (c : Bool) (e : ε) :
    Triple C P (check c e : Prog ε σ ℓ Unit) fun _ s => P s ∧ c = true := by
  intro s a t hs h
  rw [runs_check] at h
  exact ⟨h.2 ▸ hs, h.1⟩

theorem keeps_check (c : Bool) (e : ε) : Keeps C I (check c e : Prog ε σ ℓ Unit) :=
  triple_post (triple_check c e) fun _ _ h => h.1

theorem triple_need (e : ε) (o : Option α) :
    Triple C P (need e o : Prog ε σ ℓ α) fun a s => P s ∧ o = some a := by
  intro s a t hs h
  rw [runs_need] at h
  exact ⟨h.2 ▸ hs, h.1⟩

theorem keeps_need (e : ε) (o : Option α) : Keeps C I (need e o : Prog ε σ ℓ α) :=
  triple_post (triple_need e o) fun _ _ h => h.1

theorem triple_modify {f : σ → σ} {Q : σ → Prop} (h : ∀ s, P s → Q (f s)) :
    Triple C P (modify f : Prog ε σ ℓ Unit) fun _ => Q := by
  intro s a t hs hr
  rw [runs_modify] at hr
  exact hr ▸ h s hs

theorem triple_mapLabel {f : ℓ → ℓ} {p : Prog ε σ ℓ α} {Q : α → σ → Prop}
    (h : Triple (fun l => C (f l)) P p Q) : Triple C P (mapLabel f p) Q :=
  fun s a t hs hr => h s a t hs (runs_mapLabel.mp hr)

theorem triple_ite {c : Prop} [Decidable c] {p q : Prog ε σ ℓ α} {Q : α → σ → Prop}
    (hp : c → Triple C P p Q) (hq : ¬ c → Triple C P q Q) :
    Triple C P (if c then p else q) Q := by
  by_cases h : c
  · rw [if_pos h]
    exact hp h
  · rw [if_neg h]
    exact hq h

/-- A loop over a list keeps what its body keeps. -/
theorem keeps_forM {γ : Type} {f : γ → Prog ε σ ℓ PUnit} (l : List γ)
    (h : ∀ a, Keeps C I (f a)) : Keeps C I (l.forM f) := by
  induction l with
  | nil => exact keeps_pure _
  | cons a l ih =>
    show Keeps C I (f a >>= fun _ => l.forM f)
    exact keeps_bind (h a) fun _ => ih

end Triple

/-! ## 5. What every run of a program changes -/

/-- A relation between the states before and after that runs can be put together with. -/
class Steady (R : σ → σ → Prop) : Prop where
  refl : ∀ s, R s s
  trans : ∀ {s t u}, R s t → R t u → R s u

instance : Steady (@Eq σ) where
  refl _ := rfl
  trans := Eq.trans

/-- Every run of `p`, from any state, changes the state as `R` says. -/
def Obeys (R : σ → σ → Prop) (p : Prog ε σ ℓ α) : Prop := ∀ s a t, Ends p s a t → R s t

section Obeys

variable {R : σ → σ → Prop}

theorem Obeys.keeps {C : ℓ → σ → Prop} {I : σ → Prop} {p : Prog ε σ ℓ α} (h : Obeys R p)
    (hI : ∀ s t, R s t → I s → I t) : Keeps C I p :=
  fun s a t hs hr => hI s t (h s a t hr.ends) hs

/-- A program that changes nothing keeps everything. -/
theorem keeps_of_eq {C : ℓ → σ → Prop} {I : σ → Prop} {p : Prog ε σ ℓ α} (h : Obeys Eq p) :
    Keeps C I p := fun s a t hs hr => h s a t hr.ends ▸ hs

variable [Steady R]

theorem obeys_pure (a : α) : Obeys R (pure a : Prog ε σ ℓ α) := by
  rintro s b t ⟨-, rfl⟩
  exact Steady.refl s

omit [Steady R] in
theorem obeys_stop (e : ε) : Obeys R (stop e : Prog ε σ ℓ α) := fun _ _ _ h => h.elim

theorem obeys_reads (f : σ → α) : Obeys R (reads f : Prog ε σ ℓ α) := by
  rintro s a t ⟨-, rfl⟩
  exact Steady.refl s

theorem obeys_check (c : Bool) (e : ε) : Obeys R (check c e : Prog ε σ ℓ Unit) := by
  intro s a t h
  rw [Ends, runs_check] at h
  exact h.2 ▸ Steady.refl s

theorem obeys_need (e : ε) (o : Option α) : Obeys R (need e o : Prog ε σ ℓ α) := by
  intro s a t h
  rw [Ends, runs_need] at h
  exact h.2 ▸ Steady.refl s

omit [Steady R] in
theorem obeys_modify {f : σ → σ} (h : ∀ s, R s (f s)) :
    Obeys R (modify f : Prog ε σ ℓ Unit) := by
  intro s a t hr
  rw [Ends, runs_modify] at hr
  exact hr ▸ h s

theorem obeys_sleep (l : ℓ) : Obeys R (sleep l : Prog ε σ ℓ Unit) := by
  intro s a t h
  rw [Ends, runs_sleep] at h
  exact h.2 ▸ Steady.refl s

theorem obeys_bind {p : Prog ε σ ℓ α} {f : α → Prog ε σ ℓ β} (hp : Obeys R p)
    (hf : ∀ a, Obeys R (f a)) : Obeys R (p >>= f) := by
  intro s b t h
  obtain ⟨a, s', h1, h2⟩ := runs_bind.mp h
  exact Steady.trans (hp s a s' h1) (hf a s' b t h2)

/-- A loop over a list obeys what its body obeys. -/
theorem obeys_forM {γ : Type} {f : γ → Prog ε σ ℓ PUnit} (l : List γ) (h : ∀ a, Obeys R (f a)) :
    Obeys R (l.forM f) := by
  induction l with
  | nil => exact obeys_pure _
  | cons a l ih =>
    show Obeys R (f a >>= fun _ => l.forM f)
    exact obeys_bind (h a) fun _ => ih

omit [Steady R] in
theorem obeys_mapLabel {f : ℓ → ℓ} {p : Prog ε σ ℓ α} (h : Obeys R p) :
    Obeys R (mapLabel f p) := fun s a t hr => h s a t (ends_mapLabel.mp hr)

omit [Steady R] in
theorem obeys_ite {c : Prop} [Decidable c] {p q : Prog ε σ ℓ α} (hp : c → Obeys R p)
    (hq : ¬ c → Obeys R q) : Obeys R (if c then p else q) := by
  by_cases h : c
  · rw [if_pos h]
    exact hp h
  · rw [if_neg h]
    exact hq h

end Obeys

/-- Every run of `p` that returns `a` changes the state as `R` says. -/
def Answers (R : σ → σ → Prop) (a : α) (p : Prog ε σ ℓ α) : Prop := ∀ s t, Ends p s a t → R s t

/-- No run of `p` returns `a`. -/
def Never (a : α) (p : Prog ε σ ℓ α) : Prop := ∀ s t, ¬ Ends p s a t

section Answers

variable {R : σ → σ → Prop} {a : α}

theorem Obeys.answers {p : Prog ε σ ℓ α} (h : Obeys R p) : Answers R a p := fun s t hr => h s a t hr

theorem Never.answers {p : Prog ε σ ℓ α} (h : Never a p) : Answers R a p :=
  fun s t hr => absurd hr (h s t)

theorem answers_bind [Steady R] {p : Prog ε σ ℓ β} {f : β → Prog ε σ ℓ α} (hp : Obeys R p)
    (hf : ∀ b, Answers R a (f b)) : Answers R a (p >>= f) := by
  intro s t h
  obtain ⟨b, s', h1, h2⟩ := runs_bind.mp h
  exact Steady.trans (hp s b s' h1) (hf b s' t h2)

theorem answers_ite {c : Prop} [Decidable c] {p q : Prog ε σ ℓ α} (hp : c → Answers R a p)
    (hq : ¬ c → Answers R a q) : Answers R a (if c then p else q) := by
  by_cases h : c
  · rw [if_pos h]
    exact hp h
  · rw [if_neg h]
    exact hq h

theorem never_pure {b : α} (h : b ≠ a) : Never a (pure b : Prog ε σ ℓ α) := fun _ _ hr => h hr.1

theorem never_bind {p : Prog ε σ ℓ β} {f : β → Prog ε σ ℓ α} (hf : ∀ b, Never a (f b)) :
    Never a (p >>= f) := by
  intro s t h
  obtain ⟨b, s', -, h⟩ := runs_bind.mp h
  exact hf b s' t h

end Answers

/-! ## 6. A program on a part of the state -/

section Zoom

variable {τ : Type}

/-- The program on the part of the state that `look` reads and `fit` writes. -/
def zoom (look : τ → σ) (fit : σ → τ → τ) : Prog ε σ ℓ α → Prog ε τ ℓ α
  | ret a => ret a
  | stop e => stop e
  | get k => get fun t => (k (look t)).zoom look fit
  | put s p => get fun t => put (fit s t) (p.zoom look fit)
  | block l p => block l (p.zoom look fit)

theorem zoom_bind (look : τ → σ) (fit : σ → τ → τ) (p : Prog ε σ ℓ α) (f : α → Prog ε σ ℓ β) :
    zoom look fit (p >>= f) = zoom look fit p >>= fun a => zoom look fit (f a) := by
  show zoom look fit (p.bind f) = (zoom look fit p).bind fun a => zoom look fit (f a)
  induction p with
  | ret a => rfl
  | stop e => rfl
  | get k ih => exact congrArg get (funext fun t => ih (look t))
  | put s p ih => exact congrArg get (funext fun t => congrArg (put (fit s t)) ih)
  | block l p ih => exact congrArg (block l) ih

theorem zoom_forM {γ : Type} (look : τ → σ) (fit : σ → τ → τ) (l : List γ)
    (f : γ → Prog ε σ ℓ PUnit) :
    zoom look fit (l.forM f) = l.forM fun a => zoom look fit (f a) := by
  induction l with
  | nil => rfl
  | cons a l ih =>
    show zoom look fit (f a >>= fun _ => l.forM f) = _
    rw [zoom_bind, ih]
    rfl

/-- What `look` reads is what `fit` has written, and nothing else is. -/
structure Fits (look : τ → σ) (fit : σ → τ → τ) : Prop where
  look_fit : ∀ s t, look (fit s t) = s
  fit_look : ∀ t, fit (look t) t = t
  fit_fit : ∀ s s' t, fit s (fit s' t) = fit s t

/-- **The part changes as the program says, the rest stays.** -/
theorem runs_zoom {look : τ → σ} {fit : σ → τ → τ} (hf : Fits look fit) {p : Prog ε σ ℓ α}
    {C : ℓ → τ → Prop} {t t' : τ} {a : α} :
    Runs C (zoom look fit p) t a t' ↔
      ∃ s', Runs (fun l s => C l (fit s t)) p (look t) a s' ∧ t' = fit s' t := by
  induction p generalizing t with
  | ret b =>
    constructor
    · rintro ⟨rfl, rfl⟩
      exact ⟨look t, ⟨rfl, rfl⟩, (hf.fit_look t).symm⟩
    · rintro ⟨s', ⟨rfl, rfl⟩, rfl⟩
      exact ⟨rfl, (hf.fit_look t).symm⟩
  | stop e => exact ⟨fun h => h.elim, fun ⟨_, h, _⟩ => h.elim⟩
  | get k ih => exact ih (look t)
  | put s p ih =>
    show Runs C (zoom look fit p) (fit s t) a t' ↔ _
    simp only [ih, hf.look_fit, hf.fit_fit]
    rfl
  | block l p ih =>
    have hl : C l (fit (look t) t) ↔ C l t := by rw [hf.fit_look]
    show (C l t ∧ Runs C (zoom look fit p) t a t') ↔ _
    rw [ih]
    constructor
    · rintro ⟨hc, s', h, rfl⟩
      exact ⟨s', ⟨hl.mpr hc, h⟩, rfl⟩
    · rintro ⟨s', ⟨hc, h⟩, rfl⟩
      exact ⟨hl.mp hc, s', h, rfl⟩

end Zoom

end Prog

end Yuios.Lib
