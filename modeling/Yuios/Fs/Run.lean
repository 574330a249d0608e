/-
  File:      Yuios/Fs/Run.lean
  Subject:   OPERATIONS AND RUNS: what one task asks of the file system, one call after another.

  A step of a run is one whole call, run alone. `Ok` is the condition the calls of a run meet, on
  the call and the state before it; `C` is what holds wherever a call waits for the disk.
-/
import Yuios.Fs.File

namespace Yuios

open Lib Prog Code

/-- A call. -/
inductive Op where
  | mkdir (pathname : List UInt8) (mode : Nat)
  | rmdir (pathname : List UInt8)
  | link (oldname newname : List UInt8)
  | unlink (filename : List UInt8)
  | mknod (filename : List UInt8) (mode dev : Nat)
  | inodeOpen (pathname : List UInt8) (flag mode : Nat)
  | sysOpen (filename : List UInt8) (flags mode : Nat)
  | close (fd : Nat)
  | inodeRead (x : Nat) (buf : Bytes) (len offset : Nat)
  | inodeWrite (x : Nat) (buf : Bytes) (len offset : Nat)
  | inodeTruncate (x : Nat)

/-- Run `p` for its effect. -/
def ignore {α : Type} (p : Code α) : Code Unit := do
  let _ ← p
  return ()

def Op.code : Op → Code Unit
  | .mkdir pathname mode => ignore (sysMkdir pathname mode)
  | .rmdir pathname => ignore (sysRmdir pathname)
  | .link oldname newname => ignore (sysLink oldname newname)
  | .unlink filename => ignore (sysUnlink filename)
  | .mknod filename mode dev => ignore (sysMknod filename mode dev)
  | .inodeOpen pathname flag mode => ignore (Yuios.inodeOpen pathname flag mode)
  | .sysOpen filename flags mode => ignore (Yuios.sysOpen filename flags mode)
  | .close fd => sysClose fd
  | .inodeRead x buf len offset => ignore (Yuios.inodeRead x buf len offset)
  | .inodeWrite x buf len offset => ignore (Yuios.inodeWrite x buf len offset)
  | .inodeTruncate x => Yuios.inodeTruncate x

/-- **Runs of one task.** -/
inductive Run (Ok : Op → Kernel → Prop) (C : List Frame → Kernel → Prop) :
    Kernel → Kernel → Prop where
  | start (s : Kernel) : Run Ok C s s
  | step {s t u : Kernel} (h : Run Ok C s t) (op : Op) (hok : Ok op t)
      (hr : Runs C op.code t () u) : Run Ok C s u

/-- What every call keeps, a run keeps. -/
theorem run_keeps {Ok : Op → Kernel → Prop} {C : List Frame → Kernel → Prop} {I : Kernel → Prop}
    (hI : ∀ op s t, I s → Ok op s → Runs C op.code s () t → I t) {s t : Kernel}
    (h : Run Ok C s t) (hs : I s) : I t := by
  induction h with
  | start => exact hs
  | step _ op hok hr ih => exact hI op _ _ ih hok hr

theorem runs_ignore {C : List Frame → Kernel → Prop} {α : Type} {p : Code α} {s t : Kernel}
    {u : Unit} : Runs C (ignore p) s u t ↔ ∃ a, Runs C p s a t := by
  constructor
  · intro h
    obtain ⟨a, s', ha, -, rfl⟩ := runs_bind.mp h
    exact ⟨a, ha⟩
  · rintro ⟨a, h⟩
    exact runs_bind.mpr ⟨a, t, h, rfl, rfl⟩

/-- A run, computed: the calls come to their ends, the conditions hold, and `f` holds of the last
    state. -/
def checkRun (Ok : Op → Kernel → Prop) (C : List Frame → Kernel → Prop)
    [∀ op s, Decidable (Ok op s)] [∀ l s, Decidable (C l s)] (f : Kernel → Bool) :
    List Op → Kernel → Bool
  | [], s => f s
  | op :: ops, s =>
    decide (Ok op s) && decide (Along C op.code s) &&
      match op.code.run s with
      | .ok (_, t) => checkRun Ok C f ops t
      | .error _ => false

theorem run_of_check (Ok : Op → Kernel → Prop) (C : List Frame → Kernel → Prop)
    [∀ op s, Decidable (Ok op s)] [∀ l s, Decidable (C l s)] (f : Kernel → Bool) (ops : List Op)
    (s : Kernel) (h : checkRun Ok C f ops s = true) : ∃ u, Run Ok C s u ∧ f u = true := by
  have go : ∀ t, Run Ok C s t → checkRun Ok C f ops t = true →
      ∃ u, Run Ok C s u ∧ f u = true := by
    clear h
    induction ops with
    | nil => exact fun t ht h => ⟨t, ht, h⟩
    | cons op ops ih =>
      intro t ht h
      unfold checkRun at h
      rw [Bool.and_eq_true, Bool.and_eq_true] at h
      obtain ⟨⟨hok, halong⟩, h⟩ := h
      split at h
      next u hr =>
        refine ih u (.step ht op (of_decide_eq_true hok) ?_) h
        exact runs_iff.mpr ⟨hr, of_decide_eq_true halong⟩
      next => cases h
  exact go s (.start s) h

/-- No condition. -/
def anyOp (_ : Op) (_ : Kernel) : Prop := True

/-- No condition. -/
def anyPoint (_ : List Frame) (_ : Kernel) : Prop := True

instance (op : Op) (s : Kernel) : Decidable (anyOp op s) := .isTrue trivial

instance (l : List Frame) (s : Kernel) : Decidable (anyPoint l s) := .isTrue trivial

end Yuios
