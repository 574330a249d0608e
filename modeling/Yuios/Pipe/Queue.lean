/-
  File:      Yuios/Pipe/Queue.lean
  Subject:   THE RING OVER ANY RUN: from `fifo_init` on it is a queue of `length - 1` places.

  * `Call`, `fifoRun` -- puts and gets on a ring, with the bytes that the gets answer.
  * `queueRun` -- the same calls on a queue. It is defined where every get finds a byte.
  * `Holds` -- the invariant: the ring is sized, and holds the queue.
  * **`fifo_refines`** -- the bytes the ring answers are those of the queue, and what `fifo_empty` and
    `fifo_full` say is right.
-/
import Yuios.Pipe.Fifo

namespace Yuios.Pipe

open Fifo

/-! ## 1. Runs -/

inductive Call where
  | put (byte : UInt8)
  | get
  deriving DecidableEq

/-- The calls, one after another: the ring at the end, and the bytes of the gets. -/
def fifoRun (f : Fifo) : List Call → Except Stop (Fifo × List UInt8)
  | [] => .ok (f, [])
  | .put byte :: calls => do
    let f ← fifoPut f byte
    fifoRun f calls
  | .get :: calls => do
    let (byte, f) ← fifoGet f
    let (f, bytes) ← fifoRun f calls
    return (f, byte :: bytes)

/-- A put into a queue with so many places: the oldest byte gives way when none is left. -/
def enqueue (places : Nat) (q : List UInt8) (byte : UInt8) : List UInt8 :=
  if q.length = places then q.tail ++ [byte] else q ++ [byte]

/-- The calls on a queue, `none` where a get finds it empty. -/
def queueRun (places : Nat) (q : List UInt8) : List Call → Option (List UInt8 × List UInt8)
  | [] => some (q, [])
  | .put byte :: calls => queueRun places (enqueue places q byte) calls
  | .get :: calls =>
    match q with
    | [] => none
    | byte :: q => (queueRun places q calls).map fun (q, bytes) => (q, byte :: bytes)

/-- **The ring of this length holds the queue.** -/
structure Holds (length : Nat) (f : Fifo) (q : List UInt8) : Prop where
  sized : f.Sized
  length : f.length = length
  contents : f.contents = q

/-! ## 2. One call -/

section Step

variable {f : Fifo} {q : List UInt8} {length : Nat} {byte : UInt8}

theorem Holds.used (h : Holds length f q) : f.used = q.length := by rw [← length_contents, h.contents]

theorem Holds.empty (h : Holds length f q) : fifoEmpty f = true ↔ q = [] := by
  rw [← contents_eq_nil h.sized, h.contents]

theorem Holds.full (h : Holds length f q) : fifoFull f = true ↔ q.length = length - 1 := by
  have htwo := h.sized.two
  have hlength := h.length
  rw [fifoFull_iff h.sized, h.used]
  omega

theorem Holds.init (hlength : 2 ≤ length) (buf : Nat → UInt8) : Holds length (fifoInit buf length) [] := by
  have hpos : 0 < length := by omega
  exact ⟨⟨hlength, hpos, hpos⟩, rfl, rfl⟩

/-- **A put is an `enqueue`.** -/
theorem Holds.put (h : Holds length f q) (byte : UInt8) :
    ∃ f', fifoPut f byte = .ok f' ∧ Holds length f' (enqueue (length - 1) q byte) := by
  obtain ⟨f', hput, hs, hl, hc⟩ := fifoPut_spec h.sized byte
  refine ⟨f', hput, hs, hl.trans h.length, ?_⟩
  rw [hc, h.contents, enqueue]
  by_cases hfull : q.length = length - 1
  · rw [if_pos (h.full.mpr hfull), if_pos hfull]
  · rw [if_neg (mt h.full.mp hfull), if_neg hfull]

/-- **A get answers the oldest byte.** -/
theorem Holds.get (h : Holds length f (byte :: q)) :
    ∃ f', fifoGet f = .ok (byte, f') ∧ Holds length f' q := by
  have he : fifoEmpty f = false := Bool.eq_false_iff.mpr fun e => by
    have := h.empty.mp e
    cases this
  obtain ⟨b, f', hg, hs, hl, hc⟩ := fifoGet_cons h.sized he
  obtain ⟨rfl, hrest⟩ := List.cons.inj (hc.symm.trans h.contents)
  exact ⟨f', hg, hs, hl.trans h.length, hrest⟩

end Step

/-! ## 3. Any calls -/

section Run

variable {f : Fifo} {q q' bytes : List UInt8} {length : Nat} {calls : List Call}

theorem Holds.run (h : Holds length f q) (hq : queueRun (length - 1) q calls = some (q', bytes)) :
    ∃ f', fifoRun f calls = .ok (f', bytes) ∧ Holds length f' q' := by
  induction calls generalizing f q bytes with
  | nil =>
    obtain ⟨rfl, rfl⟩ := Prod.mk.inj (Option.some.inj hq)
    exact ⟨f, rfl, h⟩
  | cons call calls ih =>
    cases call with
    | put byte =>
      obtain ⟨f₁, hput, h₁⟩ := h.put byte
      obtain ⟨f', hrun, h'⟩ := ih h₁ hq
      refine ⟨f', ?_, h'⟩
      rw [fifoRun, hput]
      exact hrun
    | get =>
      cases q with
      | nil => cases hq
      | cons byte q =>
        obtain ⟨⟨q₁, bytes₁⟩, hq₁, e⟩ := Option.map_eq_some_iff.mp hq
        obtain ⟨rfl, rfl⟩ := Prod.mk.inj e
        obtain ⟨f₁, hget, h₁⟩ := h.get
        obtain ⟨f', hrun, h'⟩ := ih h₁ hq₁
        refine ⟨f', ?_, h'⟩
        rw [fifoRun, hget]
        show (fifoRun f₁ calls >>= fun r => pure (r.1, byte :: r.2)) = _
        rw [hrun]
        rfl

/-- **The ring is a queue of `length - 1` places** over every run from `fifo_init` on whose gets find a
    byte: its gets answer the queue's bytes, it ends with the queue's contents, `fifo_empty` and
    `fifo_full` tell 0 and `length - 1` bytes, the indices are below `length`, and the loop of a further
    put ends. -/
theorem fifo_refines (hlength : 2 ≤ length) (buf : Nat → UInt8)
    (h : queueRun (length - 1) [] calls = some (q, bytes)) :
    ∃ f, fifoRun (fifoInit buf length) calls = .ok (f, bytes) ∧ f.contents = q ∧ q.length ≤ length - 1 ∧
      (fifoEmpty f = true ↔ q.length = 0) ∧ (fifoFull f = true ↔ q.length = length - 1) ∧
      f.head < length ∧ f.tail < length ∧
      ∀ byte, ∃ g, RoomMade f g ∧ fifoPut f byte = .ok (stored g byte) := by
  obtain ⟨f, hrun, hf⟩ := (Holds.init hlength buf).run h
  have hlt := used_lt hf.sized
  have hlen := hf.length
  refine ⟨f, hrun, hf.contents, ?_, ?_, hf.full, hlen ▸ hf.sized.head, hlen ▸ hf.sized.tail, fun byte => ?_⟩
  · rw [hf.used] at hlt
    omega
  · rw [hf.empty, List.length_eq_zero_iff]
  · obtain ⟨g, hr, -, -, hput, -⟩ := fifoPut_ends hf.sized byte
    exact ⟨g, hr, hput⟩

end Run

/-- Three puts into a ring of two places, and a get: the first byte is gone. -/
theorem fifo_refines_three : ∃ f, fifoRun (fifoInit (fun _ => 0) 3) [.put 1, .put 2, .put 3, .get] = .ok (f, [2]) ∧
    f.contents = [3] := by
  have hqueue : queueRun (3 - 1) [] [.put 1, .put 2, .put 3, .get] = some ([3], [2]) := by decide
  obtain ⟨f, hrun, hc, -⟩ := fifo_refines (by decide) (fun _ => 0) hqueue
  exact ⟨f, hrun, hc⟩

end Yuios.Pipe
