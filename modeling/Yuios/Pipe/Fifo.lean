/-
  File:      Yuios/Pipe/Fifo.lean
  Subject:   THE RING BUFFER of `lib/fifo.c`, and that it is a queue of at most `length - 1` bytes.

  * `Fifo` with `fifoFull`, `fifoEmpty`, `fifoGet` and `fifoPut` as the code has them.
  * `contents` -- the bytes from `tail` up to `head`, oldest first.
  * `RoomMade` -- the loop of `fifo_put`, as far as it goes: no bound on its rounds.
  * `fifoGet_cons`, `fifoPut_room`, `fifoPut_full` -- what a get and a put do to the contents: a
    put into a full ring gives the oldest byte up.
-/
import Yuios.Kernel.Block

namespace Yuios.Pipe

open Kernel

/-! ## 1. The code -/

/-- A `fifo_t`. The indices stay below `length`, so no sum of theirs wraps. -/
structure Fifo where
  buf : Nat → UInt8
  length : Nat
  head : Nat
  tail : Nat

def fifoNext (f : Fifo) (pos : Nat) : Nat := (pos + 1) % f.length

def fifoInit (buf : Nat → UInt8) (length : Nat) : Fifo := ⟨buf, length, 0, 0⟩

def fifoFull (f : Fifo) : Bool := fifoNext f f.head == f.tail

def fifoEmpty (f : Fifo) : Bool := f.head == f.tail

def fifoGet (f : Fifo) : Except Stop (UInt8 × Fifo) := do
  assert (!fifoEmpty f)
  return (f.buf f.tail, { f with tail := fifoNext f f.tail })

/-- The loop of `fifo_put`: get while the ring is full. The ring is empty after at most `length`
    rounds, where a get stops the kernel. -/
def makeRoom : Nat → Fifo → Except Stop Fifo
  | 0, f => .ok f
  | n + 1, f =>
    if fifoFull f then do
      let (_, f) ← fifoGet f
      makeRoom n f
    else .ok f

def fifoPut (f : Fifo) (byte : UInt8) : Except Stop Fifo := do
  let f ← makeRoom (f.length + 1) f
  return { f with buf := Function.update f.buf f.head byte, head := fifoNext f f.head }

/-! ## 2. The queue it is -/

namespace Fifo

/-- The indices are in the buffer, which has room for a byte. -/
structure Sized (f : Fifo) : Prop where
  two : 2 ≤ f.length
  head : f.head < f.length
  tail : f.tail < f.length

/-- How many bytes are in the ring. -/
def used (f : Fifo) : Nat := if f.tail ≤ f.head then f.head - f.tail else f.head + f.length - f.tail

/-- Where the byte `i` places after the oldest one is. -/
def place (f : Fifo) (i : Nat) : Nat :=
  if f.tail + i < f.length then f.tail + i else f.tail + i - f.length

/-- **The bytes in the ring, oldest first.** -/
def contents (f : Fifo) : List UInt8 := (List.range f.used).map fun i => f.buf (f.place i)

@[simp] theorem length_contents (f : Fifo) : f.contents.length = f.used := by simp [contents]

end Fifo

open Fifo

variable {f g : Fifo} {byte : UInt8}

theorem fifoNext_cases {pos : Nat} (h : pos < f.length) :
    pos + 1 < f.length ∧ fifoNext f pos = pos + 1 ∨ pos + 1 = f.length ∧ fifoNext f pos = 0 := by
  unfold fifoNext
  rcases Nat.lt_or_ge (pos + 1) f.length with hlt | hge
  · exact .inl ⟨hlt, Nat.mod_eq_of_lt hlt⟩
  · have e : pos + 1 = f.length := by omega
    exact .inr ⟨e, by rw [e, Nat.mod_self]⟩

theorem fifoNext_lt (h : f.Sized) (pos : Nat) : fifoNext f pos < f.length :=
  Nat.mod_lt _ (by have := h.two; omega)

theorem used_cases (f : Fifo) :
    f.tail ≤ f.head ∧ f.used = f.head - f.tail ∨
      f.head < f.tail ∧ f.used = f.head + f.length - f.tail := by
  unfold used
  split
  · exact .inl ⟨by assumption, rfl⟩
  · exact .inr ⟨by omega, rfl⟩

theorem place_cases (f : Fifo) (i : Nat) :
    f.tail + i < f.length ∧ f.place i = f.tail + i ∨
      f.length ≤ f.tail + i ∧ f.place i = f.tail + i - f.length := by
  unfold place
  split
  · exact .inl ⟨by assumption, rfl⟩
  · exact .inr ⟨by omega, rfl⟩

theorem used_lt (h : f.Sized) : f.used < f.length := by
  have := h.head
  have := h.tail
  have := used_cases f
  omega

/-- The ring is empty when nothing is in it. -/
theorem fifoEmpty_iff (h : f.Sized) : fifoEmpty f = true ↔ f.used = 0 := by
  have := h.head
  have := h.tail
  have := used_cases f
  unfold fifoEmpty
  rw [beq_iff_eq]
  omega

/-- The ring is full with one place left. -/
theorem fifoFull_iff (h : f.Sized) : fifoFull f = true ↔ f.used + 1 = f.length := by
  have := h.two
  have := h.tail
  have := used_cases f
  have := fifoNext_cases h.head
  unfold fifoFull
  rw [beq_iff_eq]
  omega

theorem contents_eq_nil (h : f.Sized) : f.contents = [] ↔ fifoEmpty f = true := by
  rw [fifoEmpty_iff h, ← length_contents, List.length_eq_zero_iff]

/-! ## 3. Get -/

theorem fifoGet_empty (h : fifoEmpty f = true) : fifoGet f = .error .assertion := by
  simp only [fifoGet, h]
  rfl

/-- A get takes the oldest byte out. -/
theorem fifoGet_cons (h : f.Sized) (he : fifoEmpty f = false) :
    ∃ b f', fifoGet f = .ok (b, f') ∧ f'.Sized ∧ f'.length = f.length ∧
      f.contents = b :: f'.contents := by
  have h2 := h.two
  have hh := h.head
  have ht := h.tail
  have hu : f.used ≠ 0 := fun e => Bool.noConfusion (he.symm.trans ((fifoEmpty_iff h).mpr e))
  refine ⟨f.buf f.tail, { f with tail := fifoNext f f.tail }, ?_, ⟨h2, hh, fifoNext_lt h _⟩,
    rfl, ?_⟩
  · simp only [fifoGet, he]
    rfl
  · obtain ⟨g, hg⟩ : ∃ g : Fifo, g = { f with tail := fifoNext f f.tail } := ⟨_, rfl⟩
    have hgt : g.tail = fifoNext f f.tail := by rw [hg]
    have hgh : g.head = f.head := by rw [hg]
    have hgl : g.length = f.length := by rw [hg]
    have hgb : g.buf = f.buf := by rw [hg]
    have hn := fifoNext_cases ht
    have hfu := used_cases f
    have hgu := used_cases g
    have hused : f.used = g.used + 1 := by omega
    rw [← hg]
    unfold contents
    rw [hused, List.range_succ_eq_map, List.map_cons, List.map_map, hgb]
    refine congrArg₂ List.cons (congrArg f.buf ?_) (List.map_congr_left fun i hi => ?_)
    · have := place_cases f 0
      omega
    · have hi := List.mem_range.mp hi
      have := place_cases f (i + 1)
      have := place_cases g i
      refine congrArg f.buf ?_
      show f.place (i + 1) = g.place i
      omega

/-! ## 4. Put -/

/-- **The loop of `fifo_put` ends** with the ring `g`. -/
inductive RoomMade : Fifo → Fifo → Prop where
  | done {f : Fifo} (h : fifoFull f = false) : RoomMade f f
  | turn {f f' g : Fifo} {byte : UInt8} (h : fifoFull f = true) (hg : fifoGet f = .ok (byte, f'))
      (hrest : RoomMade f' g) : RoomMade f g

/-- The end of a put: the byte goes where `head` is. -/
def stored (f : Fifo) (byte : UInt8) : Fifo :=
  { f with buf := Function.update f.buf f.head byte, head := fifoNext f f.head }

theorem contents_stored (h : f.Sized) (hf : fifoFull f = false) :
    (stored f byte).contents = f.contents ++ [byte] := by
  have h2 := h.two
  have hh := h.head
  have ht := h.tail
  have hu : f.used + 1 ≠ f.length := fun e =>
    Bool.noConfusion (hf.symm.trans ((fifoFull_iff h).mpr e))
  have hn := fifoNext_cases hh
  obtain ⟨g, hg⟩ : ∃ g : Fifo, g = stored f byte := ⟨_, rfl⟩
  have hgt : g.tail = f.tail := by rw [hg, stored]
  have hgh : g.head = fifoNext f f.head := by rw [hg, stored]
  have hgl : g.length = f.length := by rw [hg, stored]
  have hbuf : g.buf = Function.update f.buf f.head byte := by rw [hg, stored]
  have hfu := used_cases f
  have hgu := used_cases g
  have hused : g.used = f.used + 1 := by omega
  rw [← hg]
  unfold contents
  rw [hused, List.range_succ, List.map_append, List.map_singleton, hbuf]
  refine congrArg₂ (· ++ ·) (List.map_congr_left fun i hi => ?_) (congrArg (fun b => [b]) ?_)
  · have hi := List.mem_range.mp hi
    have hpf := place_cases f i
    have hpg := place_cases g i
    have e : g.place i = f.place i := by omega
    rw [e]
    exact Function.update_of_ne (by omega) ..
  · have hpg := place_cases g f.used
    have e : g.place f.used = f.head := by omega
    rw [e]
    exact Function.update_self ..

theorem makeRoom_room (hf : fifoFull f = false) (n : Nat) : makeRoom (n + 1) f = .ok f := by
  simp [makeRoom, hf]

/-- What the fuel of `makeRoom` is for. -/
theorem RoomMade.makeRoom (h : RoomMade f g) : ∃ n, ∀ m, n ≤ m → makeRoom m f = .ok g := by
  induction h with
  | done h =>
    refine ⟨0, fun m _ => ?_⟩
    cases m with
    | zero => rfl
    | succ m => exact makeRoom_room h m
  | turn h hg _ ih =>
    obtain ⟨n, hn⟩ := ih
    refine ⟨n + 1, fun m hm => ?_⟩
    obtain ⟨m, rfl⟩ : ∃ k, m = k + 1 := ⟨m - 1, by omega⟩
    rw [Pipe.makeRoom, if_pos h, hg]
    exact hn m (by omega)

theorem RoomMade.room (h : RoomMade f g) : fifoFull g = false := by
  induction h with
  | done h => exact h
  | turn _ _ _ ih => exact ih

/-- **The loop ends**, after one round at most, and `fifo_put` stores behind it. -/
theorem fifoPut_ends (h : f.Sized) (byte : UInt8) :
    ∃ g, RoomMade f g ∧ g.Sized ∧ g.length = f.length ∧ fifoPut f byte = .ok (stored g byte) ∧
      g.contents = if fifoFull f then f.contents.tail else f.contents := by
  cases hf : fifoFull f with
  | false =>
    refine ⟨f, .done hf, h, rfl, ?_, by simp⟩
    simp only [fifoPut, makeRoom_room hf]
    rfl
  | true =>
    have h2 := h.two
    have hu := (fifoFull_iff h).mp hf
    have he : fifoEmpty f = false := Bool.eq_false_iff.mpr fun e => by
      have := (fifoEmpty_iff h).mp e
      omega
    obtain ⟨b, g, hg, hs, hl, hc⟩ := fifoGet_cons h he
    have hgu : g.used + 1 = f.used := by
      have := congrArg List.length hc
      simpa using this.symm
    have hroom : fifoFull g = false := Bool.eq_false_iff.mpr fun e => by
      have := (fifoFull_iff hs).mp e
      omega
    refine ⟨g, .turn hf hg (.done hroom), hs, hl, ?_, by simp [hc]⟩
    obtain ⟨m, hm⟩ : ∃ m, f.length = m + 1 := ⟨f.length - 1, by omega⟩
    have hmake : makeRoom (f.length + 1) f = .ok g := by
      rw [makeRoom, if_pos hf, hg, hm]
      exact makeRoom_room hroom m
    simp only [fifoPut, hmake]
    rfl

/-- A put leaves the ring as it was behind the loop, with one byte more. -/
theorem fifoPut_spec (h : f.Sized) (byte : UInt8) :
    ∃ f', fifoPut f byte = .ok f' ∧ f'.Sized ∧ f'.length = f.length ∧
      f'.contents = (if fifoFull f then f.contents.tail else f.contents) ++ [byte] := by
  obtain ⟨g, hr, hs, hl, hput, hc⟩ := fifoPut_ends h byte
  refine ⟨stored g byte, hput, ⟨hs.two, fifoNext_lt hs _, hs.tail⟩, hl, ?_⟩
  rw [contents_stored hs hr.room, hc]

/-- A put into a ring with a place left adds the byte. -/
theorem fifoPut_room (h : f.Sized) (hf : fifoFull f = false) (byte : UInt8) :
    ∃ f', fifoPut f byte = .ok f' ∧ f'.Sized ∧ f'.length = f.length ∧
      f'.contents = f.contents ++ [byte] := by
  have hput := fifoPut_spec h byte
  rwa [hf] at hput

/-- **A put into a full ring gives the oldest byte up.** -/
theorem fifoPut_full (h : f.Sized) (hf : fifoFull f = true) (byte : UInt8) :
    ∃ f', fifoPut f byte = .ok f' ∧ f'.Sized ∧ f'.length = f.length ∧
      f'.contents = f.contents.tail ++ [byte] := by
  have hput := fifoPut_spec h byte
  rwa [hf] at hput

/-- Either way the ring gains at most one byte. -/
theorem fifoPut_ok (h : f.Sized) (byte : UInt8) :
    ∃ f', fifoPut f byte = .ok f' ∧ f'.Sized ∧ f'.length = f.length ∧
      f'.used ≤ f.used + 1 := by
  cases hf : fifoFull f with
  | false =>
    obtain ⟨f', hp, hs, hl, hc⟩ := fifoPut_room h hf byte
    have e := congrArg List.length hc
    simp only [length_contents, List.length_append, List.length_singleton] at e
    exact ⟨f', hp, hs, hl, by omega⟩
  | true =>
    obtain ⟨f', hp, hs, hl, hc⟩ := fifoPut_full h hf byte
    have e := congrArg List.length hc
    simp only [length_contents, List.length_append, List.length_tail, List.length_singleton] at e
    exact ⟨f', hp, hs, hl, by omega⟩

end Yuios.Pipe
