/-
  File:      Yuios/Fs/Alloc.lean
  Subject:   WHAT THE ALLOCATORS DO: one bit of one bitmap block.

  * `bitmapScan_one` -- a scan for one bit finds a clear bit and sets it.
  * `allocLoop_spec` -- the loop of `balloc` and `ialloc` sets one clear bit and marks its block
    dirty, or changes nothing and answers `EOF`.
  * `freeLoop_spec` -- the loop of `bfree` and `ifree` clears one bit that was set.
-/
import Yuios.Fs.View

namespace Yuios

open Lib Prog Code

/-- `bf->dirty = true`. -/
def Kernel.mark (s : Kernel) (k : Key) : Kernel := { s with cache := s.cache.setDirty k }

@[simp] theorem runs_setDirty {C : List Frame → Kernel → Prop} {s t : Kernel} {k : Key} {u : Unit} :
    Runs C (setDirty k) s u t ↔ s.mark k = t := runs_modify

theorem mark_same (s : Kernel) (k : Key) : Same s (s.mark k) := ⟨view_setDirty, rfl, rfl, rfl⟩

theorem mark_dirty (s : Kernel) (k : Key) : ((s.mark k).cache.buf k).dirty = true := by
  show ((s.cache.setBuf k _).buf k).dirty = true
  rw [setBuf_buf_self]

/-! ## 1. Bitmaps -/

theorem bitmapTest_ok {map : Bitmap} {i : Nat} {v : Bool} (h : bitmapTest map i = .ok v) :
    map.offset ≤ i ∧ (i - map.offset) / 8 < map.room ∧ getBit map.bits (i - map.offset) = v := by
  unfold bitmapTest at h
  split at h
  · cases h
  · split at h
    · cases h
    · split at h
      · cases h
      · cases h
        exact ⟨by omega, by omega, rfl⟩

theorem bitmapSet_ok {map map' : Bitmap} {i : Nat} {v : Bool} (h : bitmapSet map i v = .ok map') :
    map' = { map with bits := setBit map.bits (i - map.offset) v } := by
  unfold bitmapSet at h
  split at h
  · cases h
  · split at h
    · cases h
    · cases h
      rfl

/-- The scan for one bit stops at the first clear bit, after it has seen the ones before. -/
theorem scanLoop_one {map : Bitmap} {n b : Nat} {r : Option Nat}
    (h : scanLoop map 1 n b 0 = .ok r) :
    (r = none ∧ ∀ j < n, (b + j) / 8 < map.room) ∨
    ∃ st, r = some st ∧ b ≤ st ∧ st < b + n ∧ st / 8 < map.room ∧ getBit map.bits st = false := by
  induction n generalizing b with
  | zero =>
    cases h
    exact .inl ⟨rfl, fun j hj => absurd hj (Nat.not_lt_zero j)⟩
  | succ n ih =>
    obtain ⟨set, hset, h⟩ := ok_of_bind h
    obtain ⟨-, hroom, hbit⟩ := bitmapTest_ok hset
    rw [Nat.add_sub_cancel_left] at hroom hbit
    cases set with
    | false =>
      cases h
      exact .inr ⟨b, rfl, Nat.le_refl b, by omega, hroom, hbit⟩
    | true =>
      rcases ih h with ⟨rfl, hall⟩ | ⟨st, rfl, h1, h2, h3⟩
      · refine .inl ⟨rfl, fun j hj => ?_⟩
        cases j with
        | zero => exact hroom
        | succ j =>
          have := hall j (by omega)
          rw [show b + (j + 1) = b + 1 + j by omega]
          exact this
      · exact .inr ⟨st, rfl, by omega, by omega, h3⟩

/-- **A scan for one bit.** -/
theorem bitmapScan_one {map : Bitmap} {r : Option (Nat × Bitmap)}
    (h : bitmapScan map 1 = .ok r) :
    (r = none ∧ map.length ≤ map.room) ∨
    ∃ p, p / 8 < map.room ∧ getBit map.bits p = false ∧
      r = some (p + map.offset, { map with bits := setBit map.bits p true }) := by
  obtain ⟨r', hscan, h⟩ := ok_of_bind h
  rcases scanLoop_one hscan with ⟨rfl, hall⟩ | ⟨p, rfl, -, -, hroom, hbit⟩
  · cases h
    refine .inl ⟨rfl, ?_⟩
    by_contra hlt
    have := hall (map.room * 8) (by omega)
    omega
  · obtain ⟨map', hmark, h⟩ := ok_of_bind h
    obtain ⟨map'', hset, hmark⟩ := ok_of_bind hmark
    cases hmark
    cases h
    rw [bitmapSet_ok hset, Nat.add_sub_cancel_left]
    exact .inr ⟨p, hroom, hbit, rfl⟩

/-! ## 2. The loops -/

section Loops

variable {C : List Frame → Kernel → Prop} {maps : Nat → Option Key} {len limit : Nat}
  {off : Nat → Nat} {s t : Kernel}

/-- Bit `p` of the bitmap block `k` is written. -/
def Kernel.putBit (s : Kernel) (k : Key) (p : Nat) (v : Bool) : Kernel :=
  (s.poke k fun b => setBit b p v).mark k

/-- `allocLoop` has taken bit `bit`: it is bit `p` of the bitmap block `j`. -/
structure Took (maps : Nat → Option Key) (off : Nat → Nat) (limit : Nat) (s : Kernel) (bit : Nat)
    (k : Key) (j p : Nat) : Prop where
  map : maps j = some k
  number : bit = p + off j
  inBlock : p < BLOCK_BITS
  clear : getBit (s.view k) p = false
  below : bit < limit

/-- **The loop of `balloc` and `ialloc`.** -/
theorem allocLoop_spec {n i : Nat} {buf o : Option Key} {bit : Nat}
    (h : Runs C (allocLoop maps len off limit n i buf) s (o, bit) t) :
    (bit = EOF ∧ s = t ∧ (n = 0 ∨ len ≤ BLOCK_SIZE)) ∨
    ∃ k j p, o = some k ∧ Took maps off limit s bit k j p ∧ t = s.putBit k p true := by
  induction n generalizing i buf with
  | zero =>
    obtain ⟨h, rfl⟩ := h
    cases h
    exact .inl ⟨rfl, rfl, .inl rfl⟩
  | succ n ih =>
    obtain ⟨k, s₁, h₁, h⟩ := runs_bind.mp h
    rw [runs_need] at h₁
    obtain ⟨hk, rfl⟩ := h₁
    obtain ⟨map, s₂, ⟨rfl, rfl⟩, h⟩ := runs_bind.mp h
    obtain ⟨r, s₃, h₃, h⟩ := runs_bind.mp h
    rw [runs_lift] at h₃
    obtain ⟨hscan, rfl⟩ := h₃
    rcases bitmapScan_one hscan with ⟨rfl, hlen⟩ | ⟨p, hroom, hbit, rfl⟩
    · rcases ih h with ⟨h1, h2, -⟩ | h'
      · exact .inl ⟨h1, h2, .inr hlen⟩
      · exact .inr h'
    · obtain ⟨_, s₄, h₄, h⟩ := runs_bind.mp h
      rw [runs_poke] at h₄
      obtain ⟨_, s₅, h₅, h⟩ := runs_bind.mp h
      rw [runs_assert] at h₅
      obtain ⟨hlim, rfl⟩ := h₅
      obtain ⟨_, s₆, h₆, h⟩ := runs_bind.mp h
      rw [runs_setDirty] at h₆
      obtain ⟨hr, rfl⟩ := h
      obtain ⟨ho, hb⟩ := Prod.mk.inj hr
      refine .inr ⟨k, i, p, ho.symm, ⟨hk, hb.symm, ?_, hbit, hb ▸ of_decide_eq_true hlim⟩, ?_⟩
      · have : p / 8 < BLOCK_SIZE := hroom
        unfold BLOCK_BITS
        omega
      · rw [← h₆, ← h₄]
        rfl

/-- **The loop of `bfree` and `ifree`.** -/
theorem freeLoop_spec {idx n i : Nat} {k : Key} (h : Runs C (freeLoop maps len off idx n i) s k t) :
    ∃ j p, maps j = some k ∧ idx = p + off j ∧ p < BLOCK_BITS ∧ getBit (s.view k) p = true ∧
      t = s.putBit k p false := by
  induction n generalizing i with
  | zero => exact h.elim
  | succ n ih =>
    rcases runs_ite.mp h with ⟨_, h⟩ | ⟨_, h⟩
    · exact ih h
    · obtain ⟨k', s₁, h₁, h⟩ := runs_bind.mp h
      rw [runs_need] at h₁
      obtain ⟨hk, rfl⟩ := h₁
      obtain ⟨map, s₂, ⟨rfl, rfl⟩, h⟩ := runs_bind.mp h
      obtain ⟨set, s₃, h₃, h⟩ := runs_bind.mp h
      rw [runs_lift] at h₃
      obtain ⟨htest, rfl⟩ := h₃
      obtain ⟨_, s₄, h₄, h⟩ := runs_bind.mp h
      rw [runs_assert] at h₄
      obtain ⟨rfl, rfl⟩ := h₄
      obtain ⟨map', s₅, h₅, h⟩ := runs_bind.mp h
      rw [runs_lift] at h₅
      obtain ⟨hset, rfl⟩ := h₅
      obtain ⟨_, s₆, h₆, h⟩ := runs_bind.mp h
      rw [runs_poke] at h₆
      obtain ⟨_, s₇, h₇, h⟩ := runs_bind.mp h
      rw [runs_setDirty] at h₇
      obtain ⟨rfl, rfl⟩ := h
      obtain ⟨hoff, hroom, hbit⟩ := bitmapTest_ok htest
      refine ⟨i, idx - off i, hk, (Nat.sub_add_cancel hoff).symm, ?_, hbit, ?_⟩
      · have : (idx - off i) / 8 < BLOCK_SIZE := hroom
        unfold BLOCK_BITS
        omega
      · rw [← h₇, ← h₆, bitmapSet_ok hset]
        rfl

end Loops

end Yuios
