/-
  File:      Yuios/Lib/Blocks.lean
  Subject:   A MEMORY IN BLOCKS: a range of bytes cut at block boundaries, and put together again.

  * `copyIn_append` -- two copies, one behind the other, are one copy.
  * `flat B blk` -- blocks of `B` bytes as one memory, block 0 first.
  * `flat_copyIn` -- a copy inside one block is a copy in the memory, and `flat_piece` reads a piece
    of one block from the memory. The piece of a range from `p` on that its first block holds has
    `min (B - p % B) left` bytes and begins at `p % B`.
-/
import Yuios.Lib.Bytes

namespace Yuios.Lib

/-! ## 1. Copies in pieces -/

section Copies

variable {b src src' : Bytes} {off n m : Nat}

@[simp] theorem copyIn_zero : copyIn b off src 0 = b := by
  funext i
  exact copyIn_of_ne (by omega)

/-- Only the copied bytes of the source matter. -/
theorem copyIn_congr (h : ∀ j < n, src j = src' j) : copyIn b off src n = copyIn b off src' n := by
  funext i
  by_cases hi : off ≤ i ∧ i < off + n
  · rw [copyIn_of_mem hi.1 hi.2, copyIn_of_mem hi.1 hi.2]
    exact h _ (by omega)
  · rw [copyIn_of_ne (by omega), copyIn_of_ne (by omega)]

/-- A byte of a copy depends on that byte of the memory only. -/
theorem copyIn_at {b' : Bytes} {i : Nat} (h : b i = b' i) : copyIn b off src n i = copyIn b' off src n i := by
  unfold copyIn
  rw [h]

/-- **The second piece goes behind the first.** -/
theorem copyIn_append :
    copyIn (copyIn b off src n) (off + n) (fun j => src (n + j)) m = copyIn b off src (n + m) := by
  funext i
  by_cases h2 : off + n ≤ i ∧ i < off + n + m
  · rw [copyIn_of_mem h2.1 h2.2, copyIn_of_mem (by omega) (by omega)]
    exact congrArg src (by omega)
  · rw [copyIn_of_ne (by omega)]
    by_cases h1 : off ≤ i ∧ i < off + n
    · rw [copyIn_of_mem h1.1 h1.2, copyIn_of_mem h1.1 (by omega)]
    · rw [copyIn_of_ne (by omega), copyIn_of_ne (by omega)]

end Copies

/-! ## 2. Blocks -/

/-- Blocks of `B` bytes, one behind the other. -/
def flat (B : Nat) (blk : Nat → Bytes) : Bytes := fun p => blk (p / B) (p % B)

section Flat

variable {B p : Nat} {blk blk' : Nat → Bytes} {src : Bytes} {n m j : Nat}

/-- The block that `p` lies in goes on to its end. -/
theorem div_in_block (h : p % B + j < B) : (p + j) / B = p / B := by
  have hp := Nat.div_add_mod p B
  refine Nat.div_eq_of_lt_le ?_ ?_
  · rw [Nat.mul_comm]
    omega
  · rw [Nat.mul_comm, Nat.mul_add, Nat.mul_one]
    omega

/-- A byte of the block that `p` lies in. -/
theorem flat_piece (h : j < B - p % B) : flat B blk (p + j) = blk (p / B) (p % B + j) := by
  have hdiv : (p + j) / B = p / B := div_in_block (by omega)
  have hmod : (p + j) % B = p % B + j := by
    have hp := Nat.div_add_mod p B
    have := Nat.div_add_mod (p + j) B
    rw [hdiv] at this
    omega
  rw [flat, hdiv, hmod]

/-- **A copy inside a block**; the other blocks below `m` are the same. -/
theorem flat_copyIn (hn : n ≤ B - p % B)
    (hself : blk' (p / B) = copyIn (blk (p / B)) (p % B) src n)
    (hother : ∀ b < m, b ≠ p / B → blk' b = blk b) {q : Nat} (hq : q < m * B) :
    flat B blk' q = copyIn (flat B blk) p src n q := by
  have hp := Nat.div_add_mod p B
  by_cases hb : q / B = p / B
  · have hqq := Nat.div_add_mod q B
    rw [hb] at hqq
    rw [flat, hb, hself]
    by_cases hr : p % B ≤ q % B ∧ q % B < p % B + n
    · rw [copyIn_of_mem hr.1 hr.2, copyIn_of_mem (by omega) (by omega)]
      exact congrArg src (by omega)
    · rw [copyIn_of_ne (by omega), copyIn_of_ne (by omega), flat, hb]
  · have hout : q < p ∨ p + n ≤ q := by
      by_contra hc
      obtain ⟨k, rfl⟩ := Nat.exists_eq_add_of_le (show p ≤ q by omega)
      exact hb (div_in_block (by omega))
    rw [copyIn_of_ne hout, flat, flat, hother _ (Nat.div_lt_of_lt_mul (Nat.mul_comm .. ▸ hq)) hb]

end Flat

end Yuios.Lib
