/-
  File:      Yuios/Fs/Scan.lean
  Subject:   WHERE THE ALLOCATORS LOOK, AND WHERE THEY STOP: the scan of one bitmap block and the
             loops over the blocks, computed.

  `Yuios/Fs/Alloc.lean` says what a call that comes to its end has done. This file says when it
  comes to its end, and which bit it takes:

  * `bitmapScan_at`, `bitmapScan_full`, `bitmapScan_out` -- the scan takes the lowest clear bit;
    over a full block it finds nothing, or runs out of the buffer when the length it was given
    is longer than the block.
  * `allocLoop_found`, ... -- one round of the loop of `balloc` and `ialloc`.
  * `freeLoop_here` -- the freeing calls pick block `(idx - 1) / BLOCK_BITS`, whatever the offset
    of the bitmap is.
-/
import Yuios.Fs.Volume

namespace Yuios

open Lib Prog Code

/-! ## 1. One block -/

section Scan

variable {map : Bitmap} {p : Nat}

theorem bitmapTest_at (hlen : p < map.length * 8) (hroom : p < map.room * 8) :
    bitmapTest map (map.offset + p) = .ok (getBit map.bits p) := by
  unfold bitmapTest
  rw [Nat.add_sub_cancel_left, if_neg (by omega), if_neg (by omega), if_neg (by omega)]

theorem bitmapSet_at {v : Bool} (hroom : p < map.room * 8) :
    bitmapSet map (map.offset + p) v = .ok { map with bits := setBit map.bits p v } := by
  unfold bitmapSet
  rw [Nat.add_sub_cancel_left, if_neg (by omega), if_neg (by omega)]

/-- Bits that are set are passed over. -/
theorem scanLoop_skip {n b m : Nat} (hset : ∀ j, b ≤ j → j < b + m → getBit map.bits j = true)
    (hlen : b + m ≤ map.length * 8) (hroom : b + m ≤ map.room * 8) :
    scanLoop map 1 (m + n) b 0 = scanLoop map 1 n (b + m) 0 := by
  induction m generalizing b with
  | zero => rw [Nat.zero_add, Nat.add_zero]
  | succ m ih =>
    rw [show m + 1 + n = (m + n) + 1 by omega, scanLoop]
    rw [bitmapTest_at (p := b) (by omega) (by omega), hset b (Nat.le_refl b) (by omega)]
    show scanLoop map 1 (m + n) (b + 1) 0 = _
    rw [ih (fun j h1 h2 => hset j (by omega) (by omega)) (by omega) (by omega)]
    rw [show b + 1 + m = b + (m + 1) by omega]

/-- The bits before `p` are set, `p` is clear. -/
structure Lowest (b : Bytes) (p : Nat) : Prop where
  clear : getBit b p = false
  below : ∀ j < p, getBit b j = true

/-- The bits of a block are all set. -/
def Full (b : Bytes) : Prop := ∀ j < BLOCK_BITS, getBit b j = true

/-- A block that is not full has a lowest clear bit. -/
theorem full_or_lowest (b : Bytes) : Full b ∨ ∃ p < BLOCK_BITS, Lowest b p := by
  by_cases h : ∃ p, p < BLOCK_BITS ∧ getBit b p = false
  · obtain ⟨h1, h2⟩ := Nat.find_spec h
    refine .inr ⟨Nat.find h, h1, h2, fun j hj => ?_⟩
    have := Nat.find_min h hj
    simpa [show j < BLOCK_BITS by omega] using this
  · refine .inl fun j hj => ?_
    by_contra hn
    exact h ⟨j, hj, by simpa using hn⟩

/-- **The scan takes the lowest clear bit.** -/
theorem bitmapScan_at (map : Bitmap) (hp : Lowest map.bits p) (hlen : p < map.length * 8)
    (hroom : p < map.room * 8) :
    bitmapScan map 1 =
      .ok (some (p + map.offset, { map with bits := setBit map.bits p true })) := by
  have hscan : scanLoop map 1 (map.length * 8) 0 0 = .ok (some p) := by
    rw [show map.length * 8 = p + (map.length * 8 - p - 1 + 1) by omega]
    rw [scanLoop_skip (fun j _ h => hp.below j (by omega)) (by omega) (by omega), Nat.zero_add]
    rw [scanLoop, bitmapTest_at hlen hroom, hp.clear]
    rfl
  unfold bitmapScan
  rw [hscan]
  show ((do
    let map' ← markLoop map 1 p
    return some (p + map.offset, map')) : Except Stop _) = _
  rw [markLoop, bitmapSet_at hroom]
  rfl

/-- Over a full block the scan finds nothing. -/
theorem bitmapScan_full (map : Bitmap) (hset : Full map.bits) (hlen : map.length ≤ BLOCK_SIZE)
    (hroom : map.room = BLOCK_SIZE) : bitmapScan map 1 = .ok none := by
  have hscan : scanLoop map 1 (map.length * 8) 0 0 = .ok none := by
    rw [show map.length * 8 = map.length * 8 + 0 by omega]
    unfold Full BLOCK_BITS at hset
    exact scanLoop_skip (fun j _ h => hset j (by omega)) (by omega) (by omega)
  unfold bitmapScan
  rw [hscan]
  rfl

/-- **The scan runs out of the buffer** when the block is full and the length too long. -/
theorem bitmapScan_out (map : Bitmap) (hset : Full map.bits) (hlen : BLOCK_SIZE < map.length)
    (hroom : map.room = BLOCK_SIZE) : bitmapScan map 1 = .error .outOfBuffer := by
  have hscan : scanLoop map 1 (map.length * 8) 0 0 = .error .outOfBuffer := by
    rw [show map.length * 8 = BLOCK_BITS + (map.length * 8 - BLOCK_BITS - 1 + 1) by
      unfold BLOCK_BITS; omega]
    rw [scanLoop_skip (fun j _ h => hset j (by omega)) (by unfold BLOCK_BITS; omega)
      (by unfold BLOCK_BITS; omega), scanLoop]
    have htest : bitmapTest map (map.offset + (0 + BLOCK_BITS)) = .error .outOfBuffer := by
      unfold bitmapTest
      rw [Nat.add_sub_cancel_left, if_neg (by omega), if_neg (by unfold BLOCK_BITS; omega),
        if_pos (by unfold BLOCK_BITS; omega)]
    rw [htest]
    rfl
  unfold bitmapScan
  rw [hscan]
  rfl

end Scan

/-! ## 2. The loops -/

theorem run_lift {α : Type} {x : Except Stop α} {s : Kernel} :
    (lift x).run s = x.map fun a => (a, s) := by
  cases x <;> rfl

theorem run_bitmapMake {s : Kernel} {k : Key} {length offset : Nat} :
    (bitmapMake k length offset).run s = .ok (⟨s.view k, length, offset, BLOCK_SIZE⟩, s) := rfl

theorem run_poke {s : Kernel} {k : Key} {f : Bytes → Bytes} :
    (poke k f).run s = .ok ((), s.poke k f) := rfl

theorem run_assert {s : Kernel} {c : Bool} :
    (Code.assert c).run s = if c then .ok ((), s) else .error .assertion := run_check

section Loops

variable {maps : Nat → Option Key} {len limit n i : Nat} {off : Nat → Nat} {s : Kernel}
  {buf : Option Key} {k : Key}

/-- A NULL block fails the assertion. -/
theorem allocLoop_null (hk : maps i = none) :
    (allocLoop maps len off limit (n + 1) i buf).run s = .error .assertion := by
  show Prog.run (Prog.need Stop.assertion (maps i) >>= _) s = _
  rw [hk]
  rfl

/-- A round whose scan comes to `r`. -/
theorem allocLoop_round (hk : maps i = some k) {r : Except Stop (Option (Nat × Bitmap))}
    (hr : bitmapScan ⟨s.view k, len, off i, BLOCK_SIZE⟩ 1 = r) :
    (allocLoop maps len off limit (n + 1) i buf).run s =
      (r.map fun a => (a, s)).bind fun b => Prog.run (match b.1 with
        | none => allocLoop maps len off limit n (i + 1) (some k)
        | some (bit, map) => do
          poke k fun _ => map.bits
          Code.assert (bit < limit)
          setDirty k
          return (some k, bit)) b.2 := by
  show Prog.run (Prog.need Stop.assertion (maps i) >>= _) s = _
  subst hr
  rw [hk, run_then rfl, run_then run_bitmapMake]
  exact (run_bind _ _).trans (congrArg (fun x => Except.bind x _) run_lift)

/-- A block with a clear bit gives its lowest one, if its number is below the limit. -/
theorem allocLoop_found {p : Nat} (hk : maps i = some k) (hp : Lowest (s.view k) p)
    (hlt : p < BLOCK_BITS) (hlen : BLOCK_SIZE ≤ len) :
    (allocLoop maps len off limit (n + 1) i buf).run s =
      if p + off i < limit then .ok ((some k, p + off i), s.putBit k p true)
      else .error .assertion := by
  unfold BLOCK_BITS at hlt
  have hscan := bitmapScan_at ⟨s.view k, len, off i, BLOCK_SIZE⟩ hp
    (show p < len * 8 by omega) (by omega)
  rw [allocLoop_round hk hscan]
  show Prog.run (poke k _ >>= _) s = _
  rw [run_then run_poke]
  by_cases h : p + off i < limit
  · rw [if_pos h, run_then (by rw [run_assert, if_pos (decide_eq_true h)])]
    rfl
  · rw [if_neg h]
    exact run_stopped (by rw [run_assert, if_neg (by simpa using h)])

/-- A full block is passed over. -/
theorem allocLoop_next (hk : maps i = some k) (hfull : Full (s.view k)) :
    (allocLoop maps BLOCK_SIZE off limit (n + 1) i buf).run s =
      (allocLoop maps BLOCK_SIZE off limit n (i + 1) (some k)).run s :=
  allocLoop_round hk (bitmapScan_full ⟨s.view k, BLOCK_SIZE, off i, BLOCK_SIZE⟩ hfull (Nat.le_refl _) rfl)

/-- A full block that the code takes to be longer than it is. -/
theorem allocLoop_out (hk : maps i = some k) (hfull : Full (s.view k)) (hlen : BLOCK_SIZE < len) :
    (allocLoop maps len off limit (n + 1) i buf).run s = .error .outOfBuffer :=
  allocLoop_round hk (bitmapScan_out ⟨s.view k, len, off i, BLOCK_SIZE⟩ hfull hlen rfl)

variable {idx : Nat}

/-- The blocks before `(idx - 1) / BLOCK_BITS` are skipped. -/
theorem freeLoop_skip {m : Nat} (h : ∀ j, i ≤ j → j < i + m → BLOCK_BITS * (j + 1) < idx) :
    (freeLoop maps len off idx (m + n) i).run s = (freeLoop maps len off idx n (i + m)).run s := by
  induction m generalizing i with
  | zero => rw [Nat.zero_add, Nat.add_zero]
  | succ m ih =>
    rw [show m + 1 + n = (m + n) + 1 by omega]
    show Prog.run (if idx > BLOCK_BITS * (i + 1) then _ else _) s = _
    rw [if_pos (h i (Nat.le_refl i) (by omega)), ih fun j h1 h2 => h j (by omega) (by omega),
      show i + 1 + m = i + (m + 1) by omega]

/-- The block the freeing calls pick. -/
theorem freeLoop_pick {j : Nat} (hj : j = (idx - 1) / BLOCK_BITS) (hn : j < n) :
    (freeLoop maps len off idx n 0).run s = (freeLoop maps len off idx (n - j) j).run s := by
  unfold BLOCK_BITS at hj
  obtain ⟨m, rfl⟩ := Nat.exists_eq_add_of_le (Nat.le_of_lt hn)
  rw [Nat.add_sub_cancel_left, freeLoop_skip (m := j) (n := m) (fun i _ h => ?_), Nat.zero_add]
  unfold BLOCK_BITS BLOCK_SIZE at *
  omega

/-- **The freeing calls at the block they pick.** -/
theorem freeLoop_here (h : idx ≤ BLOCK_BITS * (i + 1)) :
    (freeLoop maps len off idx (n + 1) i).run s =
      match maps i with
      | none => .error .assertion
      | some k =>
        if idx < off i then .error .assertion
        else if len ≤ (idx - off i) / 8 then .error .assertion
        else if BLOCK_SIZE ≤ (idx - off i) / 8 then .error .outOfBuffer
        else if getBit (s.view k) (idx - off i) then .ok (k, s.putBit k (idx - off i) false)
        else .error .assertion := by
  show Prog.run (if idx > BLOCK_BITS * (i + 1) then _ else _) s = _
  rw [if_neg (Nat.not_lt.mpr h)]
  cases maps i with
  | none => rfl
  | some k =>
    dsimp only
    rw [run_then rfl, run_then run_bitmapMake]
    set map : Bitmap := ⟨s.view k, len, off i, BLOCK_SIZE⟩ with hmap
    by_cases h1 : idx < off i
    · rw [if_pos h1]
      exact run_stopped (by rw [run_lift, bitmapTest, if_pos h1]; rfl)
    · rw [if_neg h1]
      by_cases h2 : len ≤ (idx - off i) / 8
      · rw [if_pos h2]
        exact run_stopped (by rw [run_lift, bitmapTest, if_neg h1, if_pos h2]; rfl)
      · rw [if_neg h2]
        by_cases h3 : BLOCK_SIZE ≤ (idx - off i) / 8
        · rw [if_pos h3]
          exact run_stopped (by rw [run_lift, bitmapTest, if_neg h1, if_neg h2, if_pos h3]; rfl)
        · rw [if_neg h3]
          have htest : bitmapTest map idx = .ok (getBit (s.view k) (idx - off i)) := by
            rw [bitmapTest, if_neg h1, if_neg h2, if_neg h3]
          have hset : bitmapSet map idx false =
              .ok { map with bits := setBit (s.view k) (idx - off i) false } := by
            rw [bitmapSet, if_neg h1, if_neg h3]
          rw [run_then (by rw [run_lift, htest]; rfl)]
          by_cases hbit : getBit (s.view k) (idx - off i) = true
          · rw [if_pos hbit, hbit, run_then rfl, run_then (by rw [run_lift, hset]; rfl)]
            rfl
          · rw [if_neg hbit]
            exact run_stopped (by rw [run_assert, if_neg hbit])

/-- The block picked has the number's bit. -/
theorem freeLoop_clears {p : Nat} (h : idx ≤ BLOCK_BITS * (i + 1)) (hk : maps i = some k)
    (hidx : idx = p + off i) (hp : p < BLOCK_BITS) (hlen : BLOCK_SIZE ≤ len)
    (hset : getBit (s.view k) p = true) :
    (freeLoop maps len off idx (n + 1) i).run s = .ok (k, s.putBit k p false) := by
  have hsub : idx - off i = p := by omega
  unfold BLOCK_BITS at hp
  rw [freeLoop_here h, hk]
  dsimp only
  rw [hsub, if_neg (by omega), if_neg (by omega), if_neg (by omega), if_pos hset]

/-- The block picked starts behind the number's bit, or is not there. -/
theorem freeLoop_before (h : idx ≤ BLOCK_BITS * (i + 1)) (hoff : idx < off i) :
    (freeLoop maps len off idx (n + 1) i).run s = .error .assertion := by
  rw [freeLoop_here h]
  cases maps i with
  | none => rfl
  | some k => exact if_pos hoff

/-- The number's bit would come behind the end of the block picked. -/
theorem freeLoop_out (h : idx ≤ BLOCK_BITS * (i + 1)) (hk : maps i = some k)
    (hoff : off i + BLOCK_BITS ≤ idx) (hlen : (idx - off i) / 8 < len) :
    (freeLoop maps len off idx (n + 1) i).run s = .error .outOfBuffer := by
  unfold BLOCK_BITS at hoff
  rw [freeLoop_here h, hk]
  dsimp only
  rw [if_neg (by omega), if_neg (by omega), if_pos (by omega)]

end Loops

end Yuios
