/-
  File:      Yuios/Kernel/WordScan.lean
  Subject:   `bitmap_scan` of `lib/bitmap.c` IN 32-BIT WORDS, on bitmaps of any length.

  The bitmap is its `length` bytes and nothing else: `bitmap_test` asserts that it stays inside, and where
  `bitmap_set` would leave it the model stops.

  * `bitmapTest`, `bitmapSet`, `bitmapScan` -- the code.
  * `searchLoop_eq`, `markLoop_eq` -- while no sum reaches 2^31 the words count as natural numbers do.
  * **`bitmapScan_first`** -- the first run of clear bits is taken, and nothing else changes.
-/
import Yuios.Kernel.KernelPages

namespace Yuios.WordScan

open Lib
open Paging (ClearRun Found)

/-! ## 1. The code -/

def EOF : Int32 := -1

/-- A `bitmap_t`. -/
structure Map where
  bits : Bytes
  length : UInt32
  offset : UInt32

def bitmapTest (map : Map) (index : UInt32) : Except Stop Bool :=
  if index < map.offset then .error .assertion
  else
    let idx := index - map.offset
    if map.length ≤ idx / 8 then .error .assertion
    else .ok (getBit map.bits idx.toNat)

def bitmapSet (map : Map) (index : UInt32) (value : Bool) : Except Stop Map :=
  if index < map.offset then .error .assertion
  else
    let idx := index - map.offset
    if map.length ≤ idx / 8 then .error .outOfBuffer
    else .ok { map with bits := setBit map.bits idx.toNat value }

/-- The loop that looks for the run, with so many bits left. -/
def searchLoop (map : Map) (count : UInt32) : (bitsLeft : Nat) → (nextBit counter : UInt32) → Except Stop Int32
  | 0, _, _ => .ok EOF
  | bitsLeft + 1, nextBit, counter => do
    let set ← bitmapTest map (map.offset + nextBit)
    let counter := if set then 0 else counter + 1
    let nextBit := nextBit + 1
    if counter = count then
      return (nextBit - count).toInt32
    else
      searchLoop map count bitsLeft nextBit counter

/-- The loop that sets the bits of the run. -/
def markLoop : (map : Map) → (bitsLeft : Nat) → (nextBit : UInt32) → Except Stop Map
  | map, 0, _ => .ok map
  | map, bitsLeft + 1, nextBit => do
    let map ← bitmapSet map (map.offset + nextBit) true
    markLoop map bitsLeft (nextBit + 1)

def bitmapScan (map : Map) (count : UInt32) : Except Stop (Int32 × Map) := do
  let start ← searchLoop map count (map.length * 8).toNat 0 0
  if start = EOF then
    return (EOF, map)
  else
    let map ← markLoop map count.toNat start.toUInt32
    return ((start.toUInt32 + map.offset).toInt32, map)

/-! ## 2. As natural numbers -/

/-- The bitmap with natural numbers. -/
def Map.nat (map : Map) : Bitmap := ⟨map.bits, map.length.toNat, map.offset.toNat, map.length.toNat⟩

/-- What the search answers. -/
def startOf : Option Nat → Int32
  | none => EOF
  | some i => Int32.ofNat i

section Words

variable {map : Map} {count next counter : UInt32} {left n i : Nat}

theorem bitmapTest_eq (map : Map) (index : UInt32) : bitmapTest map index = Yuios.bitmapTest map.nat index.toNat := by
  have hlow : index < map.offset ↔ index.toNat < map.offset.toNat := UInt32.lt_iff_toNat_lt
  unfold bitmapTest Yuios.bitmapTest Map.nat
  by_cases h : index < map.offset
  · rw [if_pos h, if_pos (hlow.mp h)]
  · have hle : map.offset ≤ index := UInt32.not_lt.mp h
    rw [if_neg h, if_neg (mt hlow.mpr h)]
    have hidx : (index - map.offset).toNat = index.toNat - map.offset.toNat := UInt32.toNat_sub_of_le _ _ hle
    have hlen : map.length ≤ (index - map.offset) / 8 ↔ map.length.toNat ≤ (index.toNat - map.offset.toNat) / 8 := by
      rw [UInt32.le_iff_toNat_le, UInt32.toNat_div, hidx]
      rfl
    by_cases hin : map.length ≤ (index - map.offset) / 8
    · rw [if_pos (hlen.mp hin)]
      exact if_pos hin
    · rw [if_neg (mt hlen.mpr hin), if_neg (mt hlen.mpr hin), ← hidx]
      exact if_neg hin

theorem toNat_add {a b : UInt32} (h : a.toNat + b.toNat < 2 ^ 31) : (a + b).toNat = a.toNat + b.toNat := by
  rw [UInt32.toNat_add]
  omega

theorem toNat_succ {a : UInt32} (h : a.toNat + 1 < 2 ^ 31) : (a + 1).toNat = a.toNat + 1 := toNat_add h

theorem toInt32_eq (a : UInt32) : a.toInt32 = Int32.ofNat a.toNat := by
  rw [show Int32.ofNat a.toNat = (UInt32.ofNat a.toNat).toInt32 from rfl, UInt32.ofNat_toNat]

/-- The search with words is the search with natural numbers. -/
theorem searchLoop_eq (hbound : map.offset.toNat + (next.toNat + left) < 2 ^ 31) (hle : counter.toNat ≤ next.toNat) :
    searchLoop map count left next counter =
      (scanLoop map.nat count.toNat left next.toNat counter.toNat).map startOf := by
  induction left generalizing next counter with
  | zero => rfl
  | succ left ih =>
    have hnext : (next + 1).toNat = next.toNat + 1 := toNat_succ (by omega)
    have hcounter : (counter + 1).toNat = counter.toNat + 1 := toNat_succ (by omega)
    unfold searchLoop scanLoop
    rw [bitmapTest_eq, toNat_add (by omega), show map.nat.offset = map.offset.toNat from rfl]
    cases Yuios.bitmapTest map.nat (map.offset.toNat + next.toNat) with
    | error e => rfl
    | ok set =>
      obtain ⟨c, hc⟩ : ∃ c : UInt32, c = if set then 0 else counter + 1 := ⟨_, rfl⟩
      have hcn : c.toNat = if set then 0 else counter.toNat + 1 := by
        rw [hc]
        cases set
        · exact hcounter
        · rfl
      have hcle : c.toNat ≤ (next + 1).toNat := by
        rw [hcn, hnext]
        split <;> omega
      show (if (if set = true then 0 else counter + 1) = count then _ else _) =
        Except.map startOf (if (if set = true then 0 else counter.toNat + 1) = count.toNat then _ else _)
      rw [← hc, ← hcn]
      by_cases heq : c = count
      · rw [if_pos heq, if_pos (congrArg UInt32.toNat heq)]
        have hsub : (next + 1 - count).toNat = next.toNat + 1 - count.toNat := by
          rw [UInt32.toNat_sub_of_le _ _ (UInt32.le_iff_toNat_le.mpr (heq ▸ hcle)), hnext]
        show Except.ok (next + 1 - count).toInt32 = Except.ok (Int32.ofNat (next.toNat + 1 - count.toNat))
        rw [← hsub, toInt32_eq]
      · rw [if_neg heq, if_neg (mt UInt32.toNat_inj.mp heq)]
        show searchLoop map count left (next + 1) c = _
        rw [ih (by omega) hcle, hnext]

/-- A run inside the bitmap is set bit by bit. -/
theorem markLoop_eq (hbound : map.offset.toNat + 8 * map.length.toNat < 2 ^ 31)
    (hin : next.toNat + n ≤ 8 * map.length.toNat) : ∃ bits, markLoop map n next = .ok { map with bits } ∧
      ∀ k, getBit bits k = if next.toNat ≤ k ∧ k < next.toNat + n then true else getBit map.bits k := by
  induction n generalizing map next with
  | zero => exact ⟨map.bits, rfl, fun k => by rw [if_neg (by omega)]⟩
  | succ n ih =>
    have hnext : (next + 1).toNat = next.toNat + 1 := toNat_succ (by omega)
    have hindex : (map.offset + next).toNat = map.offset.toNat + next.toNat := toNat_add (by omega)
    have hlow : ¬map.offset + next < map.offset := by
      rw [UInt32.lt_iff_toNat_lt, hindex]
      omega
    have hidx : (map.offset + next - map.offset).toNat = next.toNat := by
      rw [UInt32.toNat_sub_of_le _ _ (UInt32.not_lt.mp hlow), hindex, Nat.add_sub_cancel_left]
    have hlen : ¬map.length ≤ (map.offset + next - map.offset) / 8 := by
      rw [UInt32.le_iff_toNat_le, UInt32.toNat_div, hidx]
      show ¬map.length.toNat ≤ next.toNat / 8
      omega
    have hset : bitmapSet map (map.offset + next) true = .ok { map with bits := setBit map.bits next.toNat true } := by
      unfold bitmapSet
      rw [if_neg hlow]
      dsimp only
      rw [if_neg hlen, hidx]
    have hin' : (next + 1).toNat + n ≤ 8 * map.length.toNat := by omega
    obtain ⟨bits, hrun, hbits⟩ := @ih { map with bits := setBit map.bits next.toNat true } (next + 1) hbound hin'
    refine ⟨bits, ?_, fun k => ?_⟩
    · rw [markLoop, hset]
      exact hrun
    · rw [hbits, hnext]
      dsimp only
      rw [getBit_setBit]
      by_cases e : k = next.toNat
      · simp [e]
      · have : next.toNat + 1 ≤ k ∧ k < next.toNat + 1 + n ↔ next.toNat ≤ k ∧ k < next.toNat + (n + 1) := by omega
        simp only [e, if_false, this]

end Words

/-! ## 3. The scan -/

/-- `count` bits from bit `i` on are clear, and lie in the bitmap. -/
def Run (map : Map) (count i : Nat) : Prop :=
  i + count ≤ 8 * map.length.toNat ∧ ∀ k, i ≤ k → k < i + count → getBit map.bits k = false

/-- **The smallest start of such a run.** -/
def First (map : Map) (count i : Nat) : Prop := Run map count i ∧ ∀ j < i, ¬Run map count j

/-- **`bitmap_scan` on every bitmap**: without a run of `count` clear bits it answers `EOF` and changes
    nothing; else it answers where the first one starts, and sets its bits and no others. -/
theorem bitmapScan_first (map : Map) (count : UInt32) (hbound : map.offset.toNat + 8 * map.length.toNat < 2 ^ 31)
    (hcount : 0 < count) :
    ((∀ i, ¬Run map count.toNat i) → bitmapScan map count = .ok (EOF, map)) ∧
      ∀ i, First map count.toNat i → ∃ bits,
        bitmapScan map count = .ok (Int32.ofNat (map.offset.toNat + i), { map with bits }) ∧
          ∀ k, getBit bits k = if i ≤ k ∧ k < i + count.toNat then true else getBit map.bits k := by
  have hlength : (map.length * 8).toNat = 8 * map.length.toNat := by
    rw [UInt32.toNat_mul]
    show map.length.toNat * 8 % 2 ^ 32 = _
    omega
  have hcount' : 0 < count.toNat := UInt32.lt_iff_toNat_lt.mp hcount
  have hnone : ClearRun map.nat (0 - 0) 0 := fun k h1 h2 => absurd h2 (by omega)
  have hleft : 0 + 8 * map.length.toNat = map.nat.length * 8 := (Nat.zero_add _).trans (Nat.mul_comm _ _)
  obtain ⟨r, hr, hfound⟩ := Paging.scanLoop_spec (Nat.le_refl _) hleft hcount' (Nat.le_refl 0) hnone
    (fun h => absurd h (by omega)) (fun i hi => absurd hi (by omega))
  have hsearch : searchLoop map count (map.length * 8).toNat 0 0 = .ok (startOf r) := by
    have heq : searchLoop map count (8 * map.length.toNat) 0 0 = _ :=
      searchLoop_eq (show map.offset.toNat + (0 + 8 * map.length.toNat) < 2 ^ 31 by omega) (Nat.le_refl _)
    rw [hlength, heq]
    exact congrArg (Except.map startOf) hr
  have hrun : ∀ i, Run map count.toNat i ↔ i + count.toNat ≤ map.nat.length * 8 ∧ ClearRun map.nat i count.toNat := by
    intro i
    rw [Run, Nat.mul_comm]
    rfl
  cases r with
  | none =>
    refine ⟨fun _ => ?_, fun i hi => absurd ((hrun i).mp hi.1).2 (hfound i ((hrun i).mp hi.1).1)⟩
    rw [bitmapScan, hsearch]
    rfl
  | some i =>
    obtain ⟨hin, hclear, hlow⟩ := hfound
    have hi : Run map count.toNat i := (hrun i).mpr ⟨hin, hclear⟩
    refine ⟨fun hno => absurd hi (hno i), fun j hj => ?_⟩
    obtain rfl : i = j := by
      have h1 : ¬i < j := fun hlt => hj.2 i hlt hi
      have h2 : ¬j < i := fun hlt => hlow j hlt ((hrun j).mp hj.1).2
      omega
    have hend := hi.1
    have hword : (startOf (some i)).toUInt32 = UInt32.ofNat i := rfl
    have htoNat : (UInt32.ofNat i).toNat = i := UInt32.toNat_ofNat_of_lt' (show i < 2 ^ 32 by omega)
    have hne : Int32.ofNat i ≠ EOF := by
      intro e
      have := congrArg Int32.toInt e
      rw [Int32.toInt_ofNat_of_lt (by omega)] at this
      exact absurd this (by show ¬(i : Int) = -1; omega)
    have hend' : (UInt32.ofNat i).toNat + count.toNat ≤ 8 * map.length.toNat := by rwa [htoNat]
    obtain ⟨bits, hmark, hbits⟩ := markLoop_eq hbound hend'
    rw [htoNat] at hbits
    refine ⟨bits, ?_, hbits⟩
    rw [bitmapScan, hsearch]
    show (if Int32.ofNat i = EOF then _ else _) = _
    rw [if_neg hne, hword, hmark]
    show Except.ok ((UInt32.ofNat i + map.offset).toInt32, _) = _
    rw [toInt32_eq, toNat_add (by omega), htoNat, Nat.add_comm]

/-- One byte with bits 0 and 2 set: a run of two starts at bit 3. -/
theorem bitmapScan_first_byte : ∃ bits, bitmapScan ⟨fun _ => 5, 1, 100⟩ 2 = .ok (103, ⟨bits, 1, 100⟩) := by
  have hfirst : First ⟨fun _ => 5, 1, 100⟩ (2 : UInt32).toNat 3 := by
    refine ⟨⟨by decide, fun k h1 h2 => ?_⟩, fun j hj hrun => ?_⟩
    · obtain rfl | rfl : k = 3 ∨ k = 4 := by
        have : k < 3 + 2 := h2
        omega
      · decide
      · decide
    · have h2 : 0 < (2 : UInt32).toNat := by decide
      obtain rfl | rfl | rfl : j = 0 ∨ j = 1 ∨ j = 2 := by omega
      · exact absurd (hrun.2 0 (by decide) (by decide)) (by decide)
      · exact absurd (hrun.2 2 (by decide) (by decide)) (by decide)
      · exact absurd (hrun.2 2 (by decide) (by decide)) (by decide)
  obtain ⟨bits, hscan, -⟩ := (bitmapScan_first ⟨fun _ => 5, 1, 100⟩ 2 (by decide) (by decide)).2 3 hfirst
  exact ⟨bits, hscan⟩

end Yuios.WordScan
