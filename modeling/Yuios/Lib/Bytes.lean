/-
  File:      Yuios/Lib/Bytes.lean
  Subject:   BYTE MEMORIES: a memory is a function from offsets to bytes; little-endian fields
             and single bits are read from it and written to it.

  Nothing here knows what the bytes are for. The file fixes

  * `fetch b off n` / `store b off n v` -- the unsigned little-endian number in the `n` bytes
    from `off` on, and the memory with that field set to `v` (cut to `n` bytes);
  * `getBit b i` / `setBit b i v` -- bit `i % 8` of byte `i / 8`;
  * `copyIn b off src n` -- the memory with `n` bytes of `src` copied to `off`;

  with one read-back lemma for each (`fetch_store_self`, `getBit_setBit`) and one frame lemma
  (`fetch_store_ne`, `fetch_copyIn_ne`, ...). A user never unfolds the definitions: a field that
  does not meet the written range is unchanged, and the side condition is linear arithmetic.
-/
import Mathlib.Data.Nat.Bitwise
import Mathlib.Tactic.Ring

namespace Yuios.Lib

/-- A byte memory, total in the offset. -/
abbrev Bytes := Nat → UInt8

/-! ## 1. Little-endian fields -/

/-- The number in the `n` bytes of `b` from `off` on, least significant byte first. -/
def fetch (b : Bytes) (off : Nat) : Nat → Nat
  | 0 => 0
  | n + 1 => (b off).toNat + 256 * fetch b (off + 1) n

/-- `b` with the `n` bytes from `off` on holding `v`; higher bytes of `v` are cut off. -/
def store (b : Bytes) (off n v : Nat) : Bytes := fun i =>
  if off ≤ i ∧ i < off + n then UInt8.ofNat (v / 256 ^ (i - off)) else b i

/-- A number depends on its bytes, wherever they are. -/
theorem fetch_shift {b b' : Bytes} {p q n : Nat} (h : ∀ j < n, b (p + j) = b' (q + j)) :
    fetch b p n = fetch b' q n := by
  induction n generalizing p q with
  | zero => rfl
  | succ n ih =>
    have h0 : b p = b' q := h 0 (Nat.succ_pos n)
    have hrest : fetch b (p + 1) n = fetch b' (q + 1) n := ih fun j hj => by
      rw [Nat.add_assoc, Nat.add_assoc, Nat.add_comm 1 j]
      exact h (j + 1) (by omega)
    simp only [fetch, h0, hrest]

theorem fetch_congr {b b' : Bytes} {off n : Nat}
    (h : ∀ i, off ≤ i → i < off + n → b i = b' i) : fetch b off n = fetch b' off n :=
  fetch_shift fun j hj => h (off + j) (Nat.le_add_right _ _) (by omega)

theorem fetch_lt (b : Bytes) (off n : Nat) : fetch b off n < 256 ^ n := by
  induction n generalizing off with
  | zero => simp [fetch]
  | succ n ih =>
    have h := ih (off + 1)
    have hb := (b off).toNat_lt
    simp only [fetch, Nat.pow_succ]
    omega

/-- A byte outside the written field is unchanged. -/
theorem store_of_ne {b : Bytes} {off n v i : Nat} (h : i < off ∨ off + n ≤ i) :
    store b off n v i = b i := by
  unfold store
  rw [if_neg (by omega)]

theorem fetch_store_ne {b : Bytes} {off n v off' n' : Nat}
    (h : off' + n' ≤ off ∨ off + n ≤ off') :
    fetch (store b off n v) off' n' = fetch b off' n' :=
  fetch_congr fun _ _ _ => store_of_ne (by omega)

/-- **Read back**: the written field holds the value, cut to its width. -/
theorem fetch_store_self (b : Bytes) (off n v : Nat) :
    fetch (store b off n v) off n = v % 256 ^ n := by
  induction n generalizing off v with
  | zero => simp [fetch, Nat.mod_one]
  | succ n ih =>
    have hcong : fetch (store b off (n + 1) v) (off + 1) n
        = fetch (store b (off + 1) n (v / 256)) (off + 1) n :=
      fetch_congr fun i h1 h2 => by
        unfold store
        rw [if_pos (by omega), if_pos (by omega)]
        have e : i - off = (i - (off + 1)) + 1 := by omega
        rw [e, Nat.pow_succ, Nat.mul_comm, Nat.div_div_eq_div_mul]
    simp only [fetch]
    rw [hcong, ih]
    have h0 : (store b off (n + 1) v off).toNat = v % 256 := by
      unfold store
      rw [if_pos (by omega)]
      simp
    rw [h0, Nat.pow_succ, Nat.mul_comm (256 ^ n) 256, Nat.mod_mul]

theorem fetch_store_of_lt {b : Bytes} {off n v : Nat} (h : v < 256 ^ n) :
    fetch (store b off n v) off n = v := by
  rw [fetch_store_self, Nat.mod_eq_of_lt h]

/-- A field's number fixes its bytes. -/
theorem eq_of_fetch_eq {b b' : Bytes} {off n i : Nat} (h : fetch b off n = fetch b' off n)
    (h1 : off ≤ i) (h2 : i < off + n) : b i = b' i := by
  induction n generalizing off with
  | zero => omega
  | succ n ih =>
    simp only [fetch] at h
    have hb := (b off).toNat_lt
    have hb' := (b' off).toNat_lt
    have hlow : (b off).toNat = (b' off).toNat := by omega
    by_cases e : i = off
    · rw [e]
      exact UInt8.toNat_inj.mp hlow
    · have hrest : fetch b (off + 1) n = fetch b' (off + 1) n := by omega
      exact ih hrest (by omega) (by omega)

/-- Writing the number that is there changes nothing. -/
theorem store_fetch {b : Bytes} {off n v : Nat} (h : v % 256 ^ n = fetch b off n) :
    store b off n v = b := by
  funext i
  by_cases hi : off ≤ i ∧ i < off + n
  · refine eq_of_fetch_eq ?_ hi.1 hi.2
    rw [fetch_store_self, h]
  · exact store_of_ne (by omega)

/-! ## 2. Copies -/

/-- `b` with the first `n` bytes of `src` copied to `off`. -/
def copyIn (b : Bytes) (off : Nat) (src : Bytes) (n : Nat) : Bytes := fun i =>
  if off ≤ i ∧ i < off + n then src (i - off) else b i

theorem copyIn_of_ne {b src : Bytes} {off n i : Nat} (h : i < off ∨ off + n ≤ i) :
    copyIn b off src n i = b i := by
  unfold copyIn
  rw [if_neg (by omega)]

theorem copyIn_of_mem {b src : Bytes} {off n i : Nat} (h1 : off ≤ i) (h2 : i < off + n) :
    copyIn b off src n i = src (i - off) := by
  unfold copyIn
  rw [if_pos ⟨h1, h2⟩]

theorem fetch_copyIn_ne {b src : Bytes} {off n off' n' : Nat}
    (h : off' + n' ≤ off ∨ off + n ≤ off') :
    fetch (copyIn b off src n) off' n' = fetch b off' n' :=
  fetch_congr fun _ _ _ => copyIn_of_ne (by omega)

/-! ## 3. Bits -/

/-- Bit `i % 8` of byte `i / 8`. -/
def getBit (b : Bytes) (i : Nat) : Bool := (b (i / 8)).toNat.testBit (i % 8)

/-- The byte `x` with bit `k` set to `v`, as `x |= 1 << k` and `x &= ~(1 << k)` compute it. -/
def byteSet (x : UInt8) (k : Nat) (v : Bool) : UInt8 :=
  if v then x ||| (1 <<< UInt8.ofNat k) else x &&& ~~~(1 <<< UInt8.ofNat k)

/-- `b` with bit `i % 8` of byte `i / 8` set to `v`. -/
def setBit (b : Bytes) (i : Nat) (v : Bool) : Bytes := fun j =>
  if j = i / 8 then byteSet (b j) (i % 8) v else b j

theorem testBit_byteSet (x : UInt8) {j k : Nat} (v : Bool) (hj : j < 8) (hk : k < 8) :
    (byteSet x k v).toNat.testBit j = if j = k then v else x.toNat.testBit j := by
  have hkm : (UInt8.ofNat k).toNat % 8 = k := by
    rw [UInt8.toNat_ofNat']
    omega
  have hone : ((1 : UInt8) <<< UInt8.ofNat k).toNat = 2 ^ k := by
    rw [UInt8.toNat_shiftLeft, hkm]
    have : 2 ^ k ≤ 2 ^ 7 := Nat.pow_le_pow_right (by omega) (by omega)
    simp [Nat.shiftLeft_eq]
    omega
  cases v with
  | true =>
    simp only [byteSet, if_true, UInt8.toNat_or, Nat.testBit_or, hone, Nat.testBit_two_pow]
    by_cases h : j = k
    · simp [h]
    · simp [h, Ne.symm h]
  | false =>
    simp only [byteSet, Bool.false_eq_true, if_false, UInt8.toNat_and, Nat.testBit_and]
    have hnot : (~~~((1 : UInt8) <<< UInt8.ofNat k)).toNat.testBit j = !decide (k = j) := by
      have e := UInt8.toNat_not (1 <<< UInt8.ofNat k)
      rw [e, hone]
      have h2 : UInt8.size - 1 - 2 ^ k = 2 ^ 8 - (2 ^ k + 1) := by
        simp only [UInt8.size]
        omega
      have hlt : 2 ^ k < 2 ^ 8 := Nat.pow_lt_pow_right (by omega) hk
      rw [h2, Nat.testBit_two_pow_sub_succ hlt, Nat.testBit_two_pow]
      simp [hj]
    rw [hnot]
    by_cases h : j = k
    · simp [h]
    · simp [h, Ne.symm h]

/-- **Read back**: setting bit `i` changes bit `i` and no other. -/
theorem getBit_setBit (b : Bytes) (i j : Nat) (v : Bool) :
    getBit (setBit b i v) j = if j = i then v else getBit b j := by
  unfold getBit setBit
  by_cases hb : j / 8 = i / 8
  · rw [if_pos hb, testBit_byteSet _ v (Nat.mod_lt _ (by omega)) (Nat.mod_lt _ (by omega))]
    by_cases hm : j % 8 = i % 8
    · rw [if_pos hm, if_pos (by omega)]
    · rw [if_neg hm, if_neg (by omega)]
  · rw [if_neg hb, if_neg (by omega)]

/-- The bits fix the bytes. -/
theorem eq_of_getBit {b b' : Bytes} (h : ∀ i, getBit b i = getBit b' i) : b = b' := by
  funext i
  refine UInt8.toNat_inj.mp (Nat.eq_of_testBit_eq fun k => ?_)
  by_cases hk : k < 8
  · have := h (8 * i + k)
    unfold getBit at this
    rwa [show (8 * i + k) / 8 = i by omega, show (8 * i + k) % 8 = k by omega] at this
  · have hpow : 2 ^ 8 ≤ 2 ^ k := Nat.pow_le_pow_right (by omega) (by omega)
    rw [Nat.testBit_lt_two_pow (Nat.lt_of_lt_of_le (b i).toNat_lt hpow),
      Nat.testBit_lt_two_pow (Nat.lt_of_lt_of_le (b' i).toNat_lt hpow)]

/-- A clear bit set and cleared again. -/
theorem setBit_undo {b : Bytes} {i : Nat} (h : getBit b i = false) :
    setBit (setBit b i true) i false = b := by
  refine eq_of_getBit fun j => ?_
  rw [getBit_setBit, getBit_setBit]
  by_cases e : j = i
  · rw [if_pos e, e, h]
  · rw [if_neg e, if_neg e]

end Yuios.Lib
