/-
  File:      Yuios/Text/Number.lean
  Subject:   ONE NUMBER AS TEXT: `number` of `lib/vsprintf.c`.

  An `int` is an `Int32` and wraps. The text is the bytes that go to `str`, in order; `tmp` is the
  list of the bytes written so far, and a write behind its 36 bytes stops the model.

  * `fill`, `countdown` -- the loops that write one byte again and again while a counter falls.
  * `Numeral` -- digits that are a value in a base, with no zero too many in front.
  * `Shown` -- the parts of the text and their lengths.
  * **`number_shows`** -- for every value, base 8, 10 or 16, width, precision and flags the text is
    shown so, as long as what is left of the width is an `int` through the three loops that count it
    down (`Countable`).
-/
import Yuios.Base
import Mathlib.Algebra.Group.Int.Defs
import Mathlib.Algebra.Group.Nat.Defs
import Mathlib.Data.Nat.Log
import Mathlib.Tactic.SplitIfs

namespace Yuios.Text

/-! ## 1. The code -/

def ZEROPAD : UInt32 := 1
def SIGN : UInt32 := 2
def PLUS : UInt32 := 4
def SPACE : UInt32 := 8
def LEFT : UInt32 := 16
def SPECIAL : UInt32 := 32
def SMALL : UInt32 := 64

/-- The bytes of a string. -/
def bytesOf (s : String) : List UInt8 := s.toList.map fun c => c.toNat.toUInt8

def SPACE_CHAR : UInt8 := 32
def ZERO_CHAR : UInt8 := 48
def PLUS_CHAR : UInt8 := 43
def MINUS_CHAR : UInt8 := 45

/-- The `int` that the low 32 bits of a number are. -/
def asInt (z : Int) : Int := (z + 2147483648) % 4294967296 - 2147483648

theorem bmod_eq_asInt (z : Int) : z.bmod (2 ^ 32) = asInt z := by
  rw [Int.bmod_def, asInt]
  split <;> omega

theorem toInt_sub (a b : Int32) : (a - b).toInt = asInt (a.toInt - b.toInt) := by
  rw [Int32.toInt_sub, bmod_eq_asInt]

theorem asInt_asInt_sub (a b : Int) : asInt (asInt a - b) = asInt (a - b) := by
  unfold asInt
  omega

theorem asInt_asInt_add (a b : Int) : asInt (asInt a + b) = asInt (a + b) := by
  unfold asInt
  omega

theorem asInt_asInt_mul_ten (a : Int) : asInt (asInt a * 10) = asInt (a * 10) := by
  unfold asInt
  omega

theorem asInt_of_lt {n : Nat} (h : n < 2147483648) : asInt n = n := by
  unfold asInt
  omega

theorem toInt_bounds (a : Int32) : -2147483648 ≤ a.toInt ∧ a.toInt < 2147483648 :=
  ⟨Int32.le_toInt a, Int32.toInt_lt a⟩

theorem toInt_pred {low w : Int32} (h : low < w) : (w - 1).toInt = w.toInt - 1 := by
  have := toInt_bounds low
  have := toInt_bounds w
  rw [Int32.lt_iff_toInt_lt] at h
  rw [toInt_sub, show (1 : Int32).toInt = 1 from rfl, asInt]
  omega

/-- `while (low < w) { w--; *str++ = c; }`: the bytes written, and `w` after it. -/
def fill (c : UInt8) (low w : Int32) : List UInt8 × Int32 :=
  if low < w then
    let (text, w) := fill c low (w - 1)
    (c :: text, w)
  else ([], w)
termination_by (w.toInt - low.toInt).toNat
decreasing_by
  rw [toInt_pred ‹_›]
  have := Int32.lt_iff_toInt_lt.mp ‹low < w›
  omega

/-- `while (low < w--) *str++ = c`: the test that fails counts down once more. -/
def countdown (c : UInt8) (low w : Int32) : List UInt8 × Int32 :=
  let (text, w) := fill c low w
  (text, w - 1)

/-- The letters of `digits`. -/
def digitsOf (flags : UInt32) : List UInt8 :=
  if flags &&& SMALL ≠ 0 then bytesOf "0123456789abcdefghijklmnopqrstuvwxyz"
  else bytesOf "0123456789ABCDEFGHIJKLMNOPQRSTUVWXYZ"

/-- `digits[index]`. -/
def digitAt (digits : List UInt8) (index : UInt32) : Except Stop UInt8 :=
  match digits[index.toNat]? with
  | some c => .ok c
  | none => .error .outOfBuffer

/-- The loop that writes the digits to `tmp`, the last one first; `room` bytes of `tmp` are free. -/
def convert (digits : List UInt8) (base : UInt32) : Nat → UInt32 → List UInt8 → Except Stop (List UInt8)
  | 0, num, tmp => if num ≠ 0 then .error .outOfBuffer else .ok tmp
  | room + 1, num, tmp =>
    if num ≠ 0 then do
      let c ← digitAt digits (num % base)
      convert digits base room (num / base) (tmp ++ [c])
    else .ok tmp

/-- `tmp` after the digits are written, from `i = 0` on. -/
def writeDigits (digits : List UInt8) (base num : UInt32) : Except Stop (List UInt8) :=
  if num = 0 then .ok [ZERO_CHAR] else convert digits base 36 num []

/-- The character before the number, 0 for none. -/
def signChar (flags : UInt32) : UInt8 :=
  if flags &&& PLUS ≠ 0 then PLUS_CHAR else if flags &&& SPACE ≠ 0 then SPACE_CHAR else 0

/-- The flags after the test for `LEFT`. -/
def masked (flags : UInt32) : UInt32 := if flags &&& LEFT ≠ 0 then flags &&& ~~~ZEROPAD else flags

/-- The width after the sign and the prefix. -/
def sizeLeft (sign : UInt8) (base size : Int32) (flags : UInt32) : Int32 :=
  let size := if sign ≠ 0 then size - 1 else size
  if flags &&& SPECIAL ≠ 0 then
    if base = 16 then size - 2 else if base = 8 then size - 1 else size
  else size

/-- The base prefix; `digits[33]` is the letter x. -/
def basePrefix (digits : List UInt8) (base : Int32) (flags : UInt32) : Except Stop (List UInt8) :=
  if flags &&& SPECIAL ≠ 0 then
    if base = 8 then .ok [ZERO_CHAR]
    else if base = 16 then do
      let x ← digitAt digits 33
      return [ZERO_CHAR, x]
    else .ok []
  else .ok []

/-- What the function writes, once the width is what the parts leave of it. -/
def assemble (flags : UInt32) (size : Int32) (sign pre zeros digits : List UInt8) : List UInt8 :=
  let c := if flags &&& ZEROPAD ≠ 0 then ZERO_CHAR else SPACE_CHAR
  let (spaces, size) :=
    if flags &&& (ZEROPAD + LEFT) = 0 then countdown SPACE_CHAR 0 size else ([], size)
  let (padding, size) := if flags &&& LEFT = 0 then countdown c 0 size else ([], size)
  spaces ++ sign ++ pre ++ padding ++ zeros ++ digits ++ (countdown SPACE_CHAR 0 size).1

/-- The text, or `none` for a base the function does not take. -/
def number (num : UInt32) (base size precision : Int32) (flags : UInt32) :
    Except Stop (Option (List UInt8)) := do
  let digits := digitsOf flags
  let flags := masked flags
  if base < 2 ∨ base > 36 then
    return none
  else
    -- `num` is unsigned, so it is never below 0
    let negative : Bool := flags &&& SIGN ≠ 0 ∧ num < 0
    let sign := if negative then MINUS_CHAR else signChar flags
    let num := if negative then -num else num
    let size := sizeLeft sign base size flags
    let tmp ← writeDigits digits base.toUInt32 num
    let i := Int32.ofNat tmp.length
    let precision := if i > precision then i else precision
    let size := size - precision
    let pre ← basePrefix digits base flags
    let (zeros, _) := countdown ZERO_CHAR i precision
    return some (assemble flags size (if sign ≠ 0 then [sign] else []) pre zeros tmp.reverse)

/-! ## 2. What is to be shown -/

/-- The bases that `vsprintf` asks for. -/
inductive Radix where
  | oct
  | dec
  | hex
  deriving DecidableEq

def Radix.int : Radix → Int32
  | .oct => 8
  | .dec => 10
  | .hex => 16

def Radix.val : Radix → Nat
  | .oct => 8
  | .dec => 10
  | .hex => 16

def Has (flags flag : UInt32) : Prop := flags &&& flag ≠ 0

instance (flags flag : UInt32) : Decidable (Has flags flag) := inferInstanceAs (Decidable (_ ≠ _))

/-- The byte of a digit. -/
def digitByte (small : Bool) (d : Nat) : UInt8 :=
  if d < 10 then (48 + d).toUInt8 else if small then (87 + d).toUInt8 else (55 + d).toUInt8

/-- What a digit's byte stands for. -/
def digitValue (c : UInt8) : Nat :=
  if c < 58 then c.toNat - 48 else if c < 91 then c.toNat - 55 else c.toNat - 87

/-- What the digits stand for, the first one highest. -/
def valueOf (base : Nat) (text : List UInt8) : Nat :=
  text.foldl (fun v c => v * base + digitValue c) 0

/-- The text is the value in the base, with as many digits as it has. -/
structure Numeral (base v : Nat) (small : Bool) (text : List UInt8) : Prop where
  digit : ∀ c ∈ text, ∃ d < base, c = digitByte small d
  value : valueOf base text = v
  length : text.length = Nat.log base v + 1

def signText (flags : UInt32) : List UInt8 :=
  if Has flags PLUS then [PLUS_CHAR] else if Has flags SPACE then [SPACE_CHAR] else []

/-- `0` before octal, `0x` or `0X` before hexadecimal digits. -/
def prefixText (base : Nat) (flags : UInt32) : List UInt8 :=
  if Has flags SPECIAL then
    if base = 8 then [ZERO_CHAR]
    else if base = 16 then [ZERO_CHAR, if Has flags SMALL then 120 else 88] else []
  else []

/-- The parts of the text. -/
structure Parts where
  before : Nat
  zeros : Nat
  digits : List UInt8
  after : Nat

def Parts.text (base : Nat) (flags : UInt32) (q : Parts) : List UInt8 :=
  List.replicate q.before SPACE_CHAR ++ signText flags ++ prefixText base flags ++
    List.replicate q.zeros ZERO_CHAR ++ q.digits ++ List.replicate q.after SPACE_CHAR

/-- The digits are the value's; at least `precision` are shown; spaces or zeros fill the side that the
    flags ask for, up to the width. -/
structure Shown (num : UInt32) (base : Nat) (width precision : Int) (flags : UInt32) (q : Parts) :
    Prop where
  digits : Numeral base num.toNat (decide (Has flags SMALL)) q.digits
  precise : precision ≤ q.zeros + q.digits.length
  left : Has flags LEFT → q.before = 0 ∧ q.zeros = (precision - q.digits.length).toNat
  zeros : ¬Has flags LEFT → Has flags ZEROPAD → q.before = 0 ∧ q.after = 0
  spaces : ¬Has flags LEFT → ¬Has flags ZEROPAD →
    q.after = 0 ∧ q.zeros = (precision - q.digits.length).toNat
  length : ((q.text base flags).length : Int) = max width ((signText flags).length +
    (prefixText base flags).length + max precision q.digits.length)

/-- What the sign, the prefix and the digits leave of the width. -/
def remaining (num : UInt32) (base : Nat) (width precision : Int) (flags : UInt32) : Int :=
  width - (signText flags).length - (prefixText base flags).length -
    max precision (Nat.log base num.toNat + 1)

/-- How many loops count the rest of the width down before the last one looks at it. -/
def tests (flags : UInt32) : Int := if Has flags LEFT then 0 else if Has flags ZEROPAD then 1 else 2

/-- The rest of the width is an `int` to the end, or so small that it wraps to one that is not
    positive. -/
def Countable (num : UInt32) (base : Nat) (width precision : Int) (flags : UInt32) : Prop :=
  -2147483648 + tests flags ≤ remaining num base width precision flags ∨
    remaining num base width precision flags ≤ -4294967296

/-! ## 3. The loops -/

theorem fill_eq (c : UInt8) (low w : Int32) :
    fill c low w = (List.replicate (w.toInt - low.toInt).toNat c, if low < w then low else w) := by
  fun_induction fill c low w with
  | case1 w hlt text w' h ih =>
    have hp := toInt_pred hlt
    have hlt' := Int32.lt_iff_toInt_lt.mp hlt
    rw [h, Prod.mk.injEq] at ih
    obtain ⟨rfl, rfl⟩ := ih
    rw [if_pos hlt, hp]
    refine Prod.ext ?_ ?_
    · rw [show (w.toInt - low.toInt).toNat = (w.toInt - 1 - low.toInt).toNat + 1 by omega,
        List.replicate_succ]
    · show (if low < w - 1 then low else w - 1) = low
      split
      · rfl
      · rename_i hn
        rw [Int32.lt_iff_toInt_lt, hp] at hn
        exact Int32.toInt_inj.mp (by omega)
  | case2 w hlt =>
    have := mt Int32.lt_iff_toInt_lt.mpr hlt
    rw [if_neg hlt, show (w.toInt - low.toInt).toNat = 0 by omega]
    rfl

theorem countdown_text (c : UInt8) (low w : Int32) :
    (countdown c low w).1 = List.replicate (w.toInt - low.toInt).toNat c := by
  rw [countdown, fill_eq]

theorem countdown_rest (c : UInt8) (low w : Int32) :
    (countdown c low w).2.toInt = asInt (min w.toInt low.toInt - 1) := by
  rw [countdown, fill_eq]
  show ((if low < w then low else w) - 1).toInt = _
  rw [toInt_sub]
  refine congrArg (fun z => asInt (z - 1)) ?_
  split
  · rename_i h
    have := Int32.lt_iff_toInt_lt.mp h
    omega
  · rename_i h
    have := mt Int32.lt_iff_toInt_lt.mpr h
    omega

/-! ## 4. The digits -/

theorem digitAt_small : ∀ d < 36,
    (bytesOf "0123456789abcdefghijklmnopqrstuvwxyz")[d]? = some (digitByte true d) := by decide

theorem digitAt_capital : ∀ d < 36,
    (bytesOf "0123456789ABCDEFGHIJKLMNOPQRSTUVWXYZ")[d]? = some (digitByte false d) := by decide

theorem digitAt_ok (flags : UInt32) {index : UInt32} (h : index.toNat < 36) :
    digitAt (digitsOf flags) index = .ok (digitByte (decide (Has flags SMALL)) index.toNat) := by
  have hd : digitsOf flags = if Has flags SMALL then bytesOf "0123456789abcdefghijklmnopqrstuvwxyz"
    else bytesOf "0123456789ABCDEFGHIJKLMNOPQRSTUVWXYZ" := rfl
  rw [digitAt, hd]
  by_cases hs : Has flags SMALL
  · simp only [hs, if_true, digitAt_small _ h, decide_true]
  · simp only [hs, if_false, digitAt_capital _ h, decide_false]

theorem digitValue_small : ∀ d < 36, digitValue (digitByte true d) = d := by decide

theorem digitValue_capital : ∀ d < 36, digitValue (digitByte false d) = d := by decide

theorem digitValue_digitByte (small : Bool) {d : Nat} (h : d < 36) :
    digitValue (digitByte small d) = d := by
  cases small with
  | true => exact digitValue_small d h
  | false => exact digitValue_capital d h

theorem valueOf_snoc (base : Nat) (text : List UInt8) (c : UInt8) :
    valueOf base (text ++ [c]) = valueOf base text * base + digitValue c := by
  simp [valueOf]

/-- **The loop writes the digits of the value**, the last one first. -/
theorem convert_ok (flags : UInt32) {base : UInt32} (h2 : 2 ≤ base.toNat) (h36 : base.toNat ≤ 36)
    (room : Nat) : ∀ num tmp, num.toNat < base.toNat ^ room →
    ∃ ds, convert (digitsOf flags) base room num tmp = .ok (tmp ++ ds) ∧
      (∀ c ∈ ds, ∃ d < base.toNat, c = digitByte (decide (Has flags SMALL)) d) ∧
      valueOf base.toNat ds.reverse = num.toNat ∧
      ds.length = if num = 0 then 0 else Nat.log base.toNat num.toNat + 1 := by
  induction room with
  | zero =>
    intro num tmp h
    have h0 : num = 0 := UInt32.toNat_inj.mp (Nat.lt_one_iff.mp h)
    subst h0
    exact ⟨[], by simp [convert], fun c hc => absurd hc List.not_mem_nil, rfl, rfl⟩
  | succ room ih =>
    intro num tmp h
    by_cases h0 : num = 0
    · subst h0
      exact ⟨[], by simp [convert], fun c hc => absurd hc List.not_mem_nil, rfl, rfl⟩
    have hdiv : (num / base).toNat = num.toNat / base.toNat := UInt32.toNat_div num base
    have hmod : (num % base).toNat = num.toNat % base.toNat := UInt32.toNat_mod num base
    have hlt : num.toNat % base.toNat < base.toNat := Nat.mod_lt _ (by omega)
    have hq : num.toNat / base.toNat < base.toNat ^ room := by
      rw [Nat.div_lt_iff_lt_mul (by omega), ← Nat.pow_succ]
      exact h
    obtain ⟨ds, hrun, hd, hv, hlen⟩ := ih (num / base)
      (tmp ++ [digitByte (decide (Has flags SMALL)) (num % base).toNat]) (by rw [hdiv]; exact hq)
    refine ⟨digitByte (decide (Has flags SMALL)) (num % base).toNat :: ds, ?_, ?_, ?_, ?_⟩
    · rw [convert, if_pos h0, digitAt_ok flags (by omega)]
      exact hrun.trans (by rw [List.append_assoc]; rfl)
    · rintro c (_ | ⟨_, hc⟩)
      · exact ⟨_, by omega, rfl⟩
      · exact hd c hc
    · rw [List.reverse_cons, valueOf_snoc, hv, digitValue_digitByte _ (by omega), hdiv, hmod]
      exact Nat.div_add_mod' _ _
    · rw [List.length_cons, hlen, if_neg h0]
      have hz : num / base = 0 ↔ num.toNat < base.toNat := by
        rw [← UInt32.toNat_inj, hdiv]
        exact Nat.div_eq_zero_iff_lt (by omega)
      by_cases hs : num.toNat < base.toNat
      · rw [if_pos (hz.mpr hs), Nat.log_of_lt hs]
      · rw [if_neg (mt hz.mp hs), hdiv, Nat.log_of_one_lt_of_le h2 (Nat.le_of_not_lt hs)]

/-- **The digits in `tmp`** are a numeral, read from behind; the array is large enough. -/
theorem digits_ok (flags num : UInt32) {base : UInt32} (h2 : 2 ≤ base.toNat) (h36 : base.toNat ≤ 36) :
    ∃ tmp, writeDigits (digitsOf flags) base num = .ok tmp ∧
      Numeral base.toNat num.toNat (decide (Has flags SMALL)) tmp.reverse := by
  unfold writeDigits
  by_cases h0 : num = 0
  · rw [if_pos h0, h0]
    refine ⟨_, rfl, fun c hc => ⟨0, by omega, ?_⟩, by simp [valueOf, digitValue, ZERO_CHAR], by simp⟩
    cases decide (Has flags SMALL) <;> exact List.mem_singleton.mp hc
  · have hroom : num.toNat < base.toNat ^ 36 :=
      Nat.lt_of_lt_of_le (Nat.lt_trans num.toNat_lt (by decide)) (Nat.pow_le_pow_left h2 36)
    obtain ⟨ds, hrun, hd, hv, hlen⟩ := convert_ok flags h2 h36 36 num [] hroom
    rw [if_neg h0] at hlen
    exact ⟨ds, (if_neg h0).trans hrun, fun c hc => hd c (List.mem_reverse.mp hc), hv,
      (List.length_reverse).trans hlen⟩

/-! ## 5. The whole text -/

theorem masked_and {flags flag : UInt32} (h : ~~~ZEROPAD &&& flag = flag) :
    masked flags &&& flag = flags &&& flag := by
  unfold masked
  split
  · rw [UInt32.and_assoc, h]
  · rfl

theorem signChar_masked (flags : UInt32) : signChar (masked flags) = signChar flags := by
  unfold signChar
  rw [masked_and (by decide), masked_and (by decide)]

theorem signText_eq (flags : UInt32) :
    (if signChar flags ≠ 0 then [signChar flags] else []) = signText flags := by
  unfold signText signChar Has
  split_ifs <;> simp_all [PLUS_CHAR, SPACE_CHAR]

theorem signText_length (flags : UInt32) :
    ((signText flags).length : Int) = if signChar flags ≠ 0 then 1 else 0 := by
  rw [← signText_eq]
  split <;> rfl

theorem has_masked {flags flag : UInt32} (h : ~~~ZEROPAD &&& flag = flag) :
    masked flags &&& flag ≠ 0 ↔ Has flags flag := by
  rw [masked_and h]
  exact Iff.rfl

theorem sizeLeft_toInt (r : Radix) (width : Int32) (flags : UInt32) :
    (sizeLeft (signChar flags) r.int width (masked flags)).toInt =
      asInt (width.toInt - (signText flags).length - (prefixText r.val flags).length) := by
  have hb := toInt_bounds width
  have h0 : asInt width.toInt = width.toInt := by
    unfold asInt
    omega
  have h1 : (1 : Int32).toInt = 1 := rfl
  have h2 : (2 : Int32).toInt = 2 := rfl
  have hs : (if signChar flags ≠ 0 then width - 1 else width).toInt =
      asInt (width.toInt - (signText flags).length) := by
    rw [signText_length]
    split
    · rw [toInt_sub, h1]
    · rw [Int.sub_zero, h0]
  unfold sizeLeft prefixText
  simp only [@has_masked flags SPECIAL (by decide)]
  by_cases hx : Has flags SPECIAL
  · rw [if_pos hx, if_pos hx]
    cases r with
    | oct => exact (toInt_sub _ 1).trans (by rw [hs, h1, asInt_asInt_sub]; rfl)
    | dec => exact hs.trans (by simp [Radix.val])
    | hex => exact (toInt_sub _ 2).trans (by rw [hs, h2, asInt_asInt_sub]; rfl)
  · rw [if_neg hx, if_neg hx, hs]
    simp

theorem basePrefix_ok (r : Radix) (flags : UInt32) :
    basePrefix (digitsOf flags) r.int (masked flags) = .ok (prefixText r.val flags) := by
  have hx : digitAt (digitsOf flags) 33 = .ok (if Has flags SMALL then 120 else 88) := by
    rw [digitAt_ok flags (by decide)]
    by_cases hs : Has flags SMALL <;> simp only [hs, decide_true, decide_false, if_true, if_false] <;> rfl
  unfold basePrefix prefixText
  simp only [@has_masked flags SPECIAL (by decide)]
  by_cases hs : Has flags SPECIAL
  · rw [if_pos hs, if_pos hs]
    cases r with
    | oct => rfl
    | dec => rfl
    | hex =>
      show (digitAt (digitsOf flags) 33 >>= fun x => pure [ZERO_CHAR, x]) = _
      rw [hx]
      rfl
  · rw [if_neg hs, if_neg hs]

theorem log_lt (r : Radix) (num : UInt32) : Nat.log r.val num.toNat < 32 := by
  by_cases h0 : num.toNat = 0
  · rw [h0, Nat.log_zero_right]
    decide
  · refine Nat.log_lt_of_lt_pow h0 (Nat.lt_of_lt_of_le num.toNat_lt ?_)
    exact Nat.pow_le_pow_left (by cases r <;> decide) 32

theorem number_run (num : UInt32) (r : Radix) (width precision : Int32) (flags : UInt32) :
    ∃ digits size, Numeral r.val num.toNat (decide (Has flags SMALL)) digits ∧
      size.toInt = asInt (remaining num r.val width.toInt precision.toInt flags) ∧
      number num r.int width precision flags = .ok (some (assemble (masked flags) size
        (signText flags) (prefixText r.val flags)
        (List.replicate (precision.toInt - digits.length).toNat ZERO_CHAR) digits)) := by
  have hbase : ¬(r.int < 2 ∨ r.int > 36) := by cases r <;> decide
  have hval : r.int.toUInt32.toNat = r.val := by cases r <;> rfl
  have hneg : decide (masked flags &&& SIGN ≠ 0 ∧ num < 0) = false :=
    decide_eq_false fun h => UInt32.not_lt_zero h.2
  obtain ⟨tmp, htmp, hn⟩ := @digits_ok flags num r.int.toUInt32
    (by cases r <;> decide) (by cases r <;> decide)
  rw [hval] at hn
  have hlen : tmp.length ≤ 32 := by
    have := hn.length
    have := log_lt r num
    rw [List.length_reverse] at *
    omega
  have hi : (Int32.ofNat tmp.length).toInt = tmp.length := by
    rw [Int32.toInt_ofNat', Int.bmod_def, show (Int32.size : Int) = 4294967296 from rfl]
    split <;> omega
  obtain ⟨wide, hwide⟩ : ∃ wide, wide =
      if Int32.ofNat tmp.length > precision then Int32.ofNat tmp.length else precision := ⟨_, rfl⟩
  have hw : wide.toInt = max precision.toInt tmp.length := by
    rw [hwide]
    split
    · rename_i h
      rw [gt_iff_lt, Int32.lt_iff_toInt_lt] at h
      omega
    · rename_i h
      rw [gt_iff_lt, Int32.lt_iff_toInt_lt] at h
      omega
  refine ⟨tmp.reverse, sizeLeft (signChar flags) r.int width (masked flags) - wide, hn, ?_, ?_⟩
  · have := hn.length
    rw [List.length_reverse] at this
    rw [toInt_sub, sizeLeft_toInt, asInt_asInt_sub, hw, this]
    rfl
  · unfold number
    simp only [if_neg hbase, hneg, signChar_masked, Bool.false_eq_true, if_false]
    show (writeDigits _ _ _ >>= _) = _
    rw [htmp]
    show (basePrefix _ _ _ >>= _) = _
    rw [basePrefix_ok]
    refine congrArg (fun l => Except.ok (some l)) ?_
    have hz : (max precision.toInt tmp.length - tmp.length : Int).toNat =
        (precision.toInt - tmp.length).toNat := by omega
    rw [signText_eq, ← hwide, countdown_text, hi, hw, List.length_reverse, hz]

/-! ## 6. The three ways to pad -/

/-- The counter after a loop that has counted it down. -/
def counted (z : Int) : Int := asInt (min z 0 - 1)

section Assemble

variable {flags : UInt32} {size : Int32} {sign pre zeros digits : List UInt8}

theorem countdown_zero (c : UInt8) (w : Int32) :
    (countdown c 0 w).1 = List.replicate w.toInt.toNat c ∧ (countdown c 0 w).2.toInt = counted w.toInt := by
  rw [countdown_text, countdown_rest, show (0 : Int32).toInt = 0 from rfl, Int.sub_zero]
  exact ⟨rfl, rfl⟩

theorem masked_left (h : Has flags LEFT) : masked flags &&& LEFT ≠ 0 := (has_masked (by decide)).mpr h

theorem masked_of_not_left (h : ¬Has flags LEFT) : masked flags = flags := if_neg h

/-- The two flags together are missing when each of them is. -/
theorem and_both (flags : UInt32) :
    flags &&& (ZEROPAD + LEFT) = 0 ↔ flags &&& ZEROPAD = 0 ∧ flags &&& LEFT = 0 := by
  have h : flags &&& (ZEROPAD + LEFT) = (flags &&& ZEROPAD) ||| (flags &&& LEFT) := by
    rw [← UInt32.toNat_inj, UInt32.toNat_or, UInt32.toNat_and, UInt32.toNat_and, UInt32.toNat_and,
      ← Nat.and_or_distrib_left]
    rfl
  rw [h, UInt32.or_eq_zero_iff]

/-- Left-justified: spaces behind. -/
theorem assemble_left (h : Has flags LEFT) :
    assemble (masked flags) size sign pre zeros digits =
      sign ++ pre ++ zeros ++ digits ++ List.replicate size.toInt.toNat SPACE_CHAR := by
  have hl := masked_left h
  have hb : ¬masked flags &&& (ZEROPAD + LEFT) = 0 := fun hb => hl ((and_both _).mp hb).2
  simp only [assemble, if_neg hb, if_neg hl, (countdown_zero _ _).1]
  simp

/-- With zeros: they follow the prefix. -/
theorem assemble_zeropad (h : ¬Has flags LEFT) (hz : Has flags ZEROPAD) :
    assemble (masked flags) size sign pre zeros digits =
      sign ++ pre ++ List.replicate size.toInt.toNat ZERO_CHAR ++ zeros ++ digits ++
        List.replicate (counted size.toInt).toNat SPACE_CHAR := by
  have hl : flags &&& LEFT = 0 := Decidable.not_not.mp h
  have hb : ¬flags &&& (ZEROPAD + LEFT) = 0 := fun hb => hz ((and_both _).mp hb).1
  have hz' : flags &&& ZEROPAD ≠ 0 := hz
  rw [masked_of_not_left h]
  simp only [assemble, if_neg hb, if_pos hl, if_pos hz', (countdown_zero _ _).1,
    (countdown_zero _ _).2]
  simp

/-- With spaces: in front of everything. -/
theorem assemble_spaces (h : ¬Has flags LEFT) (hz : ¬Has flags ZEROPAD) :
    assemble (masked flags) size sign pre zeros digits =
      List.replicate size.toInt.toNat SPACE_CHAR ++ sign ++ pre ++
        List.replicate (counted size.toInt).toNat SPACE_CHAR ++ zeros ++ digits ++
          List.replicate (counted (counted size.toInt)).toNat SPACE_CHAR := by
  have hl : flags &&& LEFT = 0 := Decidable.not_not.mp h
  have hz' : flags &&& ZEROPAD = 0 := Decidable.not_not.mp hz
  rw [masked_of_not_left h]
  simp only [assemble, if_pos ((and_both _).mpr ⟨hz', hl⟩), if_pos hl, hz', ne_eq, not_true,
    if_false, (countdown_zero _ _).1, (countdown_zero _ _).2]

end Assemble

/-! ## 7. The theorem -/

section Theorem

variable {num : UInt32} {r : Radix} {width precision : Int32} {flags : UInt32} {digits : List UInt8}
  {size : Int32}

/-- The text that `number` gives for these digits and this rest of the width. -/
def textOf (r : Radix) (precision : Int32) (flags : UInt32) (size : Int32) (digits : List UInt8) :
    List UInt8 :=
  assemble (masked flags) size (signText flags) (prefixText r.val flags)
    (List.replicate (precision.toInt - digits.length).toNat ZERO_CHAR) digits

/-- The spaces or zeros that the three loops write. -/
def padded (flags : UInt32) (z : Int) : Int :=
  if Has flags LEFT then z.toNat
  else if Has flags ZEROPAD then z.toNat + (counted z).toNat
  else z.toNat + (counted z).toNat + (counted (counted z)).toNat

theorem length_textOf : ((textOf r precision flags size digits).length : Int) =
    padded flags size.toInt + (signText flags).length + (prefixText r.val flags).length +
      max precision.toInt digits.length := by
  unfold textOf padded
  by_cases hl : Has flags LEFT
  · rw [assemble_left hl, if_pos hl]
    simp only [List.length_append, List.length_replicate]
    omega
  · rw [if_neg hl]
    by_cases hz : Has flags ZEROPAD
    · rw [assemble_zeropad hl hz, if_pos hz]
      simp only [List.length_append, List.length_replicate]
      omega
    · rw [assemble_spaces hl hz, if_neg hz]
      simp only [List.length_append, List.length_replicate]
      omega

/-- In the range that a difference of widths can have, an `int` wraps once at most. -/
theorem asInt_cases {z : Int} (h : z < 2147483648) (hlow : -4294967300 ≤ z) :
    -2147483648 ≤ z ∧ asInt z = z ∨ z < -2147483648 ∧ asInt z = z + 4294967296 := by
  unfold asInt
  omega

theorem counted_cases {z : Int} (h : -2147483648 ≤ z) :
    z = -2147483648 ∧ counted z = 2147483647 ∨ -2147483648 < z ∧ counted z = min z 0 - 1 := by
  unfold counted asInt
  omega

/-- **The loops write what is left of the width**, and nothing when that is negative, exactly when
    it can be counted down. -/
theorem padded_iff (flags : UInt32) {z : Int} (h : z < 2147483648) (hlow : -4294967300 ≤ z) :
    padded flags (asInt z) = z.toNat ↔
      -2147483648 + tests flags ≤ z ∨ z ≤ -4294967296 := by
  have h0 := asInt_cases h hlow
  generalize asInt z = a at h0
  have h1 := counted_cases (z := a) (by omega)
  unfold padded tests
  by_cases hl : Has flags LEFT
  · simp only [hl, if_true]
    omega
  · by_cases hz : Has flags ZEROPAD
    · simp only [hl, hz, if_true, if_false]
      rcases h1 with ⟨h1, h1'⟩ | ⟨h1, h1'⟩
      · rw [h1']
        omega
      · rw [h1']
        omega
    · have h2 := counted_cases (z := counted a) (by omega)
      simp only [hl, hz, if_false]
      rcases h1 with ⟨h1, h1'⟩ | ⟨h1, h1'⟩
      · rw [h1'] at h2 ⊢
        omega
      · rw [h1'] at h2 ⊢
        rcases h2 with ⟨h2, h2'⟩ | ⟨h2, h2'⟩
        · rw [h2']
          omega
        · rw [h2']
          omega

theorem remaining_bounds (num : UInt32) (r : Radix) (width precision : Int32) (flags : UInt32) :
    remaining num r.val width.toInt precision.toInt flags < 2147483648 ∧
      -4294967300 ≤ remaining num r.val width.toInt precision.toInt flags := by
  have := toInt_bounds width
  have := toInt_bounds precision
  have := log_lt r num
  have hs : (signText flags).length ≤ 1 := by
    unfold signText
    split_ifs <;> decide
  have hp : (prefixText r.val flags).length ≤ 2 := by
    unfold prefixText
    split_ifs <;> simp
  unfold remaining
  omega

/-- Where the rest of the width can be counted down, the text is shown as the flags ask. -/
theorem shown_of_countable (hn : Numeral r.val num.toNat (decide (Has flags SMALL)) digits)
    (hs : size.toInt = asInt (remaining num r.val width.toInt precision.toInt flags))
    (hc : padded flags size.toInt = (remaining num r.val width.toInt precision.toInt flags).toNat) :
    ∃ q : Parts, textOf r precision flags size digits = q.text r.val flags ∧
      Shown num r.val width.toInt precision.toInt flags q := by
  have hlen := @length_textOf r precision flags digits size
  have hd := hn.length
  have hwide : ((textOf r precision flags size digits).length : Int) = max width.toInt
      ((signText flags).length + (prefixText r.val flags).length +
        max precision.toInt digits.length) := by
    unfold remaining at hc
    omega
  obtain ⟨hhi, hlo⟩ := remaining_bounds num r width precision flags
  have h0 := asInt_cases hhi hlo
  rw [← hs] at h0
  by_cases hl : Has flags LEFT
  · have ht : textOf r precision flags size digits =
        (Parts.mk 0 (precision.toInt - digits.length).toNat digits size.toInt.toNat).text r.val flags := by
      simp [textOf, assemble_left hl, Parts.text]
    exact ⟨_, ht, hn, by dsimp only; omega, fun _ => ⟨rfl, rfl⟩, fun h => absurd hl h,
      fun h => absurd hl h, by rw [← ht]; exact hwide⟩
  · rw [padded, if_neg hl] at hc
    by_cases hz : Has flags ZEROPAD
    · rw [if_pos hz] at hc
      have hk : (counted size.toInt).toNat = 0 := by omega
      have ht : textOf r precision flags size digits = (Parts.mk 0
          (size.toInt.toNat + (precision.toInt - digits.length).toNat) digits 0).text r.val flags := by
        simp [textOf, assemble_zeropad hl hz, Parts.text, hk, List.replicate_append_replicate]
      exact ⟨_, ht, hn, by dsimp only; omega, fun h => absurd h hl, fun _ _ => ⟨rfl, rfl⟩,
        fun _ h => absurd hz h, by rw [← ht]; exact hwide⟩
    · rw [if_neg hz] at hc
      have hk : (counted size.toInt).toNat = 0 ∧ (counted (counted size.toInt)).toNat = 0 := by
        omega
      have ht : textOf r precision flags size digits = (Parts.mk size.toInt.toNat
          (precision.toInt - digits.length).toNat digits 0).text r.val flags := by
        simp [textOf, assemble_spaces hl hz, Parts.text, hk]
      exact ⟨_, ht, hn, by dsimp only; omega, fun h => absurd h hl, fun _ h => absurd h hz,
        fun _ _ => ⟨rfl, rfl⟩, by rw [← ht]; exact hwide⟩

/-- **One number as text**: for every value, base 8, 10 or 16, width, precision and flags, `number`
    writes a text, never behind the end of `tmp`, and the text is shown as the flags ask exactly when
    what is left of the width can be counted down. -/
theorem number_shows (num : UInt32) (r : Radix) (width precision : Int32) (flags : UInt32) :
    ∃ text, number num r.int width precision flags = .ok (some text) ∧
      ((∃ q : Parts, text = q.text r.val flags ∧
          Shown num r.val width.toInt precision.toInt flags q) ↔
        Countable num r.val width.toInt precision.toInt flags) := by
  obtain ⟨digits, size, hn, hs, hrun⟩ := number_run num r width precision flags
  obtain ⟨hhi, hlo⟩ := remaining_bounds num r width precision flags
  refine ⟨textOf r precision flags size digits, hrun, ?_⟩
  have hiff := padded_iff flags hhi hlo
  rw [← hs] at hiff
  rw [Countable, ← hiff]
  constructor
  · rintro ⟨q, ht, hq⟩
    have hlen := @length_textOf r precision flags digits size
    have hwide := hq.length
    have hd := hn.length
    have hd' := hq.digits.length
    have hnonneg : 0 ≤ padded flags size.toInt := by
      unfold padded
      split_ifs <;> omega
    rw [← ht] at hwide
    unfold remaining
    omega
  · exact shown_of_countable hn hs

end Theorem

/-- A width of -2^31, as `%*u` passes it on, is counted down to 2^31 - 1 spaces. -/
theorem number_shows_not_always : ¬∀ (num : UInt32) (r : Radix) (width precision : Int32) (flags : UInt32),
    ∃ text, number num r.int width precision flags = .ok (some text) ∧
      ∃ q : Parts, text = q.text r.val flags ∧
        Shown num r.val width.toInt precision.toInt flags q := by
  intro h
  obtain ⟨text, hrun, q, ht, hq⟩ := h 0 .dec (-2147483648) (-1) LEFT
  obtain ⟨digits, size, hn, hs, hrun'⟩ := number_run 0 .dec (-2147483648) (-1) LEFT
  have hsign : signText LEFT = [] := by decide
  have hpre : prefixText Radix.dec.val LEFT = [] := by decide
  have hR : remaining 0 Radix.dec.val (-2147483648 : Int32).toInt (-1 : Int32).toInt LEFT =
      -2147483649 := by
    rw [remaining, hsign, hpre, show (0 : UInt32).toNat = 0 from rfl, Nat.log_zero_right]
    decide
  rw [hR, show asInt (-2147483649) = 2147483647 by decide] at hs
  have htext : text = textOf .dec (-1) LEFT size digits := by
    rw [hrun] at hrun'
    exact Option.some.inj (Except.ok.inj hrun')
  have hlen := @length_textOf .dec (-1) LEFT digits size
  have hwide := hq.length
  have hd := hn.length
  have hd' := hq.digits.length
  rw [← htext, padded, if_pos (by decide), hsign, hpre, hs] at hlen
  rw [← ht, hsign, hpre] at hwide
  have h1 : (-1 : Int32).toInt = -1 := rfl
  have h2 : (-2147483648 : Int32).toInt = -2147483648 := rfl
  simp only [List.length_nil, h1, h2] at hlen hwide
  omega

end Yuios.Text
