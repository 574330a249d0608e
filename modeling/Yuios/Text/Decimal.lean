/-
  File:      Yuios/Text/Decimal.lean
  Subject:   A NUMBER PRINTED AND READ AGAIN: `%d` of `lib/vsprintf.c`, `atoi` of `lib/stdlib.c`.

  The value goes through an unsigned parameter, so `number` never sees a negative one; `atoi` wraps, so
  it reads back what was printed instead.

  * `Denotes` -- blanks, a sign, decimal digits, blanks; the sign is a minus exactly below zero.
  * **`atoi_plain`** -- `atoi` of the plain `%d` text of a number is the number.
  * **`decimal_denotes`** -- under every width, precision and flags the text denotes the number exactly
    when that is not negative; in one corner blanks come between a plus sign and the digits.
-/
import Yuios.Text.Vsprintf

namespace Yuios.Text

/-! ## 1. The code -/

/-- `*str` as a `char`, which has a sign. -/
def charOf (c : UInt8) : Int32 := c.toInt8.toInt32

/-- A value stored in a `bool`. -/
def asBool (i : Int32) : Bool := i ≠ 0

/-- The loop of `atoi`, to the terminator. -/
def readDecimal (result : Int32) : List UInt8 → Int32
  | [] => result
  | c :: str => if c = 0 then result else readDecimal (result * 10 + (charOf c - 48)) str

/-- `sign` is a `bool`, so the -1 stored in it is 1. -/
def atoi : Option (List UInt8) → Int32
  | none => 0
  | some str =>
    let (sign, str) := if deref str = 45 then (asBool (-1), str.tail) else (asBool 1, str)
    readDecimal 0 str * if sign then 1 else 0

/-! ## 2. What is to be shown -/

/-- **The text denotes the number**: blanks, a sign, decimal digits of its magnitude and blanks; the
    sign is a minus exactly for a negative number. -/
structure Denotes (text : List UInt8) (n : Int) : Prop where
  shape : ∃ before sign digits after, text = List.replicate before SPACE_CHAR ++ sign ++ digits ++
    List.replicate after SPACE_CHAR ∧ digits ≠ [] ∧ (∀ c ∈ digits, isDigit c = true) ∧
    valueOf 10 digits = n.natAbs ∧
    if n < 0 then sign = [MINUS_CHAR] else sign = [] ∨ sign = [PLUS_CHAR]

/-- Every argument is the number. -/
def passing (str : UInt32 → CString) (n : Int32) : Env := ⟨fun _ => n.toUInt32, str⟩

/-- The format `%d`. -/
def plain : CString := ⟨[37, 100], by decide, by decide⟩

/-- The counter of the blanks in front comes to rest at -2^31, with a plus sign to be written: its next
    failing test wraps it, and the blanks are written behind the sign. -/
def Split (n width precision : Int32) (flags : UInt32) : Prop :=
  Has flags PLUS ∧ ¬Has flags LEFT ∧ ¬Has flags ZEROPAD ∧
    remaining n.toUInt32 10 width.toInt precision.toInt flags = -2147483648

/-! ## 3. The digits -/

theorem isDigit_digitByte : ∀ d < 10, ∀ small, isDigit (digitByte small d) = true := by decide

theorem isDigit_zero : isDigit ZERO_CHAR = true := by decide

theorem ne_of_isDigit {c d : UInt8} (hc : isDigit c = true) (hd : isDigit d = false) : c ≠ d :=
  fun h => by rw [h, hd] at hc; cases hc

theorem Numeral.isDigit {v : Nat} {small : Bool} {digits : List UInt8} (h : Numeral 10 v small digits) :
    ∀ c ∈ digits, isDigit c = true := by
  intro c hc
  obtain ⟨d, hd, rfl⟩ := h.digit c hc
  exact isDigit_digitByte d hd small

theorem Numeral.ne_nil {base v : Nat} {small : Bool} {digits : List UInt8}
    (h : Numeral base v small digits) : digits ≠ [] := by
  intro hn
  have := h.length
  rw [hn] at this
  cases this

/-- Zeros in front do not change the value. -/
theorem valueOf_zeros (base z : Nat) (digits : List UInt8) :
    valueOf base (List.replicate z ZERO_CHAR ++ digits) = valueOf base digits := by
  have h : valueOf base (List.replicate z ZERO_CHAR) = 0 := by
    induction z with
    | zero => rfl
    | succ z ih =>
      rw [List.replicate_succ', valueOf_snoc, ih]
      simp [digitValue, ZERO_CHAR]
  unfold valueOf at h ⊢
  rw [List.foldl_append, h]

/-! ## 4. `atoi` -/

theorem charOf_digitByte : ∀ d < 10, ∀ small,
    (charOf (digitByte small d) - 48).toInt = d ∧ digitByte small d ≠ 0 ∧ digitByte small d ≠ 45 := by
  decide

/-- The loop reads digits as their value, which an `int` may not hold. -/
theorem readDecimal_digits {small : Bool} (digits : List UInt8) : ∀ (result : Int32) (v : Nat),
    (∀ c ∈ digits, ∃ d < 10, c = digitByte small d) → result.toInt = asInt v →
    (readDecimal result digits).toInt =
      asInt ((digits.foldl (fun v c => v * 10 + digitValue c) v : Nat) : Int) := by
  induction digits with
  | nil => exact fun result v _ h => h
  | cons c digits ih =>
    intro result v hd h
    obtain ⟨d, hlt, rfl⟩ := hd c List.mem_cons_self
    obtain ⟨hval, h0, -⟩ := charOf_digitByte d hlt small
    rw [readDecimal, if_neg h0, List.foldl_cons, digitValue_digitByte small (by omega)]
    refine ih _ _ (fun c hc => hd c (List.mem_cons_of_mem _ hc)) ?_
    rw [Int32.toInt_add, Int32.toInt_mul, h, hval, bmod_eq_asInt, bmod_eq_asInt,
      show (10 : Int32).toInt = 10 from rfl, asInt_asInt_mul_ten, asInt_asInt_add]
    exact congrArg asInt (by omega)

/-- An `int` is what is left of its own bits. -/
theorem asInt_toUInt32 (n : Int32) : asInt n.toUInt32.toNat = n.toInt := by
  rw [← bmod_eq_asInt]
  exact (BitVec.toInt_eq_toNat_bmod n.toBitVec).symm

/-- Digits without a sign, read as a number. -/
theorem atoi_numeral {n : Int32} {small : Bool} {digits : List UInt8}
    (h : Numeral 10 n.toUInt32.toNat small digits) : atoi (some digits) = n := by
  have hread : (readDecimal 0 digits).toInt = n.toInt := by
    rw [readDecimal_digits digits 0 0 h.digit rfl, ← asInt_toUInt32, ← h.value]
    rfl
  have hsign : deref digits ≠ 45 := by
    cases digits with
    | nil => exact absurd rfl h.ne_nil
    | cons c digits =>
      obtain ⟨d, hd, rfl⟩ := h.digit c List.mem_cons_self
      exact (charOf_digitByte d hd small).2.2
  have hone : (if asBool 1 then (1 : Int32) else 0) = 1 := by decide
  unfold atoi
  dsimp only
  rw [if_neg hsign]
  dsimp only
  rw [hone, Int32.mul_one]
  exact Int32.toInt_inj.mp hread

/-! ## 5. `%d` -/

theorem has_sign {flags flag : UInt32} (h : ¬Has SIGN flag) : Has (flags ||| SIGN) flag ↔ Has flags flag :=
  (has_or _ _ _).trans (or_iff_left h)

theorem signText_sign (flags : UInt32) : signText (flags ||| SIGN) = signText flags := by
  have hp : Has (flags ||| SIGN) PLUS ↔ Has flags PLUS := has_sign (by decide)
  have hs : Has (flags ||| SIGN) SPACE ↔ Has flags SPACE := has_sign (by decide)
  simp only [signText, hp, hs]

theorem prefixText_ten (flags : UInt32) : prefixText 10 flags = [] := by
  unfold prefixText
  split <;> rfl

/-- The three ways to pad, with the sign and without a prefix. -/
def decimalText (flags : UInt32) (precision size : Int32) (digits : List UInt8) : List UInt8 :=
  assemble (masked (flags ||| SIGN)) size (signText flags) []
    (List.replicate (precision.toInt - digits.length).toNat ZERO_CHAR) digits

section Ways

variable {flags : UInt32} {precision size : Int32} {digits : List UInt8}

/-- The zeros that the precision asks for, and the digits. -/
def withZeros (precision : Int32) (digits : List UInt8) : List UInt8 :=
  List.replicate (precision.toInt - digits.length).toNat ZERO_CHAR ++ digits

theorem decimalText_left (hl : Has flags LEFT) : decimalText flags precision size digits =
    signText flags ++ withZeros precision digits ++ List.replicate size.toInt.toNat SPACE_CHAR := by
  rw [decimalText, assemble_left ((has_sign (by decide)).mpr hl), withZeros, List.append_nil,
    List.append_assoc (signText flags)]

theorem decimalText_zeropad (hl : ¬Has flags LEFT) (hz : Has flags ZEROPAD) :
    decimalText flags precision size digits =
      signText flags ++ (List.replicate size.toInt.toNat ZERO_CHAR ++ withZeros precision digits) ++
        List.replicate (counted size.toInt).toNat SPACE_CHAR := by
  rw [decimalText, assemble_zeropad (mt (has_sign (by decide)).mp hl) ((has_sign (by decide)).mpr hz),
    withZeros, List.append_nil]
  simp only [List.append_assoc]

theorem decimalText_spaces (hl : ¬Has flags LEFT) (hz : ¬Has flags ZEROPAD) :
    decimalText flags precision size digits =
      List.replicate size.toInt.toNat SPACE_CHAR ++ signText flags ++
        List.replicate (counted size.toInt).toNat SPACE_CHAR ++ withZeros precision digits ++
          List.replicate (counted (counted size.toInt)).toNat SPACE_CHAR := by
  rw [decimalText, assemble_spaces (mt (has_sign (by decide)).mp hl)
    (mt (has_sign (by decide)).mp hz), withZeros, List.append_nil]
  simp only [List.append_assoc]

end Ways

/-- **The letters `d` and `i`**: `number` sees the argument as unsigned. -/
theorem switch_decimal (env : Env) (s : Out) (flags : UInt32) (width precision : Int32)
    (fmt : List UInt8) : ∃ digits size small,
      Numeral 10 (env.args s.next).toNat small digits ∧
      size.toInt = asInt (remaining (env.args s.next) 10 width.toInt precision.toInt flags) ∧
      ∀ c, c = 100 ∨ c = 105 → switch env s flags width precision (c :: fmt) =
        .ok ((s.arg env).2.write (decimalText flags precision size digits), false) := by
  obtain ⟨digits, size, hn, hsize, hrun⟩ :=
    number_run (env.args s.next) .dec width precision (flags ||| SIGN)
  rw [show Radix.dec.val = 10 from rfl] at hn hsize hrun
  have hrem : remaining (env.args s.next) 10 width.toInt precision.toInt (flags ||| SIGN) =
      remaining (env.args s.next) 10 width.toInt precision.toInt flags := by
    unfold remaining
    rw [signText_sign, prefixText_ten, prefixText_ten]
  rw [signText_sign, prefixText_ten] at hrun
  refine ⟨digits, size, _, hn, hrem ▸ hsize, fun c hc => ?_⟩
  have hput : putNumber env s 10 (flags ||| SIGN) width precision =
      .ok ((s.arg env).2.write (decimalText flags precision size digits)) := bind_of_ok hrun rfl
  have hswitch : switch env s flags width precision (c :: fmt) =
      (putNumber env s 10 (flags ||| SIGN) width precision).map (·, false) := by
    rcases hc with rfl | rfl <;> rfl
  rw [hswitch, hput]
  rfl

/-- Without a width and a precision the digits stand alone. -/
theorem decimalText_plain {v : UInt32} {size : Int32} {digits : List UInt8}
    (hs : size.toInt = asInt (remaining v 10 (-1) (-1) 0)) : decimalText 0 (-1) size digits = digits := by
  have hlog : Nat.log 10 v.toNat < 32 := log_lt .dec v
  have hsize : size.toInt = -2 - Nat.log 10 v.toNat := by
    rw [hs, remaining, prefixText_ten, show signText 0 = [] by decide, List.length_nil]
    unfold asInt
    omega
  have hcounted : counted size.toInt = size.toInt - 1 ∧
      counted (counted size.toInt) = size.toInt - 2 := by
    unfold counted asInt
    omega
  have hminus : ((-1 : Int32).toInt - digits.length).toNat = 0 := by
    rw [show (-1 : Int32).toInt = -1 from rfl]
    omega
  rw [decimalText_spaces (by decide) (by decide), hcounted.2, hcounted.1, hsize, withZeros, hminus,
    show signText 0 = [] by decide, Int.toNat_of_nonpos (by omega), Int.toNat_of_nonpos (by omega),
    Int.toNat_of_nonpos (by omega)]
  simp

/-- The text of `%d` with nothing else: the digits of the unsigned value. -/
theorem plain_text (str : UInt32 → CString) (n : Int32) : ∃ s small,
    vsprintf (passing str n) plain = .ok (s, []) ∧ Numeral 10 n.toUInt32.toNat small s.text := by
  obtain ⟨start, hstart⟩ : ∃ start : Out, start = ⟨0, [], [], []⟩ := ⟨_, rfl⟩
  obtain ⟨digits, size, small, hn, hsize, hrun⟩ :=
    switch_decimal (passing str n) start 0 (-1) (-1) []
  have hscan : scan (passing str n) start [37, 100] =
      .ok ((start.arg (passing str n)).2.write digits, []) := by
    have hswitch := hrun 100 (.inl rfl)
    rw [decimalText_plain hsize] at hswitch
    have hflags : readFlags 0 [37, 100] = .ok (0, [100]) := rfl
    have hwidth : readWidth (passing str n) start 0 [100] = .ok (-1, 0, start, [100]) := rfl
    have hprecision : readPrecision (passing str n) start [100] = .ok (-1, start, [100]) := rfl
    have hqualifier : readQualifier [100] = .ok [100] := rfl
    exact (scan_percent _ _ _).trans (bind_of_ok hflags (bind_of_ok hwidth (bind_of_ok hprecision
      (bind_of_ok hqualifier (bind_of_ok hswitch rfl)))))
  refine ⟨(start.arg (passing str n)).2.write digits, small, ?_, ?_⟩
  · unfold vsprintf
    rw [← hstart]
    exact bind_of_ok hscan rfl
  · rw [hstart]
    exact hn

/-- **`atoi` of the plain `%d` text of a number is the number.** -/
theorem atoi_plain (str : UInt32 → CString) (n : Int32) : ∃ s,
    vsprintf (passing str n) plain = .ok (s, []) ∧ atoi (some s.text) = n := by
  obtain ⟨s, small, hrun, h⟩ := plain_text str n
  exact ⟨s, hrun, atoi_numeral h⟩

/-! ## 6. What the text denotes -/

section Shape

variable {n : Int32} {small : Bool} {flags : UInt32} {precision size : Int32} {digits : List UInt8}

/-- The three ways to pad have one shape; blanks between the sign and the digits come from the counter at
    -2^31 alone. -/
theorem decimalText_shape (flags : UInt32) (precision size : Int32) (digits : List UInt8) : ∃ a k z b,
    decimalText flags precision size digits = List.replicate a SPACE_CHAR ++ signText flags ++
      List.replicate k SPACE_CHAR ++ (List.replicate z ZERO_CHAR ++ withZeros precision digits) ++
        List.replicate b SPACE_CHAR ∧
    (k ≠ 0 ↔ ¬Has flags LEFT ∧ ¬Has flags ZEROPAD ∧ size.toInt = -2147483648) := by
  by_cases hl : Has flags LEFT
  · exact ⟨0, 0, 0, size.toInt.toNat, by simp [decimalText_left hl], by simp [hl]⟩
  · by_cases hz : Has flags ZEROPAD
    · exact ⟨0, 0, size.toInt.toNat, (counted size.toInt).toNat, by simp [decimalText_zeropad hl hz],
        by simp [hz]⟩
    · refine ⟨size.toInt.toNat, (counted size.toInt).toNat, 0, (counted (counted size.toInt)).toNat,
        by simp [decimalText_spaces hl hz], ?_⟩
      have hb := toInt_bounds size
      have hc := counted_cases hb.1
      simp only [hl, hz, not_false_eq_true, true_and]
      omega

theorem isDigit_withZeros (h : Numeral 10 n.toUInt32.toNat small digits) (z : Nat) :
    ∀ c ∈ List.replicate z ZERO_CHAR ++ withZeros precision digits, isDigit c = true := by
  intro c hc
  unfold withZeros at hc
  rcases List.mem_append.mp hc with hc | hc
  · rw [List.eq_of_mem_replicate hc]
    exact isDigit_zero
  · rcases List.mem_append.mp hc with hc | hc
    · rw [List.eq_of_mem_replicate hc]
      exact isDigit_zero
    · exact h.isDigit c hc

theorem valueOf_withZeros (h : Numeral 10 n.toUInt32.toNat small digits) (z : Nat) :
    valueOf 10 (List.replicate z ZERO_CHAR ++ withZeros precision digits) = n.toUInt32.toNat := by
  rw [valueOf_zeros, withZeros, valueOf_zeros, h.value]

theorem minus_not_mem_signText (flags : UInt32) : MINUS_CHAR ∉ signText flags := by
  unfold signText
  split_ifs <;> decide

theorem dropWhile_blanks (a : Nat) (text : List UInt8) :
    (List.replicate a SPACE_CHAR ++ text).dropWhile (· == SPACE_CHAR) =
      text.dropWhile (· == SPACE_CHAR) := by
  induction a with
  | zero => rfl
  | succ a ih =>
    rw [List.replicate_succ, List.cons_append, List.dropWhile_cons_of_pos (by simp)]
    exact ih

/-- A plus sign with a blank behind it is the sign of no number. -/
theorem not_denotes_plus_blank {m : Int} (a : Nat) (text : List UInt8) (hm : 0 ≤ m) :
    ¬Denotes (List.replicate a SPACE_CHAR ++ PLUS_CHAR :: SPACE_CHAR :: text) m := by
  rintro ⟨before, sign, digits, after, heq, hne, hdigits, -, hsign⟩
  rw [if_neg (by omega)] at hsign
  have hdrop := congrArg (List.dropWhile (· == SPACE_CHAR)) heq
  rw [dropWhile_blanks, List.append_assoc, List.append_assoc, dropWhile_blanks,
    List.dropWhile_cons_of_neg (by decide)] at hdrop
  cases digits with
  | nil => exact hne rfl
  | cons d digits =>
    have hd := hdigits d List.mem_cons_self
    have hblank : d ≠ SPACE_CHAR := ne_of_isDigit hd (by decide)
    rcases hsign with rfl | rfl
    · rw [List.nil_append, List.cons_append, List.dropWhile_cons_of_neg (by simpa using hblank)] at hdrop
      exact ne_of_isDigit hd (by decide) (List.cons.inj hdrop).1.symm
    · rw [List.cons_append, List.dropWhile_cons_of_neg (by decide)] at hdrop
      exact hblank (List.cons.inj (List.cons.inj hdrop).2).1.symm

theorem toNat_of_nonneg (h : 0 ≤ n.toInt) : n.toUInt32.toNat = n.toInt.natAbs := by
  have := asInt_toUInt32 n
  have := n.toUInt32.toNat_lt
  have := toInt_bounds n
  unfold asInt at *
  omega

/-- Text of this shape denotes a number from zero on, unless blanks follow a plus sign. -/
theorem shape_denotes_iff (h : Numeral 10 n.toUInt32.toNat small digits) (a k z b : Nat) :
    Denotes (List.replicate a SPACE_CHAR ++ signText flags ++ List.replicate k SPACE_CHAR ++
        (List.replicate z ZERO_CHAR ++ withZeros precision digits) ++ List.replicate b SPACE_CHAR)
      n.toInt ↔ 0 ≤ n.toInt ∧ ¬(Has flags PLUS ∧ k ≠ 0) := by
  have hdigits := @isDigit_withZeros n small precision digits h z
  have hvalue := @valueOf_withZeros n small precision digits h z
  have hne : List.replicate z ZERO_CHAR ++ withZeros precision digits ≠ [] := by
    unfold withZeros
    simp [h.ne_nil]
  generalize List.replicate z ZERO_CHAR ++ withZeros precision digits = ds at hdigits hvalue hne ⊢
  constructor
  · intro hd
    have hpos : 0 ≤ n.toInt := by
      -- a negative number needs a minus, and there is none in the text
      obtain ⟨before, sign, digits, after, heq, -, -, -, hsign⟩ := hd
      by_contra hneg
      rw [if_pos (by omega)] at hsign
      have hmem : MINUS_CHAR ∈ List.replicate before SPACE_CHAR ++ sign ++ digits ++
          List.replicate after SPACE_CHAR := by simp [hsign]
      rw [← heq] at hmem
      simp only [List.mem_append, List.mem_replicate] at hmem
      rcases hmem with (((hmem | hmem) | hmem) | hmem) | hmem
      · exact absurd hmem.2 (by decide)
      · exact minus_not_mem_signText flags hmem
      · exact absurd hmem.2 (by decide)
      · exact ne_of_isDigit (hdigits _ hmem) (by decide) rfl
      · exact absurd hmem.2 (by decide)
    refine ⟨hpos, fun ⟨hplus, hk⟩ => ?_⟩
    obtain ⟨k, rfl⟩ := Nat.exists_eq_succ_of_ne_zero hk
    rw [signText, if_pos hplus, List.replicate_succ] at hd
    simp only [List.append_assoc, List.cons_append, List.nil_append] at hd
    exact not_denotes_plus_blank a _ hpos hd
  · rintro ⟨hpos, hk⟩
    have hval : valueOf 10 ds = n.toInt.natAbs := by rw [hvalue, toNat_of_nonneg hpos]
    by_cases hplus : Has flags PLUS
    · obtain rfl : k = 0 := not_not.mp fun h => hk ⟨hplus, h⟩
      exact ⟨a, [PLUS_CHAR], ds, b, by simp [signText, hplus], hne, hdigits, hval,
        by rw [if_neg (by omega)]; exact .inr rfl⟩
    · -- a blank for the sign is one more of those in front
      have hblank : ∃ j, signText flags = List.replicate j SPACE_CHAR := by
        by_cases hspace : Has flags SPACE
        · exact ⟨1, by simp [signText, hplus, hspace]⟩
        · exact ⟨0, by simp [signText, hplus, hspace]⟩
      obtain ⟨j, hj⟩ := hblank
      refine ⟨a + j + k, [], ds, b, ?_, hne, hdigits, hval, by rw [if_neg (by omega)]; exact .inl rfl⟩
      rw [hj, List.append_nil, List.replicate_append_replicate, List.replicate_append_replicate]

end Shape

/-- **A number printed and read again**: for every number, width, precision and flags, `%d` and `%i`
    write a text that denotes the number, and `atoi` gives the number for the plain one, exactly when
    the number is not negative and no blanks come between its sign and its digits. -/
theorem decimal_denotes (str : UInt32 → CString) (n : Int32) (s : Out) (flags : UInt32)
    (width precision : Int32) (fmt : List UInt8) : ∃ text t,
    switch (passing str n) s flags width precision (100 :: fmt) =
      .ok ((s.arg (passing str n)).2.write text, false) ∧
    switch (passing str n) s flags width precision (105 :: fmt) =
      .ok ((s.arg (passing str n)).2.write text, false) ∧
    vsprintf (passing str n) plain = .ok (t, []) ∧
    (Denotes text n.toInt ∧ atoi (some t.text) = n ↔
      0 ≤ n.toInt ∧ ¬Split n width precision flags) := by
  obtain ⟨digits, size, small, hn, hsize, hrun⟩ :=
    switch_decimal (passing str n) s flags width precision fmt
  obtain ⟨t, hplain, hatoi⟩ := atoi_plain str n
  obtain ⟨a, k, z, b, htext, hk⟩ := decimalText_shape flags precision size digits
  refine ⟨_, t, hrun 100 (.inl rfl), hrun 105 (.inr rfl), hplain, ?_⟩
  obtain ⟨hhi, hlo⟩ := remaining_bounds n.toUInt32 .dec width precision flags
  have hsize : size.toInt = asInt (remaining n.toUInt32 10 width.toInt precision.toInt flags) := hsize
  have hn : Numeral 10 n.toUInt32.toNat small digits := hn
  have hmin : size.toInt = -2147483648 ↔
      remaining n.toUInt32 10 width.toInt precision.toInt flags = -2147483648 := by
    rw [show Radix.dec.val = 10 from rfl] at hhi hlo
    rw [hsize]
    unfold asInt
    omega
  rw [and_iff_left hatoi, htext, shape_denotes_iff hn a k z b, hk, hmin]
  exact Iff.rfl

/-- -1 goes through the unsigned parameter as 4294967295 and is printed without a minus. -/
theorem decimal_denotes_not_always : ¬∀ (str : UInt32 → CString) (n : Int32) (s : Out) (flags : UInt32)
    (width precision : Int32) (fmt : List UInt8), ∃ text,
    switch (passing str n) s flags width precision (100 :: fmt) =
      .ok ((s.arg (passing str n)).2.write text, false) ∧ Denotes text n.toInt := by
  intro h
  obtain ⟨text, hrun, hd⟩ := h (fun _ => plain) (-1) ⟨0, [], [], []⟩ 0 (-1) (-1) []
  obtain ⟨digits, size, small, hn, -, hrun'⟩ :=
    switch_decimal (passing (fun _ => plain) (-1)) ⟨0, [], [], []⟩ 0 (-1) (-1) []
  have htext : text = decimalText 0 (-1) size digits :=
    congrArg (fun r => r.1.text) (Except.ok.inj (hrun.symm.trans (hrun' 100 (.inl rfl))))
  obtain ⟨a, k, z, b, hshape, -⟩ := decimalText_shape 0 (-1) size digits
  rw [htext, hshape] at hd
  exact absurd ((@shape_denotes_iff (-1) small 0 (-1) digits hn a k z b).mp hd).1 (by decide)

end Yuios.Text
