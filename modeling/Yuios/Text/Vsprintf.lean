/-
  File:      Yuios/Text/Vsprintf.lean
  Subject:   THE FORMAT SCANNER: `vsprintf` of `lib/vsprintf.c`, with `skip_atoi`.

  The pointer into the format is what lies before its end, so `[]` stands at the terminator;
  `bump` is `++fmt` and stops the model when it would step over the terminator. The arguments are
  the words that `va_arg` takes one after the other.

  * `scan` -- one turn of the loop, from one position in the format to the next.
  * `Directive` -- a conversion specification as the grammar has it, with what it takes from the
    arguments and, for a string, what it is to write.
  * **`scan_directive`** -- the turn takes one specification as one unit, except where the precision is
    `.*` (`Plain`).
  * **`vsprintf_units`** -- so for every format: the scan ends, at the terminator, and every turn of
    it is right exactly when all specifications are plain.
-/
import Yuios.Text.Number

namespace Yuios.Text

/-! ## 1. The code -/

/-- A string in memory: bytes and a terminator. Its length is an `int`. -/
structure CString where
  bytes : List UInt8
  nonzero : (0 : UInt8) ∉ bytes
  short : bytes.length < 2147483648

/-- What the caller passes: the words of `args`, and the strings that a word may point to. -/
structure Env where
  args : Nat → UInt32
  str : UInt32 → CString

/-- The words taken so far, the text written, the stores of `%n`; `copied` is a history: the part of
    each string that went to the text. -/
structure Out where
  next : Nat
  text : List UInt8
  stores : List (UInt32 × Nat)
  copied : List (List UInt8)

def Out.write (s : Out) (text : List UInt8) : Out := { s with text := s.text ++ text }

/-- `va_arg`: the word and the state after it. -/
def Out.arg (env : Env) (s : Out) : UInt32 × Out := (env.args s.next, { s with next := s.next + 1 })

/-- `*fmt`. -/
def deref (fmt : List UInt8) : UInt8 := fmt.headD 0

/-- `++fmt`. -/
def bump : List UInt8 → Except Stop (List UInt8)
  | [] => .error .outOfBuffer
  | _ :: fmt => .ok fmt

def isDigit (c : UInt8) : Bool := 48 ≤ c && c ≤ 57

def skipAtoi (i : Int32) : List UInt8 → Int32 × List UInt8
  | [] => (i, [])
  | c :: s => if isDigit c then skipAtoi (i * 10 + Int32.ofNat c.toNat - 48) s else (i, c :: s)

/-- The flag of a character: `-`, `+`, blank, `#` and `0` have one. -/
def flagOf (c : UInt8) : Option UInt32 :=
  if c = 45 then some LEFT
  else if c = 43 then some PLUS
  else if c = 32 then some SPACE
  else if c = 35 then some SPECIAL
  else if c = 48 then some ZEROPAD
  else none

/-- The label `repeat`, from the character before the one it looks at. -/
def readFlags (flags : UInt32) : List UInt8 → Except Stop (UInt32 × List UInt8)
  | [] => .error .outOfBuffer
  | _ :: fmt =>
    match flagOf (deref fmt) with
    | some flag => readFlags (flags ||| flag) fmt
    | none => .ok (flags, fmt)

/-- `field_width`: digits, or `*` for the next argument. -/
def readWidth (env : Env) (s : Out) (flags : UInt32) (fmt : List UInt8) :
    Except Stop (Int32 × UInt32 × Out × List UInt8) :=
  if isDigit (deref fmt) then
    let (width, fmt) := skipAtoi 0 fmt
    .ok (width, flags, s, fmt)
  else if deref fmt = 42 then do
    let fmt ← bump fmt
    let (word, s) := s.arg env
    let width := word.toInt32
    return if width < 0 then (-width, flags ||| LEFT, s, fmt) else (width, flags, s, fmt)
  else .ok (-1, flags, s, fmt)

/-- Behind the dot: digits, or the next argument for `*`, which is not stepped over. -/
def readLimit (env : Env) (s : Out) (fmt : List UInt8) : Int32 × Out × List UInt8 :=
  if isDigit (deref fmt) then
    let (precision, fmt) := skipAtoi 0 fmt
    (precision, s, fmt)
  else if deref fmt = 42 then
    let (word, s) := s.arg env
    (word.toInt32, s, fmt)
  else (-1, s, fmt)

/-- `precision`, -1 without a dot. -/
def readPrecision (env : Env) (s : Out) (fmt : List UInt8) : Except Stop (Int32 × Out × List UInt8) :=
  if deref fmt = 46 then do
    let fmt ← bump fmt
    let (precision, s, fmt) := readLimit env s fmt
    return (if precision < 0 then 0 else precision, s, fmt)
  else .ok (-1, s, fmt)

/-- `qualifier`: one of `h`, `l` and `L` is stepped over; nothing looks at it later. -/
def readQualifier (fmt : List UInt8) : Except Stop (List UInt8) :=
  if deref fmt = 104 ∨ deref fmt = 108 ∨ deref fmt = 76 then bump fmt else .ok fmt

/-- `while (--w > 0) *str++ = ' '`. -/
def countBefore (w : Int32) : List UInt8 × Int32 := fill SPACE_CHAR 0 (w - 1)

/-- The case `c`. -/
def putChar (env : Env) (s : Out) (flags : UInt32) (width : Int32) : Out :=
  let (spaces, width) := if flags &&& LEFT = 0 then countBefore width else ([], width)
  let (word, s) := s.arg env
  s.write (spaces ++ [word.toUInt8] ++ (countBefore width).1)

/-- The case `s`. -/
def putString (env : Env) (s : Out) (flags : UInt32) (width precision : Int32) : Out :=
  let (word, s) := s.arg env
  let bytes := (env.str word).bytes
  let len := Int32.ofNat bytes.length
  let len := if precision < 0 then len else if len > precision then precision else len
  let (spaces, width) := if flags &&& LEFT = 0 then countdown SPACE_CHAR len width else ([], width)
  let chars := bytes.take len.toInt.toNat
  { s with
    text := s.text ++ spaces ++ chars ++ (countdown SPACE_CHAR len width).1
    copied := s.copied ++ [chars] }

/-- The cases that call `number`; a NULL it gave back would be written to. -/
def putNumber (env : Env) (s : Out) (base : Int32) (flags : UInt32) (width precision : Int32) :
    Except Stop Out := do
  let (word, s) := s.arg env
  let text ← number word base width precision flags
  match text with
  | some text => return s.write text
  | none => .error .fault

/-- The switch over the conversion letter; the flag says that the default case stepped back. -/
def switch (env : Env) (s : Out) (flags : UInt32) (width precision : Int32) (fmt : List UInt8) :
    Except Stop (Out × Bool) :=
  let c := deref fmt
  if c = 99 then .ok (putChar env s flags width, false)
  else if c = 115 then .ok (putString env s flags width precision, false)
  else if c = 111 then (putNumber env s 8 flags width precision).map (·, false)
  else if c = 112 then
    (if width = -1 then putNumber env s 16 (flags ||| ZEROPAD) 8 precision
      else putNumber env s 16 flags width precision).map (·, false)
  else if c = 120 then (putNumber env s 16 (flags ||| SMALL) width precision).map (·, false)
  else if c = 88 then (putNumber env s 16 flags width precision).map (·, false)
  else if c = 100 ∨ c = 105 then (putNumber env s 10 (flags ||| SIGN) width precision).map (·, false)
  else if c = 117 then (putNumber env s 10 flags width precision).map (·, false)
  else if c = 110 then
    let (word, s) := s.arg env
    .ok ({ s with stores := s.stores ++ [(word, s.text.length)] }, false)
  else
    let s := if c ≠ 37 then s.write [37] else s
    if c ≠ 0 then .ok (s.write [c], false) else .ok (s, true)

/-- One turn of the loop, from `fmt` to where its `++fmt` leaves the pointer. A step back from the
    terminator and that step forward lead to the terminator again. -/
def scan (env : Env) (s : Out) (fmt : List UInt8) : Except Stop (Out × List UInt8) :=
  if deref fmt ≠ 37 then do
    let s := s.write [deref fmt]
    let fmt ← bump fmt
    return (s, fmt)
  else do
    let (flags, fmt) ← readFlags 0 fmt
    let (width, flags, s, fmt) ← readWidth env s flags fmt
    let (precision, s, fmt) ← readPrecision env s fmt
    let fmt ← readQualifier fmt
    let (s, back) ← switch env s flags width precision fmt
    if back then return (s, fmt)
    else do
      let fmt ← bump fmt
      return (s, fmt)

/-- The loop, at most `turns` turns: the state at its end and where the pointer is. -/
def scanAll (env : Env) : Nat → Out → List UInt8 → Except Stop (Out × List UInt8)
  | 0, s, fmt => .ok (s, fmt)
  | turns + 1, s, fmt =>
    if deref fmt = 0 then .ok (s, fmt)
    else do
      let (s, fmt) ← scan env s fmt
      scanAll env turns s fmt

/-- `vsprintf`: a turn takes at least a byte of the format, so there are no more turns than bytes. The
    terminator of `buf` is not part of the text. -/
def vsprintf (env : Env) (fmt : CString) : Except Stop (Out × List UInt8) :=
  scanAll env fmt.bytes.length ⟨0, [], [], []⟩ fmt.bytes

/-! ## 2. The grammar -/

/-- A number in a specification: left out, the next argument, or digits. -/
inductive Num where
  | absent
  | star
  | digits (n : Nat)
  deriving DecidableEq

def isFlag (c : UInt8) : Bool := (flagOf c).isSome

/-- `*` or digits at the front, and what follows. -/
def readNum (fmt : List UInt8) : Num × List UInt8 :=
  if isDigit (deref fmt) then (.digits (valueOf 10 (fmt.takeWhile isDigit)), fmt.dropWhile isDigit)
  else if deref fmt = 42 then (.star, fmt.tail)
  else (.absent, fmt)

/-- The parts of a specification behind its `%`, and what follows it; the conversion letter is missing
    when the format ends before it. -/
structure Directive where
  flags : List UInt8
  width : Num
  precision : Option Num
  qualifier : Option UInt8
  conv : Option UInt8
  rest : List UInt8

/-- A dot and a number at the front, and what follows. -/
def dotNum (fmt : List UInt8) : Option Num × List UInt8 :=
  if deref fmt = 46 then (some (readNum fmt.tail).1, (readNum fmt.tail).2) else (none, fmt)

/-- A qualifier at the front, and what follows. -/
def qualified (fmt : List UInt8) : Option UInt8 × List UInt8 :=
  if deref fmt = 104 ∨ deref fmt = 108 ∨ deref fmt = 76 then (fmt.head?, fmt.tail) else (none, fmt)

/-- `[flags][width or *][.precision or .*][h, l or L]conversion`. -/
def Directive.parse (fmt : List UInt8) : Directive :=
  let w := readNum (fmt.dropWhile isFlag)
  let p := dotNum w.2
  let q := qualified p.2
  ⟨fmt.takeWhile isFlag, w.1, p.1, q.1, q.2.head?, q.2.tail⟩

namespace Directive

/-- `c`, `s`, `o`, `p`, `x`, `X`, `d`, `i`, `u` and `n` take an argument. -/
def takes (conv : Option UInt8) : Bool :=
  conv ∈ ([99, 115, 111, 112, 120, 88, 100, 105, 117, 110] : List UInt8).map some

/-- The arguments that the specification takes. -/
def arguments (d : Directive) : Nat :=
  (if d.width = .star then 1 else 0) + (if d.precision = some .star then 1 else 0) +
    (if takes d.conv then 1 else 0)

variable (env : Env) (k : Nat)

/-- The width, when `k` arguments were taken before; a negative argument stands for its magnitude. -/
def fieldWidth (d : Directive) : Nat :=
  match d.width with
  | .absent => 0
  | .star => (env.args k).toInt32.toInt.natAbs
  | .digits n => n

/-- Justified to the left: by the flag, or by a negative argument for the width. -/
def Left (d : Directive) : Prop :=
  45 ∈ d.flags ∨ d.width = .star ∧ (env.args k).toInt32.toInt < 0

/-- The string of the specification: the argument behind those of the width and the precision. -/
def string (d : Directive) : List UInt8 :=
  (env.str (env.args (k + (if d.width = .star then 1 else 0) +
    (if d.precision = some .star then 1 else 0)))).bytes

/-- How many characters of a string are to be written, at most. -/
def limit (d : Directive) : Option Nat :=
  d.precision.map fun p => match p with
    | .absent => 0
    | .star => (env.args (k + if d.width = .star then 1 else 0)).toInt32.toInt.toNat
    | .digits n => n

/-- `min(length, precision)` characters. -/
def chars (d : Directive) : List UInt8 :=
  match d.limit env k with
  | none => d.string env k
  | some n => (d.string env k).take n

end Directive

/-- Filled up with spaces to the width, behind the characters or in front of them. -/
def justify (left : Prop) [Decidable left] (width : Nat) (chars : List UInt8) : List UInt8 :=
  if left then chars ++ List.replicate (width - chars.length) SPACE_CHAR
  else List.replicate (width - chars.length) SPACE_CHAR ++ chars

instance (env : Env) (k : Nat) (d : Directive) : Decidable (d.Left env k) :=
  inferInstanceAs (Decidable (_ ∨ _))

/-- **A turn of the loop is right**: what was written stays, a character outside is copied, a
    specification is taken as one unit with its arguments, and a string is written as it says. -/
structure Right (env : Env) (s : Out) (fmt : List UInt8) (s' : Out) (fmt' : List UInt8) : Prop where
  kept : s.text <+: s'.text
  outside : deref fmt ≠ 37 → s' = s.write [deref fmt] ∧ fmt' = fmt.tail
  unit : deref fmt = 37 → fmt' = (Directive.parse fmt.tail).rest
  arguments : deref fmt = 37 → s'.next = s.next + (Directive.parse fmt.tail).arguments
  string : deref fmt = 37 → (Directive.parse fmt.tail).conv = some 115 →
    let d := Directive.parse fmt.tail
    s'.copied = s.copied ++ [d.chars env s.next] ∧
      s'.text = s.text ++ justify (d.Left env s.next) (d.fieldWidth env s.next) (d.chars env s.next)

/-- A number in the digits of a precision, as the `int` that `skip_atoi` leaves of it. -/
def asPrecision (n : Nat) : Nat := (asInt n).toNat

/-- **The specification is plain**: its precision is not `.*`, unless the format ends there; and when
    it is that of a string, its width is an `int`, and so is its precision, or what is left of it is
    still long enough. -/
structure Plain (env : Env) (k : Nat) (d : Directive) : Prop where
  star : d.precision = some .star → d.qualifier = none ∧ d.conv = none
  width : d.conv = some 115 → d.fieldWidth env k < 2147483648
  precision : d.conv = some 115 → ∀ n, d.precision = some (.digits n) →
    n < 2147483648 ∨ (d.string env k).length ≤ asPrecision n

/-! ## 3. The parts of a specification -/

section Read

variable {env : Env} {s : Out} {flags : UInt32} {fmt : List UInt8}

theorem has_or (a b flag : UInt32) : Has (a ||| b) flag ↔ Has a flag ∨ Has b flag := by
  have h : (a ||| b) &&& flag = (a &&& flag) ||| (b &&& flag) := by
    rw [← UInt32.toNat_inj, UInt32.toNat_and, UInt32.toNat_or, UInt32.toNat_or, UInt32.toNat_and,
      UInt32.toNat_and, Nat.and_or_distrib_right]
  unfold Has
  rw [h, ne_eq, UInt32.or_eq_zero_iff, not_and_or]

theorem flagOf_left {c : UInt8} {flag : UInt32} (h : flagOf c = some flag) : Has flag LEFT ↔ c = 45 := by
  unfold flagOf at h
  split_ifs at h with h1 h2 h3 h4 h5 <;> cases h
  · exact iff_of_true (by decide) h1
  all_goals exact iff_of_false (by decide) h1

/-- The flags are read to the first character that is none. -/
theorem readFlags_ok (fmt : List UInt8) : ∀ flags c, ∃ flags',
    readFlags flags (c :: fmt) = .ok (flags', fmt.dropWhile isFlag) ∧
      (Has flags' LEFT ↔ Has flags LEFT ∨ 45 ∈ fmt.takeWhile isFlag) := by
  induction fmt with
  | nil => exact fun flags c => ⟨flags, rfl, by simp⟩
  | cons d fmt ih =>
    intro flags c
    cases hd : flagOf d with
    | none =>
      have hf : isFlag d = false := by simp [isFlag, hd]
      exact ⟨flags, by simp [readFlags, deref, hd, hf], by simp [hf]⟩
    | some flag =>
      have hf : isFlag d = true := by simp [isFlag, hd]
      obtain ⟨flags', hrun, hleft⟩ := ih (flags ||| flag) d
      refine ⟨flags', ?_, ?_⟩
      · rw [readFlags, deref, List.headD_cons, hd]
        exact hrun.trans (by simp [hf])
      · rw [hleft, has_or, flagOf_left hd, List.takeWhile_cons_of_pos hf, List.mem_cons, or_assoc,
          eq_comm (a := d)]

theorem toInt_step {i : Int32} {v : Nat} {c : UInt8} (hi : i.toInt = asInt v) (hc : isDigit c = true) :
    (i * 10 + Int32.ofNat c.toNat - 48).toInt = asInt ((v * 10 + digitValue c : Nat) : Int) := by
  have hlt := c.toNat_lt
  simp only [isDigit, Bool.and_eq_true, decide_eq_true_eq, UInt8.le_iff_toNat_le] at hc
  have h48 : 48 ≤ c.toNat := hc.1
  have h57 : c.toNat ≤ 57 := hc.2
  have hd : digitValue c = c.toNat - 48 := by
    unfold digitValue
    rw [if_pos (UInt8.lt_iff_toNat_lt.mpr (show c.toNat < 58 by omega))]
  have hn : (Int32.ofNat c.toNat).toInt = c.toNat :=
    (Int32.toInt_ofNat'.trans (bmod_eq_asInt _)).trans (asInt_of_lt (by omega))
  rw [toInt_sub, Int32.toInt_add, Int32.toInt_mul, hi, hd, hn, bmod_eq_asInt, bmod_eq_asInt,
    show (10 : Int32).toInt = 10 from rfl, show (48 : Int32).toInt = 48 from rfl,
    asInt_asInt_mul_ten, asInt_asInt_add, asInt_asInt_sub]
  refine congrArg asInt ?_
  omega

/-- `skip_atoi` reads the digits as their value, which an `int` may not hold. -/
theorem skipAtoi_ok (fmt : List UInt8) : ∀ (i : Int32) (v : Nat), i.toInt = asInt v →
    (skipAtoi i fmt).2 = fmt.dropWhile isDigit ∧ (skipAtoi i fmt).1.toInt =
      asInt (((fmt.takeWhile isDigit).foldl (fun v c => v * 10 + digitValue c) v : Nat) : Int) := by
  induction fmt with
  | nil => exact fun i v hi => ⟨rfl, hi⟩
  | cons c fmt ih =>
    intro i v hi
    by_cases hc : isDigit c = true
    · obtain ⟨h1, h2⟩ := ih _ _ (toInt_step hi hc)
      rw [skipAtoi, if_pos hc, List.dropWhile_cons_of_pos hc, List.takeWhile_cons_of_pos hc,
        List.foldl_cons]
      exact ⟨h1, h2⟩
    · rw [skipAtoi, if_neg hc, List.dropWhile_cons_of_neg hc, List.takeWhile_cons_of_neg hc]
      exact ⟨rfl, hi⟩

/-- The digits where a number starts. -/
theorem skipAtoi_digits (fmt : List UInt8) :
    (skipAtoi 0 fmt).2 = fmt.dropWhile isDigit ∧
      (skipAtoi 0 fmt).1.toInt = asInt (valueOf 10 (fmt.takeWhile isDigit) : Int) :=
  skipAtoi_ok fmt 0 0 rfl

theorem cons_of_deref {c : UInt8} (h : deref fmt = c) (hc : c ≠ 0) : fmt = c :: fmt.tail := by
  cases fmt with
  | nil => exact absurd h hc.symm
  | cons d fmt => exact congrArg (· :: fmt) h

theorem bump_cons {fmt : List UInt8} (h : deref fmt ≠ 0) : bump fmt = .ok fmt.tail := by
  cases fmt with
  | nil => exact absurd rfl h
  | cons c fmt => rfl

/-- What is read of a width. -/
structure WidthRead (env : Env) (s : Out) (flags : UInt32) (num : Num) (width : Int32)
    (flags' : UInt32) (s' : Out) : Prop where
  state : s' = { s with next := s.next + if num = .star then 1 else 0 }
  left : Has flags' LEFT ↔
    Has flags LEFT ∨ num = .star ∧ (env.args s.next).toInt32.toInt < 0
  least : -1 ≤ width.toInt ∨ 2147483648 ≤ (Directive.mk [] num none none none []).fieldWidth env s.next
  value : (Directive.mk [] num none none none []).fieldWidth env s.next < 2147483648 →
    width.toInt.toNat = (Directive.mk [] num none none none []).fieldWidth env s.next

theorem readWidth_ok (env : Env) (s : Out) (flags : UInt32) (fmt : List UInt8) :
    ∃ width flags' s', readWidth env s flags fmt = .ok (width, flags', s', (readNum fmt).2) ∧
      WidthRead env s flags (readNum fmt).1 width flags' s' := by
  unfold readWidth readNum
  by_cases hd : isDigit (deref fmt) = true
  · obtain ⟨hrest, hval⟩ := skipAtoi_digits fmt
    simp only [if_pos hd, hrest]
    refine ⟨_, _, _, rfl, by simp, by simp, ?_, fun h => ?_⟩
    · rw [hval]
      show _ ∨ 2147483648 ≤ valueOf 10 (fmt.takeWhile isDigit)
      by_cases hlt : valueOf 10 (fmt.takeWhile isDigit) < 2147483648
      · rw [asInt_of_lt hlt]
        omega
      · omega
    · have hlt : valueOf 10 (fmt.takeWhile isDigit) < 2147483648 := h
      rw [hval, asInt_of_lt hlt]
      rfl
  · simp only [if_neg hd]
    by_cases hs : deref fmt = 42
    · rw [if_pos hs, if_pos hs, bump_cons (by rw [hs]; decide)]
      obtain ⟨w, hw⟩ : ∃ w, w = (env.args s.next).toInt32 := ⟨_, rfl⟩
      have hb := toInt_bounds w
      have h0 : (0 : Int32).toInt = 0 := rfl
      have hval : (Directive.mk [] .star none none none []).fieldWidth env s.next = w.toInt.natAbs := by
        rw [hw]
        rfl
      by_cases hneg : w < 0
      · have hn := Int32.lt_iff_toInt_lt.mp hneg
        have hneg' : (-w).toInt = asInt (-w.toInt) := by rw [Int32.toInt_neg, bmod_eq_asInt]
        refine ⟨-w, flags ||| LEFT, { s with next := s.next + 1 }, ?_, by simp, ?_, ?_, fun h => ?_⟩
        · rw [hw] at hneg ⊢
          exact congrArg Except.ok (if_pos hneg)
        · rw [has_or, ← hw]
          exact or_congr_right (iff_of_true (by decide) ⟨rfl, by omega⟩)
        · rw [hval, hneg']
          unfold asInt
          omega
        · rw [hval] at h ⊢
          rw [hneg', show -w.toInt = ((w.toInt.natAbs : Nat) : Int) by omega, asInt_of_lt h]
          rfl
      · have hn := mt Int32.lt_iff_toInt_lt.mpr hneg
        refine ⟨w, flags, { s with next := s.next + 1 }, ?_, by simp, ?_, .inl (by omega), fun _ => ?_⟩
        · rw [hw] at hneg ⊢
          exact congrArg Except.ok (if_neg hneg)
        · rw [← hw]
          exact (or_iff_left fun h => hn (by omega)).symm
        · rw [hval]
          omega
    · rw [if_neg hs, if_neg hs]
      exact ⟨_, _, _, rfl, by simp, by simp, .inl (by decide), fun _ => rfl⟩

/-- What is read of a precision that is not the next argument. -/
structure PrecisionRead (num : Option Num) (precision : Int32) : Prop where
  absent : num = none → precision < 0
  empty : num = some .absent → precision = 0
  digits : ∀ n, num = some (.digits n) → 0 ≤ precision ∧ precision.toInt.toNat = asPrecision n

theorem readNum_digits (h : isDigit (deref fmt) = true) :
    readNum fmt = (.digits (valueOf 10 (fmt.takeWhile isDigit)), fmt.dropWhile isDigit) := if_pos h

theorem readNum_star (h : deref fmt = 42) : readNum fmt = (.star, fmt.tail) := by
  unfold readNum
  rw [h]
  rfl

theorem readNum_absent (hd : ¬isDigit (deref fmt) = true) (hs : deref fmt ≠ 42) :
    readNum fmt = (.absent, fmt) := by
  rw [readNum, if_neg hd, if_neg hs]

theorem readPrecision_dot (env : Env) (s : Out) (h : deref fmt = 46) :
    readPrecision env s fmt = .ok (if (readLimit env s fmt.tail).1 < 0 then 0
      else (readLimit env s fmt.tail).1, (readLimit env s fmt.tail).2) := by
  rw [readPrecision, if_pos h, bump_cons (by rw [h]; decide)]
  rfl

theorem readPrecision_ok (env : Env) (s : Out) (h : (dotNum fmt).1 ≠ some .star) :
    ∃ precision, readPrecision env s fmt = .ok (precision, s, (dotNum fmt).2) ∧
      PrecisionRead (dotNum fmt).1 precision := by
  by_cases hdot : deref fmt = 46
  · rw [readPrecision_dot env s hdot]
    rw [dotNum, if_pos hdot] at h ⊢
    by_cases hd : isDigit (deref fmt.tail) = true
    · obtain ⟨hrest, hval⟩ := skipAtoi_digits fmt.tail
      have hl : readLimit env s fmt.tail = ((skipAtoi 0 fmt.tail).1, s, (skipAtoi 0 fmt.tail).2) :=
        if_pos hd
      rw [readNum_digits hd, hl, hrest]
      generalize (skipAtoi 0 fmt.tail).1 = v at hval
      refine ⟨_, rfl, by simp, by simp, fun n hn => ?_⟩
      have hn : valueOf 10 (fmt.tail.takeWhile isDigit) = n := by simpa using hn
      rw [hn] at hval
      unfold asPrecision
      rw [← hval]
      have h0 : (0 : Int32).toInt = 0 := rfl
      split
      · rename_i hneg
        have := Int32.lt_iff_toInt_lt.mp hneg
        exact ⟨Int32.le_refl _, by omega⟩
      · rename_i hneg
        exact ⟨Int32.not_lt.mp hneg, rfl⟩
    · have hs : deref fmt.tail ≠ 42 := fun hs => h (by rw [readNum_star hs])
      have hl : readLimit env s fmt.tail = (-1, s, fmt.tail) := by
        rw [readLimit, if_neg hd, if_neg hs]
      rw [readNum_absent hd hs, hl]
      exact ⟨_, rfl, by simp, fun _ => show (if (-1 : Int32) < 0 then 0 else -1) = 0 by decide, by simp⟩
  · rw [dotNum, if_neg hdot, readPrecision, if_neg hdot]
    exact ⟨-1, rfl, fun _ => by decide, by simp, by simp⟩

/-- The precision `.*`: the argument is taken, but the pointer stays at the star. -/
theorem readPrecision_star (env : Env) (s : Out) (h : (dotNum fmt).1 = some .star) :
    deref fmt.tail = 42 ∧ (dotNum fmt).2 = fmt.tail.tail ∧ ∃ precision,
      readPrecision env s fmt = .ok (precision, { s with next := s.next + 1 }, fmt.tail) := by
  by_cases hdot : deref fmt = 46
  · rw [readPrecision_dot env s hdot]
    rw [dotNum, if_pos hdot] at h ⊢
    by_cases hs : deref fmt.tail = 42
    · have hl : readLimit env s fmt.tail =
          ((env.args s.next).toInt32, { s with next := s.next + 1 }, fmt.tail) := by
        rw [readLimit, hs]
        rfl
      rw [readNum_star hs, hl]
      exact ⟨hs, rfl, _, rfl⟩
    · by_cases hd : isDigit (deref fmt.tail) = true
      · rw [readNum_digits hd] at h
        cases h
      · rw [readNum_absent hd hs] at h
        cases h
  · rw [dotNum, if_neg hdot] at h
    cases h

theorem readQualifier_ok (fmt : List UInt8) : readQualifier fmt = .ok (qualified fmt).2 := by
  unfold readQualifier qualified
  split
  · rename_i h
    exact bump_cons (by rcases h with h | h | h <;> rw [h] <;> decide)
  · rfl

end Read

/-! ## 4. The conversion -/

/-- What a conversion may do to the output: take words and write behind the text. -/
structure Converts (s : Out) (words : Nat) (s' : Out) : Prop where
  kept : s.text <+: s'.text
  next : s'.next = s.next + words

theorem Converts.write (s : Out) (text : List UInt8) : Converts s 0 (s.write text) :=
  ⟨List.prefix_append _ _, rfl⟩

theorem putChar_converts (env : Env) (s : Out) (flags : UInt32) (width : Int32) :
    Converts s 1 (putChar env s flags width) := ⟨List.prefix_append _ _, rfl⟩

theorem putString_converts (env : Env) (s : Out) (flags : UInt32) (width precision : Int32) :
    Converts s 1 (putString env s flags width precision) := by
  refine ⟨?_, rfl⟩
  unfold putString
  dsimp only
  rw [List.append_assoc, List.append_assoc]
  exact List.prefix_append _ _

/-- The three bases are ones that `number` takes. -/
theorem putNumber_converts (env : Env) (s : Out) {base : Int32} (r : Radix) (hr : base = r.int)
    (flags : UInt32) (width precision : Int32) :
    ∃ s', putNumber env s base flags width precision = .ok s' ∧ Converts s 1 s' := by
  subst hr
  obtain ⟨digits, size, _, _, hrun⟩ := number_run (env.args s.next) r width precision flags
  generalize assemble (masked flags) size (signText flags) (prefixText r.val flags)
    (List.replicate (precision.toInt - digits.length).toNat ZERO_CHAR) digits = text at hrun
  refine ⟨(s.arg env).2.write text, ?_, List.prefix_append _ _, rfl⟩
  show (number (env.args s.next) r.int width precision flags >>= _) = _
  rw [hrun]
  rfl

theorem takes_iff (c : UInt8) : Directive.takes (some c) = true ↔
    c = 99 ∨ c = 115 ∨ c = 111 ∨ c = 112 ∨ c = 120 ∨ c = 88 ∨ c = 100 ∨ c = 105 ∨ c = 117 ∨
      c = 110 := by
  simp only [Directive.takes, List.map_cons, List.map_nil, List.mem_cons, Option.some.injEq,
    List.not_mem_nil, or_false, decide_eq_true_eq]

theorem takes_none : Directive.takes none = false := by decide

/-- What the switch does at a letter. -/
structure Switched (env : Env) (s : Out) (flags : UInt32) (width precision : Int32) (conv : Option UInt8)
    (s' : Out) : Prop where
  converts : Converts s (if Directive.takes conv then 1 else 0) s'
  string : conv = some 115 → s' = putString env s flags width precision

section Switch

variable {env : Env} {s s' : Out} {flags : UInt32} {width precision : Int32} {c : UInt8}

/-- A letter other than `s` that takes an argument. -/
theorem Switched.taking (ht : Directive.takes (some c) = true) (hc : c ≠ 115) (h : Converts s 1 s') :
    Switched env s flags width precision (some c) s' :=
  ⟨by rw [if_pos ht]; exact h, fun h => absurd (Option.some.inj h) hc⟩

theorem switched_number {run : Except Stop Out} (ht : Directive.takes (some c) = true) (hc : c ≠ 115)
    (h : ∃ s', run = .ok s' ∧ Converts s 1 s') :
    ∃ s', run.map (·, false) = .ok (s', false) ∧ Switched env s flags width precision (some c) s' := by
  obtain ⟨s', hrun, h⟩ := h
  exact ⟨s', by rw [hrun]; rfl, .taking ht hc h⟩

/-- **The switch** takes its argument for the letters that have one, and does not step back. -/
theorem switch_letter (fmt : List UInt8) (hc : c ≠ 0) :
    ∃ s', switch env s flags width precision (c :: fmt) = .ok (s', false) ∧
      Switched env s flags width precision (some c) s' := by
  unfold switch
  rw [show deref (c :: fmt) = c from rfl]
  dsimp only
  by_cases h1 : c = 99
  · rw [if_pos h1]
    exact ⟨_, rfl, .taking (by rw [h1]; decide) (by rw [h1]; decide) (putChar_converts ..)⟩
  rw [if_neg h1]
  by_cases h2 : c = 115
  · rw [if_pos h2]
    exact ⟨_, rfl, by rw [h2]; exact ⟨putString_converts .., fun _ => rfl⟩⟩
  rw [if_neg h2]
  by_cases h3 : c = 111
  · rw [if_pos h3]
    exact switched_number (by rw [h3]; decide) h2
      (putNumber_converts env s .oct rfl flags width precision)
  rw [if_neg h3]
  by_cases h4 : c = 112
  · rw [if_pos h4]
    refine switched_number (by rw [h4]; decide) h2 ?_
    split
    · exact putNumber_converts env s .hex rfl (flags ||| ZEROPAD) 8 precision
    · exact putNumber_converts env s .hex rfl flags width precision
  rw [if_neg h4]
  by_cases h5 : c = 120
  · rw [if_pos h5]
    exact switched_number (by rw [h5]; decide) h2
      (putNumber_converts env s .hex rfl (flags ||| SMALL) width precision)
  rw [if_neg h5]
  by_cases h6 : c = 88
  · rw [if_pos h6]
    exact switched_number (by rw [h6]; decide) h2
      (putNumber_converts env s .hex rfl flags width precision)
  rw [if_neg h6]
  by_cases h7 : c = 100 ∨ c = 105
  · rw [if_pos h7]
    exact switched_number (by rcases h7 with h7 | h7 <;> rw [h7] <;> decide) h2
      (putNumber_converts env s .dec rfl (flags ||| SIGN) width precision)
  rw [if_neg h7]
  by_cases h8 : c = 117
  · rw [if_pos h8]
    exact switched_number (by rw [h8]; decide) h2
      (putNumber_converts env s .dec rfl flags width precision)
  rw [if_neg h8]
  by_cases h9 : c = 110
  · rw [if_pos h9]
    exact ⟨_, rfl, .taking (by rw [h9]; decide) h2 ⟨List.prefix_refl _, rfl⟩⟩
  rw [if_neg h9, if_pos hc]
  have ht : ¬Directive.takes (some c) = true := by
    rw [takes_iff]
    simp [*, not_or.mp h7]
  refine ⟨_, rfl, ?_, fun h => absurd (Option.some.inj h) h2⟩
  rw [if_neg ht]
  split
  · exact ⟨(List.prefix_append _ _).trans (List.prefix_append _ _), rfl⟩
  · exact Converts.write s _

/-- At the terminator the switch takes nothing, and steps back. -/
theorem switch_end (env : Env) (s : Out) (flags : UInt32) (width precision : Int32) :
    switch env s flags width precision [] = .ok (s.write [37], true) := rfl

end Switch

/-! ## 5. A string -/

/-- How many characters the code writes of a string of this length. -/
def lenOf (precision : Int32) (length : Nat) : Nat :=
  if precision < 0 then length else min length precision.toInt.toNat

theorem lenOf_le (precision : Int32) (length : Nat) : lenOf precision length ≤ length := by
  unfold lenOf
  split
  · exact Nat.le_refl _
  · exact Nat.min_le_left _ _

theorem toInt_lenOf (precision : Int32) {length : Nat} (h : length < 2147483648) :
    (if precision < 0 then Int32.ofNat length
      else if Int32.ofNat length > precision then precision else Int32.ofNat length).toInt =
      lenOf precision length := by
  have hl : (Int32.ofNat length).toInt = length :=
    (Int32.toInt_ofNat'.trans (bmod_eq_asInt _)).trans (asInt_of_lt h)
  have h0 : (0 : Int32).toInt = 0 := rfl
  unfold lenOf
  split
  · exact hl
  · rename_i hneg
    rw [Int32.lt_iff_toInt_lt] at hneg
    split
    · rename_i hlong
      rw [gt_iff_lt, Int32.lt_iff_toInt_lt] at hlong
      omega
    · rename_i hlong
      rw [gt_iff_lt, Int32.lt_iff_toInt_lt] at hlong
      omega

/-- The text of a string: its characters, and the spaces that the two loops write. -/
def stringText (left : Prop) [Decidable left] (width : Int) (chars : List UInt8) : List UInt8 :=
  if left then chars ++ List.replicate (width - chars.length).toNat SPACE_CHAR
  else List.replicate (width - chars.length).toNat SPACE_CHAR ++ chars ++
    List.replicate (asInt (min width chars.length - 1) - chars.length).toNat SPACE_CHAR

/-- What the case `s` does. -/
theorem putString_eq (env : Env) (s : Out) (flags : UInt32) (width precision : Int32) :
    let bytes := (env.str (env.args s.next)).bytes
    let chars := bytes.take (lenOf precision bytes.length)
    (putString env s flags width precision).copied = s.copied ++ [chars] ∧
      (putString env s flags width precision).text =
        s.text ++ stringText (Has flags LEFT) width.toInt chars := by
  intro bytes chars
  have hm := toInt_lenOf precision (env.str (env.args s.next)).short
  have hlen : chars.length = lenOf precision bytes.length := by
    rw [List.length_take, Nat.min_eq_left (lenOf_le _ _)]
  unfold putString Out.arg
  dsimp only
  generalize (if precision < 0 then Int32.ofNat (env.str (env.args s.next)).bytes.length
    else if Int32.ofNat (env.str (env.args s.next)).bytes.length > precision then precision
    else Int32.ofNat (env.str (env.args s.next)).bytes.length) = len at hm ⊢
  rw [hm, Int.toNat_natCast]
  refine ⟨rfl, ?_⟩
  unfold stringText
  by_cases hl : flags &&& LEFT = 0
  · have hleft : ¬Has flags LEFT := not_not.mpr hl
    rw [if_pos hl, if_neg hleft, countdown_text, countdown_text, countdown_rest, hm, hlen]
    simp only [List.append_assoc]
    rfl
  · have hleft : Has flags LEFT := hl
    rw [if_neg hl, if_pos hleft, countdown_text, hm, hlen]
    simp only [List.append_nil, List.append_assoc]
    rfl

/-- A width that is an `int`, or missing, is filled up to. -/
theorem stringText_justify {left : Prop} [Decidable left] {width : Int} {chars : List UInt8}
    (h : -1 ≤ width) (hi : width < 2147483648) (hc : chars.length < 2147483648) :
    stringText left width chars = justify left width.toNat chars := by
  have hsub : (width - chars.length).toNat = width.toNat - chars.length := by omega
  unfold stringText justify
  rw [hsub]
  split
  · rfl
  · have hrest : (asInt (min width chars.length - 1) - chars.length).toNat = 0 := by
      unfold asInt
      omega
    rw [hrest, List.replicate_zero, List.append_nil]

/-- The loops never write more than an `int` of characters. -/
theorem length_stringText {left : Prop} [Decidable left] {width : Int} {chars : List UInt8}
    (h : -2147483648 ≤ width) (hi : width < 2147483648) (hc : chars.length < 2147483648) :
    (stringText left width chars).length < 2147483648 := by
  unfold stringText
  split
  · rw [List.length_append, List.length_replicate]
    omega
  · rw [List.length_append, List.length_append, List.length_replicate, List.length_replicate]
    unfold asInt
    omega

theorem length_justify (left : Prop) [Decidable left] (width : Nat) (chars : List UInt8) :
    (justify left width chars).length = max width chars.length := by
  unfold justify
  split
  · rw [List.length_append, List.length_replicate]
    omega
  · rw [List.length_append, List.length_replicate]
    omega

theorem justify_congr {left left' : Prop} [Decidable left] [Decidable left'] {width : Nat}
    {chars : List UInt8} (h : left ↔ left') : justify left width chars = justify left' width chars :=
  if_congr h rfl rfl

theorem length_chars_le (env : Env) (k : Nat) (d : Directive) :
    (d.chars env k).length ≤ (d.string env k).length := by
  unfold Directive.chars
  split
  · exact Nat.le_refl _
  · exact List.length_take_le' _ _

/-- The characters are the ones asked for, exactly when what is left of the precision is long enough. -/
theorem chars_iff {env : Env} {k : Nat} {d : Directive} {precision : Int32}
    (hs : d.precision ≠ some .star) (hp : PrecisionRead d.precision precision) :
    (d.string env k).take (lenOf precision (d.string env k).length) = d.chars env k ↔
      ∀ n, d.precision = some (.digits n) →
        n < 2147483648 ∨ (d.string env k).length ≤ asPrecision n := by
  have hshort : (d.string env k).length < 2147483648 := CString.short _
  unfold Directive.chars Directive.limit
  generalize d.string env k = bytes at hshort
  cases hpr : d.precision with
  | none =>
    rw [lenOf, if_pos (hp.absent hpr)]
    simp
  | some num =>
    cases num with
    | absent =>
      rw [hp.empty hpr]
      simp [lenOf]
    | star => exact absurd hpr hs
    | digits n =>
      obtain ⟨hpos, hval⟩ := hp.digits n hpr
      have hlen : lenOf precision bytes.length = min bytes.length (asPrecision n) := by
        rw [lenOf, if_neg (Int32.not_lt.mpr hpos), hval]
      have hn : n < 2147483648 → asPrecision n = n := fun h => by
        rw [asPrecision, asInt_of_lt h, Int.toNat_natCast]
      rw [hlen]
      simp only [Option.map_some, Option.some.injEq, Num.digits.injEq, forall_eq']
      constructor
      · intro h
        have hl := congrArg List.length h
        rw [List.length_take, List.length_take] at hl
        omega
      · rintro (h | h)
        · rw [hn h, Nat.min_comm, ← List.take_take, List.take_length]
        · by_cases hlt : n < 2147483648
          · rw [hn hlt, Nat.min_comm, ← List.take_take, List.take_length]
          · rw [List.take_of_length_le (by omega), List.take_of_length_le (by omega)]

/-! ## 6. One turn -/

/-- What the reads of a specification leave, when its precision is not `.*`. -/
structure ReadTo (env : Env) (s : Out) (d : Directive) (flags : UInt32) (width precision : Int32)
    (s₁ : Out) : Prop where
  state : s₁ = { s with next := s.next + if d.width = .star then 1 else 0 }
  left : Has flags LEFT ↔ d.Left env s.next
  least : -1 ≤ width.toInt ∨ 2147483648 ≤ d.fieldWidth env s.next
  width : d.fieldWidth env s.next < 2147483648 → width.toInt.toNat = d.fieldWidth env s.next
  noStar : d.precision ≠ some .star
  precision : PrecisionRead d.precision precision

/-- **A string is written as its specification says** exactly when the numbers in that are small
    enough. -/
theorem putString_iff {env : Env} {s s₁ : Out} {d : Directive} {flags : UInt32}
    {width precision : Int32} (h : ReadTo env s d flags width precision s₁) :
    ((putString env s₁ flags width precision).copied = s.copied ++ [d.chars env s.next] ∧
      (putString env s₁ flags width precision).text = s.text ++
        justify (d.Left env s.next) (d.fieldWidth env s.next) (d.chars env s.next)) ↔
    d.fieldWidth env s.next < 2147483648 ∧ ∀ n, d.precision = some (.digits n) →
      n < 2147483648 ∨ (d.string env s.next).length ≤ asPrecision n := by
  obtain ⟨hcopied, htext⟩ := putString_eq env s₁ flags width precision
  have hstr : (env.str (env.args s₁.next)).bytes = d.string env s.next := by
    rw [h.state, Directive.string, if_neg h.noStar]
    rfl
  have hs₁ : s₁.copied = s.copied ∧ s₁.text = s.text := by
    rw [h.state]
    exact ⟨rfl, rfl⟩
  rw [hstr] at hcopied htext
  rw [hcopied, htext, hs₁.1, hs₁.2, List.append_cancel_left_eq, List.append_cancel_left_eq,
    List.cons.injEq, and_iff_left rfl, ← chars_iff h.noStar h.precision]
  have hw := toInt_bounds width
  have hshort : (d.chars env s.next).length < 2147483648 :=
    Nat.lt_of_le_of_lt (length_chars_le env s.next d) (CString.short _)
  constructor
  · rintro ⟨hchars, ht⟩
    rw [hchars] at ht
    have hlen := @length_stringText (Has flags LEFT) _ _ _ hw.1 hw.2 hshort
    rw [ht, length_justify] at hlen
    exact ⟨by omega, hchars⟩
  · rintro ⟨hwidth, hchars⟩
    have hval := h.width hwidth
    have hleast := h.least
    rw [hchars, stringText_justify (by omega) hw.2 hshort, hval, justify_congr h.left]
    exact ⟨rfl, rfl⟩

/-! ### What follows a specification -/

theorem readNum_suffix (fmt : List UInt8) : (readNum fmt).2 <:+ fmt := by
  unfold readNum
  split
  · exact List.dropWhile_suffix _
  · split
    · exact List.tail_suffix fmt
    · exact List.suffix_refl fmt

theorem dotNum_suffix (fmt : List UInt8) : (dotNum fmt).2 <:+ fmt := by
  unfold dotNum
  split
  · exact (readNum_suffix _).trans (List.tail_suffix fmt)
  · exact List.suffix_refl fmt

theorem qualified_suffix (fmt : List UInt8) : (qualified fmt).2 <:+ fmt := by
  unfold qualified
  split
  · exact List.tail_suffix fmt
  · exact List.suffix_refl fmt

/-- The text behind the width of a specification. -/
theorem width_suffix (fmt : List UInt8) : (readNum (fmt.dropWhile isFlag)).2 <:+ fmt :=
  (readNum_suffix _).trans (List.dropWhile_suffix _)

/-- Behind `.*` a specification goes on, unless the format ends. -/
theorem rest_eq_iff (fmt : List UInt8) :
    fmt = (qualified fmt).2.tail ↔ (qualified fmt).1 = none ∧ (qualified fmt).2.head? = none := by
  cases fmt with
  | nil => simp [qualified, deref]
  | cons c fmt =>
    have hlen := (qualified_suffix (c :: fmt)).length_le
    refine iff_of_false (fun h => ?_) fun h => ?_
    · have := congrArg List.length h
      rw [List.length_tail] at this
      simp only [List.length_cons] at this hlen
      omega
    · unfold qualified at h
      split at h
      · exact absurd h.1 (by simp)
      · exact absurd h.2 (by simp)

/-! ### The turn -/

/-- Where a turn leads: it does not fail, takes at least a byte, and is right exactly when what it reads
    there is plain. -/
structure Turned (env : Env) (s : Out) (fmt : List UInt8) (s' : Out) (fmt' : List UInt8) : Prop where
  run : scan env s fmt = .ok (s', fmt')
  shorter : fmt'.length < fmt.length
  suffix : fmt' <:+ fmt
  right : Right env s fmt s' fmt' ↔ (deref fmt = 37 → Plain env s.next (Directive.parse fmt.tail))

theorem scan_outside (env : Env) (s : Out) {c : UInt8} (fmt : List UInt8) (hc : c ≠ 37) :
    Turned env s (c :: fmt) (s.write [c]) fmt where
  run := by
    rw [scan, if_pos (show deref (c :: fmt) ≠ 37 from hc)]
    rfl
  shorter := Nat.lt_succ_self _
  suffix := List.suffix_cons c fmt
  right := iff_of_true ⟨List.prefix_append _ _, fun _ => ⟨rfl, rfl⟩, fun h => absurd h hc,
    fun h => absurd h hc, fun h => absurd h hc⟩ fun h => absurd h hc

section Specification

variable {env : Env} {s : Out} {r : List UInt8}

/-- The steps of a turn at a `%`. -/
theorem scan_percent (env : Env) (s : Out) (r : List UInt8) :
    scan env s (37 :: r) = readFlags 0 (37 :: r) >>= fun (flags, fmt) =>
      readWidth env s flags fmt >>= fun (width, flags, s, fmt) =>
      readPrecision env s fmt >>= fun (precision, s, fmt) =>
      readQualifier fmt >>= fun fmt =>
      switch env s flags width precision fmt >>= fun (s, back) =>
      if back then Except.ok (s, fmt) else bump fmt >>= fun fmt => Except.ok (s, fmt) :=
  if_neg (not_not.mpr rfl)

/-- Up to the precision. -/
theorem scan_width (env : Env) (s : Out) (r : List UInt8) : ∃ flags width flags' s₁,
    (Has flags LEFT ↔ 45 ∈ r.takeWhile isFlag) ∧
    WidthRead env s flags (Directive.parse r).width width flags' s₁ ∧
    scan env s (37 :: r) =
      (readPrecision env s₁ (readNum (r.dropWhile isFlag)).2 >>= fun (precision, s, fmt) =>
      readQualifier fmt >>= fun fmt =>
      switch env s flags' width precision fmt >>= fun (s, back) =>
      if back then Except.ok (s, fmt) else bump fmt >>= fun fmt => Except.ok (s, fmt)) := by
  obtain ⟨flags, hflags, hleft⟩ := readFlags_ok r 0 37
  obtain ⟨width, flags', s₁, hwidth, hw⟩ := readWidth_ok env s flags (r.dropWhile isFlag)
  refine ⟨flags, width, flags', s₁, hleft.trans (or_iff_right (by decide)), hw, ?_⟩
  rw [scan_percent, hflags]
  show (readWidth env s flags _ >>= _) = _
  rw [hwidth]
  rfl

/-- The specification of a turn that stopped at `fmt'` is right exactly when it is one unit with its
    arguments, and when it is that of a string, is written as it says. -/
theorem right_iff {s' : Out} {fmt' : List UInt8} (hk : s.text <+: s'.text) :
    Right env s (37 :: r) s' fmt' ↔ fmt' = (Directive.parse r).rest ∧
      s'.next = s.next + (Directive.parse r).arguments ∧ ((Directive.parse r).conv = some 115 →
        s'.copied = s.copied ++ [(Directive.parse r).chars env s.next] ∧
          s'.text = s.text ++ justify ((Directive.parse r).Left env s.next)
            ((Directive.parse r).fieldWidth env s.next) ((Directive.parse r).chars env s.next)) :=
  ⟨fun h => ⟨h.unit rfl, h.arguments rfl, h.string rfl⟩,
    fun ⟨hu, ha, hs⟩ => ⟨hk, fun h => absurd rfl h, fun _ => hu, fun _ => ha, fun _ => hs⟩⟩

/-- **With `.*`** the turn goes to the star and no further. -/
theorem scan_star (hs : (Directive.parse r).precision = some .star) :
    ∃ s' fmt', Turned env s (37 :: r) s' fmt' := by
  obtain ⟨flags, width, flags', s₁, -, hw, hrun⟩ := scan_width env s r
  obtain ⟨hstar, hrest, precision, hprec⟩ := readPrecision_star env s₁ hs
  have hsuf := (dotNum_suffix (readNum (r.dropWhile isFlag)).2).trans (width_suffix r)
  have hcons := cons_of_deref hstar (by decide)
  obtain ⟨z, hz⟩ : ∃ z, z = (readNum (r.dropWhile isFlag)).2.tail.tail := ⟨_, rfl⟩
  rw [← hz] at hcons hrest
  rw [hrest] at hsuf
  have hunit : (Directive.parse r).qualifier = (qualified z).1 ∧
      (Directive.parse r).conv = (qualified z).2.head? ∧
      (Directive.parse r).rest = (qualified z).2.tail := by
    rw [← hrest]
    exact ⟨rfl, rfl, rfl⟩
  obtain ⟨s', hswitch, hsw⟩ := @switch_letter env { s₁ with next := s₁.next + 1 } flags'
    width precision 42 z (by decide)
  have hnext : s'.next = s.next + (if (Directive.parse r).width = .star then 1 else 0) + 1 := by
    rw [hsw.converts.next, hw.state]
    rfl
  refine ⟨s', z, ?_, Nat.lt_succ_of_le hsuf.length_le, hsuf.trans (List.suffix_cons _ r), ?_⟩
  · have hqual : readQualifier (42 :: z) = .ok (42 :: z) :=
      if_neg (show ¬((42 : UInt8) = 104 ∨ (42 : UInt8) = 108 ∨ (42 : UInt8) = 76) by decide)
    rw [hcons] at hprec
    exact hrun.trans (bind_of_ok hprec (bind_of_ok hqual (bind_of_ok hswitch rfl)))
  · have hk : s.text <+: s'.text := by
      have hs₁ : s₁.text = s.text := by rw [hw.state]
      exact hs₁ ▸ hsw.converts.kept
    rw [right_iff hk, hunit.2.2, rest_eq_iff, ← hunit.1, ← hunit.2.1]
    constructor
    · rintro ⟨hend, -⟩ -
      have hconv : (Directive.parse r).conv ≠ some 115 := fun h => nomatch hend.2.symm.trans h
      exact ⟨fun _ => hend, fun h => absurd h hconv, fun h => absurd h hconv⟩
    · intro hplain
      have hend : (Directive.parse r).qualifier = none ∧ (Directive.parse r).conv = none :=
        (hplain rfl).star hs
      refine ⟨hend, ?_, fun h => nomatch hend.2.symm.trans h⟩
      rw [hnext, Directive.arguments, if_pos hs, hend.2, takes_none]
      rfl

/-- **Without `.*`** the turn takes the specification and its arguments. -/
theorem scan_noStar (h0 : (0 : UInt8) ∉ r) (hs : (Directive.parse r).precision ≠ some .star) :
    ∃ s' fmt', Turned env s (37 :: r) s' fmt' := by
  obtain ⟨flags, width, flags', s₁, hflags, hw, hrun⟩ := scan_width env s r
  obtain ⟨precision, hprec, hp⟩ := readPrecision_ok env s₁ hs
  obtain ⟨q, hq⟩ : ∃ q, q = (qualified (dotNum (readNum (r.dropWhile isFlag)).2).2).2 := ⟨_, rfl⟩
  have hsuf : q <:+ r := by
    rw [hq]
    exact (qualified_suffix _).trans ((dotNum_suffix _).trans (width_suffix r))
  have hread : ReadTo env s (Directive.parse r) flags' width precision s₁ :=
    ⟨hw.state, hw.left.trans (or_congr_left hflags), hw.least, hw.value, hs, hp⟩
  have hconv : (Directive.parse r).conv = q.head? := by
    rw [hq]
    rfl
  have hrest : (Directive.parse r).rest = q.tail := by
    rw [hq]
    rfl
  have hstep : scan env s (37 :: r) = switch env s₁ flags' width precision q >>= fun (s, back) =>
      if back then Except.ok (s, q) else bump q >>= fun fmt => Except.ok (s, fmt) := by
    rw [hrun, hprec]
    show (readQualifier _ >>= _) = _
    rw [readQualifier_ok, hq]
    rfl
  obtain ⟨s', hturn, hsw⟩ : ∃ s', scan env s (37 :: r) = .ok (s', q.tail) ∧
      Switched env s₁ flags' width precision q.head? s' := by
    rw [hstep]
    cases q with
    | nil => exact ⟨s₁.write [37], by rw [switch_end]; rfl, Converts.write s₁ _, by simp⟩
    | cons c q =>
      obtain ⟨s', hswitch, hsw⟩ := @switch_letter env s₁ flags' width precision c q
        (ne_of_mem_of_not_mem List.mem_cons_self fun h => h0 (hsuf.subset h))
      exact ⟨s', bind_of_ok hswitch rfl, hsw⟩
  have hlen : q.tail.length < (37 :: r).length :=
    Nat.lt_succ_of_le (((List.tail_suffix q).trans hsuf).length_le)
  have hk : s.text <+: s'.text := by
    have hs₁ : s₁.text = s.text := by rw [hw.state]
    exact hs₁ ▸ hsw.converts.kept
  have hnext : s'.next = s.next + (Directive.parse r).arguments := by
    rw [hsw.converts.next, hw.state, Directive.arguments, if_neg hs, hconv, Nat.add_zero, Nat.add_assoc]
  refine ⟨s', q.tail, hturn, hlen,
    (List.tail_suffix q).trans (hsuf.trans (List.suffix_cons _ r)), ?_⟩
  rw [right_iff hk]
  constructor
  · rintro ⟨-, -, hstring⟩ -
    refine ⟨fun h => absurd h hs, fun h => ?_, fun h => ?_⟩
    · rw [hsw.string (hconv ▸ h)] at hstring
      exact ((putString_iff hread).mp (hstring h)).1
    · rw [hsw.string (hconv ▸ h)] at hstring
      exact ((putString_iff hread).mp (hstring h)).2
  · intro hplain
    refine ⟨hrest.symm, hnext, fun h => ?_⟩
    rw [hsw.string (hconv ▸ h)]
    exact (putString_iff hread).mpr ⟨(hplain rfl).width h, (hplain rfl).precision h⟩

end Specification

/-- **A turn of the loop**, from any position before the terminator. -/
theorem scan_directive (env : Env) (s : Out) {fmt : List UInt8} (h0 : (0 : UInt8) ∉ fmt)
    (hne : fmt ≠ []) : ∃ s' fmt', Turned env s fmt s' fmt' := by
  cases fmt with
  | nil => exact absurd rfl hne
  | cons c r =>
    by_cases hc : c = 37
    · subst hc
      by_cases hs : (Directive.parse r).precision = some .star
      · exact scan_star hs
      · exact scan_noStar (fun h => h0 (List.mem_cons_of_mem _ h)) hs
    · exact ⟨_, _, scan_outside env s r hc⟩

/-! ## 7. The whole format -/

/-- A turn: the state and the position before it and after it. -/
structure Turn where
  before : Out
  fmt : List UInt8
  after : Out
  fmt' : List UInt8

/-- The turns that the loop makes. -/
def turnsOf (env : Env) : Nat → Out → List UInt8 → List Turn
  | 0, _, _ => []
  | turns + 1, s, fmt =>
    if deref fmt = 0 then []
    else match scan env s fmt with
      | .ok (s', fmt') => ⟨s, fmt, s', fmt'⟩ :: turnsOf env turns s' fmt'
      | .error _ => []

theorem parse_rest_suffix (r : List UInt8) : (Directive.parse r).rest <:+ r :=
  (List.tail_suffix _).trans ((qualified_suffix _).trans ((dotNum_suffix _).trans (width_suffix r)))

/-- The specifications of a format, as the grammar divides it: what stands behind each `%`, and how many
    arguments the ones before it take, from `k` on. -/
def units (k : Nat) : List UInt8 → List (Nat × List UInt8)
  | [] => []
  | c :: r =>
    if c = 37 then (k, r) :: units (k + (Directive.parse r).arguments) (Directive.parse r).rest
    else units k r
termination_by fmt => fmt.length
decreasing_by
  · exact Nat.lt_succ_of_le (parse_rest_suffix r).length_le
  · exact Nat.lt_succ_self _

theorem units_outside (k : Nat) {c : UInt8} (r : List UInt8) (hc : c ≠ 37) :
    units k (c :: r) = units k r := by
  rw [units, if_neg hc]

theorem units_percent (k : Nat) (r : List UInt8) : units k (37 :: r) =
    (k, r) :: units (k + (Directive.parse r).arguments) (Directive.parse r).rest := by
  rw [units, if_pos rfl]

/-- A turn that is right leads to where the grammar's division goes on. -/
theorem units_of_right {env : Env} {s s' : Out} {c : UInt8} {r fmt' : List UInt8}
    (h : Right env s (c :: r) s' fmt') (P : Nat × List UInt8 → Prop) :
    (∀ u ∈ units s.next (c :: r), P u) ↔
      (c = 37 → P (s.next, r)) ∧ ∀ u ∈ units s'.next fmt', P u := by
  by_cases hc : c = 37
  · subst hc
    rw [units_percent, List.forall_mem_cons, h.unit rfl, h.arguments rfl]
    exact and_congr_left' ⟨fun h _ => h, fun h => h rfl⟩
  · obtain ⟨rfl, rfl⟩ := h.outside hc
    rw [units_outside _ _ hc]
    exact (and_iff_right fun h => absurd h hc).symm

/-- **The loop** ends at the terminator, and its turns are right exactly when the grammar's
    specifications are plain. -/
theorem scanAll_ok (env : Env) (turns : Nat) : ∀ (s : Out) (fmt : List UInt8), fmt.length ≤ turns →
    (0 : UInt8) ∉ fmt → ∃ s', scanAll env turns s fmt = .ok (s', []) ∧
      ((∀ t ∈ turnsOf env turns s fmt, Right env t.before t.fmt t.after t.fmt') ↔
        ∀ u ∈ units s.next fmt, Plain env u.1 (Directive.parse u.2)) := by
  induction turns with
  | zero =>
    intro s fmt hlen _
    rw [List.eq_nil_of_length_eq_zero (Nat.le_zero.mp hlen)]
    exact ⟨s, rfl, by simp [turnsOf, units]⟩
  | succ turns ih =>
    intro s fmt hlen h0
    cases fmt with
    | nil => exact ⟨s, rfl, by simp [turnsOf, units, deref]⟩
    | cons c r =>
      have hc : ¬deref (c :: r) = 0 := fun h => h0 (h ▸ List.mem_cons_self)
      obtain ⟨s', fmt', ht⟩ := scan_directive env s h0 (List.cons_ne_nil c r)
      obtain ⟨s₂, hrun, hiff⟩ := ih s' fmt' (by have := ht.shorter; omega)
        fun h => h0 (ht.suffix.subset h)
      refine ⟨s₂, ?_, ?_⟩
      · rw [scanAll, if_neg hc]
        exact bind_of_ok ht.run hrun
      · rw [turnsOf, if_neg hc, ht.run]
        dsimp only
        rw [List.forall_mem_cons, hiff]
        constructor
        · rintro ⟨hright, hplain⟩
          exact (units_of_right hright _).mpr ⟨ht.right.mp hright, hplain⟩
        · intro hplain
          have hright : Right env s (c :: r) s' fmt' := ht.right.mpr fun hp => by
            obtain rfl : c = 37 := hp
            rw [units_percent] at hplain
            exact hplain _ List.mem_cons_self
          exact ⟨hright, ((units_of_right hright _).mp hplain).2⟩

/-- **The format scanner**: for every format and every list of arguments the scan ends at the
    terminator, without a step over it, and every turn copies a character from outside or takes one
    specification as one unit with its arguments, exactly when every specification is plain. -/
theorem vsprintf_units (env : Env) (fmt : CString) : ∃ s, vsprintf env fmt = .ok (s, []) ∧
    ((∀ t ∈ turnsOf env fmt.bytes.length ⟨0, [], [], []⟩ fmt.bytes,
        Right env t.before t.fmt t.after t.fmt') ↔
      ∀ u ∈ units 0 fmt.bytes, Plain env u.1 (Directive.parse u.2)) :=
  scanAll_ok env _ _ _ (Nat.le_refl _) fmt.nonzero

/-- With the format `%.*d` the first turn ends at the star: the number is not converted, its argument is
    not taken, and the letter is copied as text. -/
theorem vsprintf_units_not_always : ¬∀ (env : Env) (fmt : CString),
    ∃ s, vsprintf env fmt = .ok (s, []) ∧
      ∀ t ∈ turnsOf env fmt.bytes.length ⟨0, [], [], []⟩ fmt.bytes,
        Right env t.before t.fmt t.after t.fmt' := by
  intro h
  obtain ⟨s, -, hright⟩ := h ⟨fun _ => 5, fun _ => ⟨[], by decide, by decide⟩⟩
    ⟨[37, 46, 42, 100], by decide, by decide⟩
  have hfirst := (hright ⟨⟨0, [], [], []⟩, [37, 46, 42, 100], ⟨1, [37, 42], [], []⟩, [100]⟩
    List.mem_cons_self).unit rfl
  exact absurd hfirst (by decide)

end Yuios.Text
