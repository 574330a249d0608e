/-
  File:      Yuios/Kernel/Time.lean
  Subject:   CIVIL TIME: `mktime`, `get_yday` and `localtime` of `kernel/time.c`, against the calendar.

  A `time_t` is a `UInt32` and wraps; an `int` product that passes 2^31 is taken as the bits it leaves,
  which is what it adds to a `time_t`. The years are never negative where they are divided, so the
  division is that of `Int`.

  * `Reads` -- the fields of a `tm` give a date and time, the year counted from 1900 or, from 2000 on,
    as the two digits of the clock. **`mktime_seconds`** -- `mktime` gives its seconds exactly when
    they are those of a full hour, since it never adds the minutes; the day is always right.
  * `Tells` -- the fields that `localtime` sets are those of a stamp. **`localtime_civil`** -- they
    are exactly from March on in common years, before the leap days so far and the day of the year
    make up a year of their own.
-/
import Mathlib.Algebra.Group.Int.Defs
import Mathlib.Algebra.Group.Nat.Defs
import Yuios.Lib.Calendar

namespace Yuios.Time

open Lib.Calendar

/-! ## 1. The code -/

def MINUTE : Int := 60
def HOUR : Int := 60 * MINUTE
def DAY : Int := 24 * HOUR
def YEAR : Int := 365 * DAY

/-- `month[m]`: the days before the month in a leap year; `m` is from 1 to 12. -/
def month (m : Int) : Int :=
  [0, 0, 31, 60, 91, 121, 152, 182, 213, 244, 274, 305, 335].getD m.toNat 0

structure Tm where
  sec : Int
  min : Int
  hour : Int
  mday : Int
  mon : Int
  year : Int
  wday : Int
  yday : Int
  isdst : Int
  deriving DecidableEq

/-- The years since 1970, as `mktime` and `get_yday` find them. -/
def yearsOf (time : Tm) : Int := if time.year ≥ 70 then time.year - 70 else time.year - 70 + 100

def mktime (time : Tm) : UInt32 :=
  let year := yearsOf time
  let res := UInt32.ofInt (YEAR * year)
  let res := res + UInt32.ofInt (DAY * ((year + 1) / 4))
  let res := res + UInt32.ofInt (month time.mon * DAY)
  let res := if time.mon > 2 ∧ (year + 2) % 4 ≠ 0 then res - UInt32.ofInt DAY else res
  let res := res + UInt32.ofInt (DAY * (time.mday - 1))
  let res := res + UInt32.ofInt (HOUR * time.hour)
  res + UInt32.ofInt time.sec

def getYday (time : Tm) : Int :=
  let res := month time.mon + time.mday
  let year := yearsOf time
  if (year + 2) % 4 ≠ 0 ∧ time.mon > 2 then res - 1 else res

def elapsedLeapYears (year : Int) : Int :=
  (year - 1) / 4 - (year - 1) / 100 + (year + 299) / 400 - (1970 - 1900) / 4

def isLeapYear (year : Int) : Bool :=
  (year % 4 == 0 && year % 100 != 0) || (year + 1900) % 400 == 0

/-- The loop over the months, `n` of them from `mon` on: the first whose start is past the day, or the
    one behind the last. -/
def findMonth (offset yday : Int) : Nat → Nat → Nat
  | 0, mon => mon
  | n + 1, mon => if month mon - offset > yday then mon else findMonth offset yday n (mon + 1)

def localtime (stamp : UInt32) (time : Tm) : Tm :=
  let sec := stamp % 60
  let remain := stamp / 60
  let min := remain % 60
  let remain := remain / 60
  let hour := remain % 24
  let days := remain / 24
  let wday := (days + 4) % 7
  let years : Int := (days / 365).toNat + 70
  let offset : Int := if isLeapYear years then 0 else 1
  let days := days - UInt32.ofInt (elapsedLeapYears years)
  let yday : Int := (days % UInt32.ofInt (366 - offset)).toNat
  let mon : Int := (findMonth offset yday 12 1 : Nat) - 1
  { time with
    sec := sec.toNat, min := min.toNat, hour := hour.toNat, wday := wday.toNat, year := years
    yday := yday, mon := mon, mday := yday - month mon + offset + 1 }

/-! ## 2. The code's tables and the calendar -/

theorem isLeapYear_eq {year : Nat} : isLeapYear ((year : Int) - 1900) = decide (IsLeap year) := by
  rw [Bool.eq_iff_iff, decide_eq_true_eq]
  simp only [isLeapYear, IsLeap, Bool.or_eq_true, Bool.and_eq_true, beq_iff_eq, bne_iff_ne]
  omega

theorem leapYears_eq {year : Nat} (h : 1970 ≤ year) :
    (leapYears 1970 year : Int) = elapsedLeapYears ((year : Int) - 1900) := by
  obtain ⟨n, rfl⟩ := Nat.exists_eq_add_of_le h
  unfold leapYears
  rw [Nat.add_sub_cancel_left]
  induction n with
  | zero => rfl
  | succ n ih =>
    have hi := ih (by omega)
    rw [start_succ]
    unfold elapsedLeapYears at hi ⊢
    split
    · rename_i hl
      unfold IsLeap at hl
      omega
    · rename_i hl
      unfold IsLeap at hl
      omega

theorem month_leap : ∀ m < 13, 1 ≤ m → month (m : Nat) = monthStart true m := by decide

theorem month_common : ∀ m < 13, 1 ≤ m →
    month (m : Nat) = monthStart false m + if 2 < m then 1 else 0 := by decide

/-- The day of the year by the table: one less from March on, unless the year is leap. -/
theorem yearDay_eq (d : Date) :
    (d.yearDay : Int) = month d.month + (d.day - 1) - if 2 < d.month ∧ ¬IsLeap d.year then 1 else 0 := by
  have hm := d.month_pos
  have hd := d.day_pos
  have h12 : d.month < 13 := Nat.lt_succ_of_le d.month_le
  unfold Date.yearDay
  by_cases hl : IsLeap d.year
  · simp only [hl, decide_true, month_leap d.month h12 hm]
    simp
    omega
  · simp only [hl, decide_false, month_common d.month h12 hm]
    by_cases h2 : 2 < d.month
    · simp [h2]
      omega
    · simp [h2]
      omega

/-! ## 3. Seconds since the epoch -/

/-- The fields are those of the date and time; from 2000 to 2069 the year may be the two digits that
    the clock has. -/
structure Reads (t : Tm) (c : Civil) : Prop where
  since : 1970 ≤ c.date.year
  till : c.date.year ≤ 2069
  year : t.year = c.date.year - 1900 ∨ 2000 ≤ c.date.year ∧ t.year = c.date.year - 2000
  mon : t.mon = c.date.month
  mday : t.mday = c.date.day
  hour : t.hour = c.hour
  min : t.min = c.min
  sec : t.sec = c.sec

section Mktime

variable {t : Tm} {c : Civil}

theorem Reads.years (h : Reads t c) : yearsOf t = c.date.year - 1970 := by
  have := h.since
  have := h.till
  unfold yearsOf
  rcases h.year with hy | ⟨h2, hy⟩
  · rw [hy, if_pos (by omega)]
    omega
  · rw [hy, if_neg (by omega)]
    omega

theorem ofInt_sub (a b : Int) : UInt32.ofInt (a - b) = UInt32.ofInt a - UInt32.ofInt b := by
  have h := UInt32.ofInt_add (a - b) b
  rw [Int.sub_add_cancel] at h
  grind

theorem toNat_ofInt {z : Int} (h0 : 0 ≤ z) (h : z < 2 ^ 32) : (UInt32.ofInt z).toNat = z.toNat := by
  rw [UInt32.ofInt, Int.emod_eq_of_lt h0 h, UInt32.toNat_ofNat']
  omega

/-- What `mktime` adds up, as one integer. -/
def total (t : Tm) : Int :=
  YEAR * yearsOf t + DAY * ((yearsOf t + 1) / 4) + month t.mon * DAY -
    (if t.mon > 2 ∧ (yearsOf t + 2) % 4 ≠ 0 then DAY else 0) + DAY * (t.mday - 1) +
    HOUR * t.hour + t.sec

theorem mktime_eq (t : Tm) : mktime t = UInt32.ofInt (total t) := by
  unfold mktime total
  simp only [UInt32.ofInt_add, ofInt_sub]
  split
  · rfl
  · rw [show UInt32.ofInt 0 = 0 from rfl]
    grind

/-- The leap years of the range are every fourth. -/
theorem Reads.leap (h : Reads t c) :
    (yearsOf t + 2) % 4 ≠ 0 ↔ ¬IsLeap c.date.year := by
  have := h.since
  have := h.till
  rw [h.years, IsLeap]
  omega

theorem Reads.leapYears (h : Reads t c) : (leapYears 1970 c.date.year : Int) = (yearsOf t + 1) / 4 := by
  have := h.since
  have := h.till
  rw [leapYears_eq h.since, h.years, elapsedLeapYears]
  omega

/-- **The sum is the seconds without those of the minutes.** -/
theorem Reads.total (h : Reads t c) : Time.total t = c.seconds 1970 - 60 * c.min := by
  have hl := h.leap
  have hy := h.leapYears
  have hs := yearStart_eq 1970 c.date.year
  have hd := yearDay_eq c.date
  have := h.since
  have hif : (if t.mon > 2 ∧ (yearsOf t + 2) % 4 ≠ 0 then (1 : Int) else 0) =
      if 2 < c.date.month ∧ ¬IsLeap c.date.year then 1 else 0 := by
    refine if_congr (and_congr ?_ hl) rfl rfl
    rw [h.mon]
    omega
  have hday : (if t.mon > 2 ∧ (yearsOf t + 2) % 4 ≠ 0 then DAY else 0) =
      86400 * if t.mon > 2 ∧ (yearsOf t + 2) % 4 ≠ 0 then (1 : Int) else 0 := by
    split <;> rfl
  rw [Time.total, hday, hif, ← hy, h.mon, h.mday, h.hour, h.sec, h.years]
  unfold Civil.seconds Date.dayNumber YEAR DAY HOUR MINUTE
  omega

theorem Reads.seconds_lt (h : Reads t c) : c.seconds 1970 < 2 ^ 32 := by
  have := h.since
  have := h.till
  have := c.date.yearDay_lt
  have := c.hour_lt
  have := c.min_lt
  have := c.sec_lt
  have hl := h.leapYears
  have hs := yearStart_eq 1970 c.date.year
  rw [h.years] at hl
  unfold yearLength at *
  unfold Civil.seconds Date.dayNumber
  split at * <;> omega

theorem Reads.toNat_mktime (h : Reads t c) :
    ((mktime t).toNat : Int) = c.seconds 1970 - 60 * c.min := by
  have hlt := h.seconds_lt
  have ht := h.total
  have hle : 60 * c.min ≤ c.seconds 1970 := by
    unfold Civil.seconds
    omega
  rw [mktime_eq, toNat_ofInt (by omega) (by omega)]
  omega

/-- `get_yday` counts the days of the year from 1. -/
theorem Reads.getYday (h : Reads t c) : getYday t = c.date.yearDay + 1 := by
  have hd := yearDay_eq c.date
  have hl := h.leap
  have hif : (yearsOf t + 2) % 4 ≠ 0 ∧ t.mon > 2 ↔ 2 < c.date.month ∧ ¬IsLeap c.date.year := by
    rw [hl, and_comm, h.mon]
    exact and_congr_left' (by omega)
  unfold Time.getYday
  dsimp only
  rw [h.mon, h.mday]
  rw [h.mon] at hif
  by_cases hc : 2 < c.date.month ∧ ¬IsLeap c.date.year
  · rw [if_pos (hif.mpr hc)]
    rw [if_pos hc] at hd
    omega
  · rw [if_neg (mt hif.mp hc)]
    rw [if_neg hc] at hd
    omega

/-- **Seconds since the epoch**: of every date and time from 1970 to 2069, in either form of the year,
    `mktime` gives the seconds exactly when the time is that of a minute 0; its day is always the one
    that `get_yday` gives; and among such times it is strictly increasing. -/
theorem mktime_seconds (h : Reads t c) :
    ((mktime t).toNat = c.seconds 1970 ↔ c.min = 0) ∧
      ((mktime t).toNat / 86400 : Nat) =
        365 * yearsOf t + leapYears 1970 c.date.year + getYday t - 1 ∧
      ∀ u e, Reads u e → c.min = 0 → e.min = 0 → c.Before e → mktime t < mktime u := by
  have hm := h.toNat_mktime
  refine ⟨by omega, ?_, fun u e hu hc he hb => ?_⟩
  · have := c.hour_lt
    have := c.sec_lt
    have hdiv : (mktime t).toNat / 86400 = c.date.dayNumber 1970 := by
      unfold Civil.seconds at hm
      omega
    have hs := yearStart_eq 1970 c.date.year
    have := h.since
    rw [hdiv, h.getYday, h.years]
    unfold Date.dayNumber
    omega
  · have hlt := Civil.seconds_lt h.since hb
    have hm' := hu.toNat_mktime
    rw [UInt32.lt_iff_toNat_lt]
    omega

end Mktime

/-- The date of the epoch. -/
def epochDay : Date := .newYear 1970

/-- 1970-01-01 at the hour, minute and second. -/
def onFirstDay (hour min sec : Nat) (h : hour < 24 ∧ min < 60 ∧ sec < 60) : Civil :=
  ⟨epochDay, hour, min, sec, h.1, h.2.1, h.2.2⟩

/-- What the clock has then, with the year counted from 1900. -/
def firstDayTm (hour min sec : Int) : Tm := ⟨sec, min, hour, 1, 1, 70, 4, 1, -1⟩

theorem reads_firstDay (hour min sec : Nat) (h : hour < 24 ∧ min < 60 ∧ sec < 60) :
    Reads (firstDayTm hour min sec) (onFirstDay hour min sec h) :=
  have hy : (onFirstDay hour min sec h).date.year = 1970 := rfl
  ⟨by omega, by omega, .inl (by rw [hy]; rfl), rfl, rfl, rfl, rfl, rfl⟩

/-- Five hours and nine seconds into the first day. -/
theorem mktime_seconds_morning :
    (mktime (firstDayTm 5 0 9)).toNat = (onFirstDay 5 0 9 (by decide)).seconds 1970 ∧
      mktime (firstDayTm 5 0 9) < mktime (firstDayTm 6 0 0) :=
  have h := mktime_seconds (reads_firstDay 5 0 9 (by decide))
  ⟨h.1.mpr rfl, h.2.2 _ _ (reads_firstDay 6 0 0 (by decide)) rfl rfl
    (.inr ⟨rfl, .inl (by decide)⟩)⟩

/-- One minute after the epoch began: `mktime` gives 0, as it does for the epoch itself. -/
theorem mktime_no_minutes :
    ¬(∀ t c, Reads t c → (mktime t).toNat = c.seconds 1970) ∧
      ¬∀ t c u e, Reads t c → Reads u e → c.Before e → mktime t < mktime u := by
  constructor
  · intro h
    have := h _ _ (reads_firstDay 0 1 0 (by decide))
    exact absurd this (by decide +kernel)
  · intro h
    have := h _ _ _ _ (reads_firstDay 0 0 0 (by decide)) (reads_firstDay 0 1 0 (by decide))
      (.inr ⟨rfl, .inr ⟨rfl, .inl (by decide)⟩⟩)
    exact absurd this (by decide +kernel)

/-! ## 4. The date of a stamp -/

/-- The date and time of a stamp. -/
def civil (stamp : UInt32) : Civil := Civil.ofSeconds 1970 stamp.toNat

/-- The fields of a `tm` are those of the date and time; the epoch began on a Thursday. -/
structure Tells (t : Tm) (c : Civil) : Prop where
  year : t.year + 1900 = c.date.year
  mon : t.mon = c.date.month
  mday : t.mday = c.date.day
  wday : t.wday = ((c.date.dayNumber 1970 + 4) % 7 : Nat)
  hour : t.hour = c.hour
  min : t.min = c.min
  sec : t.sec = c.sec

/-- March or later in a common year, and the leap days so far with the day of the year do not make up
    a year. -/
structure Late (c : Civil) : Prop where
  common : ¬IsLeap c.date.year
  march : 3 ≤ c.date.month
  early : leapYears 1970 c.date.year + c.date.yearDay < 365

/-- The order of the dates that two `tm` show. -/
def Earlier (t u : Tm) : Prop :=
  t.year < u.year ∨ t.year = u.year ∧ (t.mon < u.mon ∨ t.mon = u.mon ∧ (t.mday < u.mday ∨
    t.mday = u.mday ∧ (t.hour < u.hour ∨ t.hour = u.hour ∧ (t.min < u.min ∨
      t.min = u.min ∧ t.sec < u.sec))))

section Localtime

variable {stamp : UInt32} {t : Tm}

theorem toNat_days (stamp : UInt32) : (stamp / 60 / 60 / 24).toNat = stamp.toNat / 86400 := by
  simp only [UInt32.toNat_div, Nat.div_div_eq_div_mul]
  rfl

/-- The leap years do not outnumber the days, so the difference does not wrap. -/
theorem elapsed_bounds {days : Nat} (h : days < 49711) :
    0 ≤ elapsedLeapYears ((days / 365 : Nat) + 70) ∧
      elapsedLeapYears ((days / 365 : Nat) + 70) ≤ days := by
  unfold elapsedLeapYears
  omega

theorem toNat_yday {days : UInt32} {years : Int} {leap : Bool} (h0 : 0 ≤ elapsedLeapYears years)
    (h : elapsedLeapYears years ≤ days.toNat) :
    ((days - UInt32.ofInt (elapsedLeapYears years)) %
        UInt32.ofInt (366 - if leap then 0 else 1)).toNat =
      ((days.toNat : Int) - elapsedLeapYears years) % (366 - if leap then 0 else 1) := by
  have hlt := days.toNat_lt
  have he := toNat_ofInt h0 (by omega)
  have hs : (days - UInt32.ofInt (elapsedLeapYears years)).toNat =
      days.toNat - (elapsedLeapYears years).toNat := by
    rw [UInt32.toNat_sub_of_le, he]
    rw [UInt32.le_iff_toNat_le, he]
    omega
  rw [UInt32.toNat_mod, hs]
  cases leap with
  | true =>
    rw [show (UInt32.ofInt (366 - if true then 0 else 1)).toNat = 366 from rfl]
    simp only [if_true]
    omega
  | false =>
    rw [show (UInt32.ofInt (366 - if false then 0 else 1)).toNat = 365 from rfl]
    simp only [Bool.false_eq_true, if_false]
    omega

/-- What `localtime` computes, in plain numbers. -/
theorem localtime_fields (stamp : UInt32) (t : Tm) :
    let days := stamp.toNat / 86400
    let years : Int := (days / 365 : Nat) + 70
    let offset : Int := if isLeapYear years then 0 else 1
    let yday : Int := ((days : Int) - elapsedLeapYears years) % (366 - offset)
    let mon : Int := (findMonth offset yday 12 1 : Nat) - 1
    localtime stamp t = { t with
      sec := (stamp.toNat % 60 : Nat), min := (stamp.toNat / 60 % 60 : Nat),
      hour := (stamp.toNat / 3600 % 24 : Nat), wday := ((days + 4) % 7 : Nat), year := years,
      yday := yday, mon := mon, mday := yday - month mon + offset + 1 } := by
  have hd := toNat_days stamp
  have hlt := stamp.toNat_lt
  obtain ⟨h0, h1⟩ := @elapsed_bounds (stamp.toNat / 86400) (by omega)
  have hy : (stamp / 60 / 60 / 24 / 365).toNat = stamp.toNat / 86400 / 365 := by
    rw [UInt32.toNat_div, hd]
    rfl
  have hyday := @toNat_yday (stamp / 60 / 60 / 24) _
    (isLeapYear ((stamp.toNat / 86400 / 365 : Nat) + 70)) h0 (by rw [hd]; exact h1)
  rw [hd] at hyday
  unfold localtime
  simp only [hy, hyday, Tm.mk.injEq, and_true, true_and]
  refine ⟨congrArg _ (UInt32.toNat_mod stamp 60), ?_, ?_, ?_⟩
  · rw [UInt32.toNat_mod, UInt32.toNat_div]
    rfl
  · rw [UInt32.toNat_mod, UInt32.toNat_div, UInt32.toNat_div, Nat.div_div_eq_div_mul]
    rfl
  · have h4 : (stamp / 60 / 60 / 24 + 4).toNat = stamp.toNat / 86400 + 4 := by
      rw [UInt32.toNat_add, hd]
      exact Nat.mod_eq_of_lt (by show stamp.toNat / 86400 + 4 < 2 ^ 32; omega)
    rw [UInt32.toNat_mod, h4]
    rfl

/-- The number of the day, split in years, leap days and the day of the year. -/
theorem civil_day (stamp : UInt32) :
    1970 ≤ (civil stamp).date.year ∧ stamp.toNat / 86400 =
      365 * ((civil stamp).date.year - 1970) + leapYears 1970 (civil stamp).date.year +
        (civil stamp).date.yearDay := by
  have h := Date.dayNumber_ofDay 1970 (stamp.toNat / 86400)
  have hs := yearStart_eq 1970 (civil stamp).date.year
  refine ⟨Date.le_year_ofDay _ _, ?_⟩
  rw [← hs]
  exact h.symm

/-- The leap years among the first few are fewer than the days of half a year. -/
theorem leapYears_lt {year : Nat} (h : 1970 ≤ year) (h2 : year ≤ 2200) : leapYears 1970 year < 100 := by
  have := leapYears_eq h
  unfold elapsedLeapYears at this
  omega

/-- The month is found whose start is past the day when no earlier one's is. -/
theorem findMonth_eq {offset yday : Int} {m : Nat} (n : Nat) : ∀ mon, mon ≤ m → m ≤ mon + n →
    (∀ k, mon ≤ k → k < m → month (k : Nat) - offset ≤ yday) →
    (m < mon + n → yday < month m - offset) → findMonth offset yday n mon = m := by
  induction n with
  | zero => exact fun mon h1 h2 _ _ => Nat.le_antisymm h1 h2
  | succ n ih =>
    intro mon h1 h2 hle hlt
    unfold findMonth
    rcases Nat.lt_or_eq_of_le h1 with h | rfl
    · have := hle mon (Nat.le_refl _) h
      rw [if_neg (by omega)]
      exact ih (mon + 1) h (by omega) (fun k hk => hle k (by omega)) fun hm => hlt (by omega)
    · have := hlt (by omega)
      rw [if_pos (by omega)]

/-- The rest of the fields never fail. -/
theorem localtime_clock (stamp : UInt32) (t : Tm) :
    (localtime stamp t).wday = (((civil stamp).date.dayNumber 1970 + 4) % 7 : Nat) ∧
      (localtime stamp t).hour = (civil stamp).hour ∧ (localtime stamp t).min = (civil stamp).min ∧
      (localtime stamp t).sec = (civil stamp).sec := by
  have h := Date.dayNumber_ofDay 1970 (stamp.toNat / 86400)
  rw [localtime_fields]
  refine ⟨?_, rfl, rfl, rfl⟩
  rw [show (civil stamp).date.dayNumber 1970 = stamp.toNat / 86400 from h]

/-- **When the year is right, the table is read for the right kind of year**, with the leap days of the
    years before it taken off. -/
theorem localtime_year (stamp : UInt32) (t : Tm) :
    ((localtime stamp t).year + 1900 = (civil stamp).date.year ↔
        leapYears 1970 (civil stamp).date.year + (civil stamp).date.yearDay < 365) ∧
      (leapYears 1970 (civil stamp).date.year + (civil stamp).date.yearDay < 365 →
        let offset : Int := if IsLeap (civil stamp).date.year then 0 else 1
        let yday : Int := (365 * ((civil stamp).date.year - 1970) + (civil stamp).date.yearDay) %
          (366 - offset)
        let mon : Int := (findMonth offset yday 12 1 : Nat) - 1
        (localtime stamp t).mon = mon ∧ (localtime stamp t).mday = yday - month mon + offset + 1) := by
  obtain ⟨hy, hday⟩ := civil_day stamp
  have hlt := stamp.toNat_lt
  have hyd := (civil stamp).date.yearDay_lt
  have hyl : yearLength (civil stamp).date.year ≤ 366 := by
    unfold yearLength
    split <;> decide
  have hL := leapYears_lt hy (by omega)
  have hf := localtime_fields stamp t
  refine ⟨?_, fun hlate => ?_⟩
  · rw [hf]
    dsimp only
    omega
  · have hyears : ((stamp.toNat / 86400 / 365 : Nat) : Int) + 70 = (civil stamp).date.year - 1900 := by
      omega
    have he := leapYears_eq hy
    simp only [hyears, isLeapYear_eq, ← he, decide_eq_true_eq] at hf
    have hdays : ((stamp.toNat / 86400 : Nat) : Int) - leapYears 1970 (civil stamp).date.year =
        365 * ((civil stamp).date.year - 1970) + (civil stamp).date.yearDay := by
      omega
    rw [hdays] at hf
    rw [hf]
    exact ⟨rfl, rfl⟩

theorem month_mono : ∀ m < 13, ∀ k < m + 1, month (k : Nat) ≤ month (m : Nat) := by decide

theorem month_succ : ∀ m < 12, 3 ≤ m → month ((m + 1 : Nat) : Int) = month (m : Nat) + monthLength false m := by
  decide

/-- From March on in a common year the table, less one, finds the month of a day. -/
theorem findMonth_march {d : Date} (hl : ¬IsLeap d.year) (h3 : 3 ≤ d.month) :
    findMonth 1 d.yearDay 12 1 = d.month + 1 := by
  have hyd := yearDay_eq d
  rw [if_pos ⟨by omega, hl⟩] at hyd
  have hm12 := d.month_le
  have hday := d.day_pos
  have hle := d.day_le
  simp only [hl, decide_false] at hle
  refine findMonth_eq 12 1 (by omega) (by omega) (fun k hk hkm => ?_) fun hm => ?_
  · have := month_mono d.month (by omega) k hkm
    omega
  · rw [month_succ d.month (by omega) h3]
    omega

theorem tells_iff (stamp : UInt32) (t : Tm) :
    Tells (localtime stamp t) (civil stamp) ↔ Late (civil stamp) := by
  obtain ⟨hy, hrest⟩ := localtime_year stamp t
  obtain ⟨h70, hday⟩ := civil_day stamp
  have hlt := stamp.toNat_lt
  have hyd := yearDay_eq (civil stamp).date
  have hylt := (civil stamp).date.yearDay_lt
  have hm1 := (civil stamp).date.month_pos
  have hm12 := (civil stamp).date.month_le
  constructor
  · intro h
    have hearly := hy.mp h.year
    obtain ⟨hmon, hmday⟩ := hrest hearly
    have hmon' := hmon.symm.trans h.mon
    rw [h.mday, hmon'] at hmday
    by_cases hleap : IsLeap (civil stamp).date.year
    · exfalso
      -- the table gives back the day of the year, which is too small by the years since 1970
      rw [if_neg (by simp [hleap])] at hyd
      simp only [hleap, if_true] at hmday
      have h71 : 1971 ≤ (civil stamp).date.year := by
        unfold IsLeap at hleap
        omega
      omega
    · refine ⟨hleap, ?_, hearly⟩
      by_contra hmarch
      rw [if_neg (by omega)] at hyd
      simp only [hleap, if_false] at hmday
      omega
  · intro h
    obtain ⟨hmon, hmday⟩ := hrest h.early
    obtain ⟨hw, hh, hmin, hsec⟩ := localtime_clock stamp t
    have hmarch := h.march
    rw [if_pos ⟨by omega, h.common⟩] at hyd
    simp only [h.common, if_false] at hmon hmday
    rw [show (366 - 1 : Int) = 365 from rfl] at hmon hmday
    have hmod : (365 * (((civil stamp).date.year : Int) - 1970) + (civil stamp).date.yearDay) % 365 =
        (civil stamp).date.yearDay := by
      have := h.early
      omega
    rw [hmod, findMonth_march h.common h.march] at hmon hmday
    have hmm : ((((civil stamp).date.month + 1 : Nat) : Int) - 1) = (civil stamp).date.month := by omega
    rw [hmm] at hmon hmday
    exact ⟨hy.mpr h.early, hmon, by rw [hmday]; omega, hw, hh, hmin, hsec⟩

/-- Fields that show dates in their order are in that order. -/
theorem Tells.not_earlier {u : Tm} {c e : Civil} (ht : Tells t c) (hu : Tells u e)
    (h : e = c ∨ c.Before e) : ¬Earlier u t := by
  intro hb
  have hty := ht.year
  have htm := ht.mon
  have htd := ht.mday
  have hth := ht.hour
  have htn := ht.min
  have hts := ht.sec
  have huy := hu.year
  have hum := hu.mon
  have hud := hu.mday
  have huh := hu.hour
  have hun := hu.min
  have hus := hu.sec
  unfold Earlier at hb
  rcases h with rfl | h
  · omega
  · unfold Civil.Before Date.Before at h
    rcases h with h | ⟨h, h'⟩
    · omega
    · rw [h] at hty htm htd
      omega

end Localtime

/-- **The date of a stamp**: `localtime` fills in the date and time of the stamp exactly when that is
    in March or later of a common year, with the leap days since 1970 and the days of the year making
    less than a year; on such stamps later ones never show earlier dates. -/
theorem localtime_civil (t : Tm) :
    (∀ stamp, Tells (localtime stamp t) (civil stamp) ↔ Late (civil stamp)) ∧
      ∀ r s, r ≤ s → Late (civil r) → Late (civil s) → ¬Earlier (localtime s t) (localtime r t) := by
  refine ⟨fun stamp => tells_iff stamp t, fun r s hrs hr hs => ?_⟩
  refine ((tells_iff r t).mpr hr).not_earlier ((tells_iff s t).mpr hs) ?_
  have hle : (civil r).seconds 1970 ≤ (civil s).seconds 1970 := by
    rw [civil, civil, Civil.seconds_ofSeconds, Civil.seconds_ofSeconds]
    exact UInt32.le_iff_toNat_le.mp hrs
  exact (Civil.before_of_seconds_le (Date.le_year_ofDay _ _) hle).imp_left Eq.symm

/-- The stamp 0 is shown as the second of January; and 1972-12-31 as a day of 1973 that is later than
    what 1973-01-01 is shown as. -/
theorem localtime_civil_not_always :
    ¬(∀ stamp t, Tells (localtime stamp t) (civil stamp)) ∧
      ¬∀ r s t, r ≤ s → ¬Earlier (localtime s t) (localtime r t) := by
  constructor
  · intro h
    have hd := (h 0 (firstDayTm 0 0 0)).mday
    have hn : (civil 0).date.dayNumber 1970 = 0 := Date.dayNumber_ofDay 1970 0
    have hc : (civil 0).date = epochDay :=
      Date.dayNumber_inj (Date.le_year_ofDay 1970 0) (by decide) (hn.trans (by decide))
    rw [hc] at hd
    exact absurd hd (by decide +kernel)
  · intro h
    refine h (1095 * 86400) (1096 * 86400) (firstDayTm 0 0 0) (by decide) ?_
    unfold Earlier
    decide +kernel

end Yuios.Time
