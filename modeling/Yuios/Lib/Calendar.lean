/-
  File:      Yuios/Lib/Calendar.lean
  Subject:   THE GREGORIAN CALENDAR as a numbering of days.

  * `start`, `locate` -- blocks of given lengths laid end to end: where a block starts, and in which
    block a place is. Years are blocks of days, and so are the months of a year.
  * `Date` -- a date that exists; `Date.dayNumber` -- the days since the first of January of an epoch
    year.
  * **`Date.dayNumber_lt`**, `Date.dayNumber_inj`, `Date.dayNumber_ofDay` -- the numbering follows the
    order of dates, and every number is the number of one date.
-/
import Mathlib.Order.Monotone.Basic

namespace Yuios.Lib.Calendar

/-! ## 1. Blocks -/

section Blocks

variable (len : Nat → Nat)

/-- Where block `n` starts. -/
def start : Nat → Nat
  | 0 => 0
  | n + 1 => start n + len n

/-- From the start of block `i` on, the block that holds place `x`, and the place in it; at most
    `fuel` blocks are looked at. -/
def locate : Nat → Nat → Nat → Nat × Nat
  | 0, i, x => (i, x)
  | fuel + 1, i, x => if x < len i then (i, x) else locate fuel (i + 1) (x - len i)

variable {len}

@[simp] theorem start_zero : start len 0 = 0 := rfl

theorem start_succ (n : Nat) : start len (n + 1) = start len n + len n := rfl

theorem start_mono : Monotone (start len) :=
  monotone_nat_of_le_succ fun n => Nat.le_add_right (start len n) (len n)

/-- A place in an earlier block is before every place of a later one. -/
theorem start_lt {i j a b : Nat} (ha : a < len i) (hij : i < j) :
    start len i + a < start len j + b := by
  have h := @start_mono len (i + 1) j (Nat.succ_le_of_lt hij)
  rw [start_succ] at h
  omega

theorem locate_spec (fuel : Nat) : ∀ i x, start len i + x < start len (i + fuel) →
    (locate len fuel i x).1 < i + fuel ∧
      (locate len fuel i x).2 < len (locate len fuel i x).1 ∧
      start len (locate len fuel i x).1 + (locate len fuel i x).2 = start len i + x := by
  induction fuel with
  | zero => exact fun i x h => absurd h (Nat.not_lt.mpr (Nat.le_add_right (start len i) x))
  | succ fuel ih =>
    intro i x h
    unfold locate
    split
    · rename_i hx
      exact ⟨by omega, hx, rfl⟩
    · rename_i hx
      have hs := @start_succ len i
      have := ih (i + 1) (x - len i) (by rw [Nat.add_right_comm, Nat.add_assoc]; omega)
      rw [Nat.add_right_comm i 1 fuel] at this
      exact ⟨this.1, this.2.1, by omega⟩

theorem le_start (h : ∀ n, 0 < len n) (n : Nat) : n ≤ start len n := by
  induction n with
  | zero => exact Nat.le_refl 0
  | succ n ih =>
    have := h n
    rw [start_succ]
    omega

end Blocks

/-! ## 2. Years and months -/

def IsLeap (year : Nat) : Prop := year % 4 = 0 ∧ (year % 100 ≠ 0 ∨ year % 400 = 0)

instance (year : Nat) : Decidable (IsLeap year) := inferInstanceAs (Decidable (_ ∧ _))

def yearLength (year : Nat) : Nat := if IsLeap year then 366 else 365

/-- The days of a month, the first being number 1. -/
def monthLength (leap : Bool) : Nat → Nat
  | 2 => if leap then 29 else 28
  | 4 | 6 | 9 | 11 => 30
  | _ => 31

/-- The days of the year before the month. -/
def monthStart (leap : Bool) (month : Nat) : Nat :=
  start (fun i => monthLength leap (i + 1)) (month - 1)

/-- The days from the first of January of the epoch year to that of the year. -/
def yearStart (epoch year : Nat) : Nat := start (fun i => yearLength (epoch + i)) (year - epoch)

/-- The leap years from the epoch year on, before the year. -/
def leapYears (epoch year : Nat) : Nat :=
  start (fun i => if IsLeap (epoch + i) then 1 else 0) (year - epoch)

theorem yearLength_pos (year : Nat) : 0 < yearLength year := by
  unfold yearLength
  split <;> decide

/-- **The twelve months are the year.** -/
theorem monthStart_thirteen (year : Nat) : monthStart (decide (IsLeap year)) 13 = yearLength year := by
  unfold yearLength
  by_cases h : IsLeap year <;> simp only [h, decide_true, decide_false, if_true, if_false] <;> rfl

theorem yearStart_eq (epoch year : Nat) :
    yearStart epoch year = 365 * (year - epoch) + leapYears epoch year := by
  unfold yearStart leapYears
  induction year - epoch with
  | zero => rfl
  | succ n ih =>
    rw [start_succ, start_succ, ih, yearLength]
    split <;> omega

/-! ## 3. Dates -/

/-- A date that the calendar has. -/
@[ext] structure Date where
  year : Nat
  month : Nat
  day : Nat
  month_pos : 1 ≤ month
  month_le : month ≤ 12
  day_pos : 1 ≤ day
  day_le : day ≤ monthLength (decide (IsLeap year)) month
  deriving DecidableEq

namespace Date

/-- The day of the year, the first being number 0. -/
def yearDay (d : Date) : Nat := monthStart (decide (IsLeap d.year)) d.month + (d.day - 1)

/-- The days since the first of January of the epoch year. -/
def dayNumber (epoch : Nat) (d : Date) : Nat := yearStart epoch d.year + d.yearDay

/-- The order of dates. -/
def Before (d e : Date) : Prop :=
  d.year < e.year ∨ d.year = e.year ∧ (d.month < e.month ∨ d.month = e.month ∧ d.day < e.day)

/-- The first day of a year. -/
def newYear (year : Nat) : Date :=
  ⟨year, 1, 1, by decide, by decide, by decide, by cases decide (IsLeap year) <;> decide⟩

/-- Month and day, counted from 0, in a year; the year's first day where there is no such date. -/
def inYear (year month day : Nat) : Date :=
  if h : month < 12 ∧ day < monthLength (decide (IsLeap year)) (month + 1) then
    ⟨year, month + 1, day + 1, by omega, by omega, by omega, h.2⟩
  else newYear year

/-- The date with a given number. -/
def ofDay (epoch n : Nat) : Date :=
  let k := locate (fun i => yearLength (epoch + i)) (n + 1) 0 n
  let m := locate (fun i => monthLength (decide (IsLeap (epoch + k.1))) (i + 1)) 12 0 k.2
  inYear (epoch + k.1) m.1 m.2

theorem day_lt (d : Date) : d.day - 1 < monthLength (decide (IsLeap d.year)) (d.month - 1 + 1) := by
  have := d.day_pos
  have := d.day_le
  rw [Nat.sub_add_cancel d.month_pos]
  omega

theorem yearDay_lt (d : Date) : d.yearDay < yearLength d.year := by
  rw [← monthStart_thirteen]
  have h := @start_lt (fun i => monthLength (decide (IsLeap d.year)) (i + 1)) _ 12 _ 0 d.day_lt
    (by have := d.month_le; have := d.month_pos; omega)
  exact h

variable {epoch : Nat}

/-- **Later dates have greater numbers.** -/
theorem dayNumber_lt {d e : Date} (hd : epoch ≤ d.year) (h : d.Before e) :
    d.dayNumber epoch < e.dayNumber epoch := by
  rcases h with hy | ⟨hy, h⟩
  · have hlt := d.yearDay_lt
    refine start_lt ?_ (by omega)
    rwa [Nat.add_sub_cancel' hd]
  · have hyd : d.yearDay < e.yearDay := by
      unfold yearDay
      rw [← hy]
      rcases h with hm | ⟨hm, hday⟩
      · exact start_lt d.day_lt (by have := d.month_pos; omega)
      · have := d.day_pos
        rw [hm]
        omega
    unfold dayNumber
    rw [← hy]
    omega

theorem before_or {d e : Date} (h : d ≠ e) : d.Before e ∨ e.Before d := by
  unfold Before
  by_contra hn
  exact h (Date.ext (by omega) (by omega) (by omega))

theorem dayNumber_inj {d e : Date} (hd : epoch ≤ d.year) (he : epoch ≤ e.year)
    (h : d.dayNumber epoch = e.dayNumber epoch) : d = e := by
  by_contra hne
  rcases before_or hne with hb | hb
  · have := dayNumber_lt hd hb
    omega
  · have := dayNumber_lt he hb
    omega

theorem yearDay_inYear {year month day : Nat} (hm : month < 12)
    (hd : day < monthLength (decide (IsLeap year)) (month + 1)) :
    (inYear year month day).year = year ∧ (inYear year month day).yearDay =
      start (fun i => monthLength (decide (IsLeap year)) (i + 1)) month + day := by
  unfold inYear
  rw [dif_pos ⟨hm, hd⟩]
  exact ⟨rfl, rfl⟩

/-- **Every number is the number of a date.** -/
theorem ofDay_spec (epoch n : Nat) :
    epoch ≤ (ofDay epoch n).year ∧ (ofDay epoch n).dayNumber epoch = n := by
  have hk := @locate_spec (fun i => yearLength (epoch + i)) (n + 1) 0 n (by
    have := @le_start (fun i => yearLength (epoch + i)) (fun i => yearLength_pos _) (0 + (n + 1))
    simp only [start_zero]
    omega)
  unfold ofDay
  generalize locate (fun i => yearLength (epoch + i)) (n + 1) 0 n = k at hk ⊢
  obtain ⟨-, hlen, hsum⟩ := hk
  have hm := @locate_spec (fun i => monthLength (decide (IsLeap (epoch + k.1))) (i + 1)) 12 0
    k.2 (by
      have := monthStart_thirteen (epoch + k.1)
      unfold monthStart at this
      rw [start_zero, Nat.zero_add, Nat.zero_add]
      exact Nat.lt_of_lt_of_eq hlen this.symm)
  dsimp only
  generalize locate (fun i => monthLength (decide (IsLeap (epoch + k.1))) (i + 1)) 12 0 k.2 = m at hm ⊢
  obtain ⟨hm1, hm2, hm3⟩ := hm
  obtain ⟨hy, hd⟩ := @yearDay_inYear (epoch + k.1) _ _ (by omega) hm2
  rw [start_zero] at hm3 hsum
  unfold dayNumber yearStart
  rw [hd, hy, Nat.add_sub_cancel_left]
  exact ⟨Nat.le_add_right _ _, by omega⟩

theorem dayNumber_ofDay (epoch n : Nat) : (ofDay epoch n).dayNumber epoch = n := (ofDay_spec epoch n).2

theorem le_year_ofDay (epoch n : Nat) : epoch ≤ (ofDay epoch n).year := (ofDay_spec epoch n).1

end Date

/-! ## 4. Dates with a time -/

/-- A date and a time of its day. -/
@[ext] structure Civil where
  date : Date
  hour : Nat
  min : Nat
  sec : Nat
  hour_lt : hour < 24
  min_lt : min < 60
  sec_lt : sec < 60
  deriving DecidableEq

namespace Civil

/-- The seconds since the epoch year began. -/
def seconds (epoch : Nat) (c : Civil) : Nat :=
  86400 * c.date.dayNumber epoch + 3600 * c.hour + 60 * c.min + c.sec

/-- The order of dates with a time. -/
def Before (c e : Civil) : Prop :=
  c.date.Before e.date ∨ c.date = e.date ∧ (c.hour < e.hour ∨ c.hour = e.hour ∧
    (c.min < e.min ∨ c.min = e.min ∧ c.sec < e.sec))

/-- The date and time a number of seconds after the epoch year began. -/
def ofSeconds (epoch n : Nat) : Civil :=
  ⟨Date.ofDay epoch (n / 86400), n / 3600 % 24, n / 60 % 60, n % 60, by omega, by omega, by omega⟩

variable {epoch : Nat}

theorem seconds_lt {c e : Civil} (hc : epoch ≤ c.date.year) (h : c.Before e) :
    c.seconds epoch < e.seconds epoch := by
  have := c.hour_lt
  have := c.min_lt
  have := c.sec_lt
  unfold seconds
  rcases h with hd | ⟨hd, h⟩
  · have := Date.dayNumber_lt hc hd
    omega
  · rw [hd]
    omega

theorem before_or {c e : Civil} (h : c ≠ e) : c.Before e ∨ e.Before c := by
  by_cases hd : c.date = e.date
  · by_contra hn
    have h1 : ¬(c.hour < e.hour ∨ c.hour = e.hour ∧ (c.min < e.min ∨ c.min = e.min ∧ c.sec < e.sec)) :=
      fun hb => hn (.inl (.inr ⟨hd, hb⟩))
    have h2 : ¬(e.hour < c.hour ∨ e.hour = c.hour ∧ (e.min < c.min ∨ e.min = c.min ∧ e.sec < c.sec)) :=
      fun hb => hn (.inr (.inr ⟨hd.symm, hb⟩))
    exact h (Civil.ext hd (by omega) (by omega) (by omega))
  · rcases Date.before_or hd with hb | hb
    · exact .inl (.inl hb)
    · exact .inr (.inl hb)

/-- Fewer seconds are no later date and time. -/
theorem before_of_seconds_le {c e : Civil} (he : epoch ≤ e.date.year)
    (h : c.seconds epoch ≤ e.seconds epoch) : c = e ∨ c.Before e := by
  by_cases hne : c = e
  · exact .inl hne
  · refine .inr ((before_or hne).resolve_right fun hb => ?_)
    have := seconds_lt he hb
    omega

theorem seconds_ofSeconds (epoch n : Nat) : (ofSeconds epoch n).seconds epoch = n := by
  unfold seconds ofSeconds
  rw [Date.dayNumber_ofDay]
  dsimp only
  omega

end Civil

end Yuios.Lib.Calendar
