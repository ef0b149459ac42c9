import Hatn.Common.DateTime
import Mathlib.Order.Monotone.Basic
import Mathlib.Tactic.IntervalCases
import Mathlib.Tactic.Linarith

/-!
# Ranges of dates

`dateToRangeNumber` gives a date the number of its range: the year, the half of it, the
quarter, the month, the week or the day.  Ranges are compared by their numbers.  For all types
but the week, a later date has no lower number (`dateToRangeNumber_mono`); the first and last
days of a year may be in a week that belongs to the year beside it, while the number keeps the
year of the date.
-/

namespace Hatn.Common

/-- A date that the calendar accepts. -/
structure CalendarDate where
  date : Date
  accepted : date.toBoostDate.isSome

namespace CalendarDate

theorem bounds (d : CalendarDate) : 1400 ≤ d.date.year ∧ d.date.year ≤ 9999 ∧
    1 ≤ d.date.month ∧ 1 ≤ d.date.day ∧ d.date.day ≤ daysInMonth d.date.year d.date.month := by
  by_contra h
  have haccepted := d.accepted
  rw [Date.toBoostDate, if_neg h] at haccepted
  cases haccepted

def toDayNumber (d : CalendarDate) : Int := dayNumber d.date.year d.date.month d.date.day

/-- `day_of_year` -/
def dayOfYear (d : CalendarDate) : Nat := (d.toDayNumber - dayNumber d.date.year 1 1 + 1).toNat

/-- `week_number`: the number of the week by ISO 8601, in the year that the thursday of the week
belongs to. -/
def weekNumber (d : CalendarDate) : Nat :=
  let y := d.date.year
  let thursday := d.toDayNumber - d.toDayNumber % 7 + 3
  let first := if thursday < dayNumber y 1 1 then dayNumber (y - 1) 1 1
    else if thursday < dayNumber (y + 1) 1 1 then dayNumber y 1 1
    else dayNumber (y + 1) 1 1
  ((thursday - first) / 7 + 1).toNat

end CalendarDate

namespace DateRange

/-- `DateRange::Type` -/
inductive RangeType
  | year | halfYear | quarter | month | week | day
  deriving DecidableEq, Repr

def RangeType.toNat : RangeType → Nat
  | .year => 0
  | .halfYear => 1
  | .quarter => 2
  | .month => 3
  | .week => 4
  | .day => 5

/-- The number of the range in its year. -/
def rangeOfYear (d : CalendarDate) : RangeType → Nat
  | .year => 1
  | .halfYear => (if 6 < d.date.month then 1 else 0) + 1
  | .quarter => d.date.month / 3 + if d.date.month % 3 ≠ 0 then 1 else 0
  | .month => d.date.month
  | .week => d.weekNumber
  | .day => d.dayOfYear

def dateToRangeNumber (d : CalendarDate) (type : RangeType) : Nat :=
  (rangeOfYear d type + d.date.year * 1000 + type.toNat * 1000 * 10000) % 2 ^ 32

def ofDate (d : CalendarDate) (type : RangeType) : DateRange :=
  ⟨dateToRangeNumber d type, Nat.mod_lt _ (by decide)⟩

/-- `type`; other numbers are no types. -/
def type? (r : DateRange) : Option RangeType :=
  match r.value / (1000 * 10000) with
  | 0 => some .year
  | 1 => some .halfYear
  | 2 => some .quarter
  | 3 => some .month
  | 4 => some .week
  | 5 => some .day
  | _ => none

theorem value_injective : Function.Injective DateRange.value := by
  rintro ⟨_, _⟩ ⟨_, _⟩ rfl
  rfl

/-- Ranges are compared by their numbers. -/
instance : LinearOrder DateRange := LinearOrder.lift' DateRange.value value_injective

/-! ### Later dates -/

/-- The first day of the next month is behind the last one of the month. -/
theorem dayNumber_next_month {y m : Nat} (hm : 1 ≤ m) (hm' : m ≤ 11) :
    dayNumber y (m + 1) 1 = dayNumber y m 1 + daysInMonth y m := by
  have hleap : isLeapYear y = true ↔ y % 4 = 0 ∧ (y % 100 ≠ 0 ∨ y % 400 = 0) := by
    simp [isLeapYear]
  interval_cases m
  case «2» =>
    simp only [dayNumber, daysInMonth, beq_self_eq_true, if_true]
    split
    · next h =>
      have h := hleap.mp h
      omega
    · next h =>
      have h := mt hleap.mpr h
      omega
  all_goals
    simp only [dayNumber, daysInMonth]
    simp
    omega

theorem dayNumber_day (y m d : Nat) : dayNumber y m d = dayNumber y m 1 + d - 1 := by
  simp only [dayNumber]
  omega

/-- In a year, the months begin one behind the end of the other. -/
theorem dayNumber_months {y m m' : Nat} (hm : 1 ≤ m) (h : m < m') (hm' : m' ≤ 12) :
    dayNumber y m 1 + daysInMonth y m ≤ dayNumber y m' 1 := by
  induction m', h using Nat.le_induction with
  | base => exact (dayNumber_next_month hm (by omega)).ge
  | succ m' h ih =>
    have hnext := dayNumber_next_month (y := y) (show 1 ≤ m' by omega) (by omega)
    have hlast := ih (by omega)
    omega

theorem dayNumber_last_month (y : Nat) : dayNumber y 12 1 ≤ dayNumber y 1 1 + 335 := by
  simp only [dayNumber]
  omega

/-- The days of a year are counted on. -/
theorem toDayNumber_mono {d d' : CalendarDate} (hyear : d.date.year = d'.date.year)
    (h : d.date.toNumber ≤ d'.date.toNumber) : d.toDayNumber ≤ d'.toDayNumber := by
  obtain ⟨-, -, hm, hd, hdays⟩ := d.bounds
  obtain ⟨-, -, -, hd', -⟩ := d'.bounds
  rw [CalendarDate.toDayNumber, CalendarDate.toDayNumber, dayNumber_day _ _ d.date.day,
    dayNumber_day _ _ d'.date.day, ← hyear]
  simp only [Date.toNumber] at h
  obtain hmonth | hmonth := Nat.lt_or_ge d.date.month d'.date.month
  · have hmonths := dayNumber_months (y := d.date.year) hm hmonth d'.date.month_le
    linarith
  · have heq : d.date.month = d'.date.month := by
      have hle' := d'.date.day_le
      omega
    have hday : d.date.day ≤ d'.date.day := by omega
    rw [heq]
    linarith

theorem dayOfYear_mono {d d' : CalendarDate} (hyear : d.date.year = d'.date.year)
    (h : d.date.toNumber ≤ d'.date.toNumber) : d.dayOfYear ≤ d'.dayOfYear := by
  rw [CalendarDate.dayOfYear, CalendarDate.dayOfYear, ← hyear]
  have hmono := toDayNumber_mono hyear h
  exact Int.toNat_le_toNat (by linarith)

theorem dayOfYear_le (d : CalendarDate) : d.dayOfYear ≤ 366 := by
  obtain ⟨-, -, hm, hd, hdays⟩ := d.bounds
  have hle := d.date.day_le
  have hlast := dayNumber_last_month d.date.year
  have hmonth : dayNumber d.date.year d.date.month 1 ≤ dayNumber d.date.year 12 1 := by
    obtain h | h := Nat.eq_or_lt_of_le d.date.month_le
    · rw [h]
    · have hmonths := dayNumber_months (y := d.date.year) hm h le_rfl
      omega
  simp only [CalendarDate.dayOfYear, CalendarDate.toDayNumber]
  rw [dayNumber_day]
  omega

theorem rangeOfYear_lt {d : CalendarDate} {type : RangeType} (htype : type ≠ .week) :
    rangeOfYear d type < 1000 := by
  have hm := d.date.month_le
  cases type with
  | year =>
    simp only [rangeOfYear]
    omega
  | halfYear =>
    simp only [rangeOfYear]
    split <;> decide
  | quarter =>
    simp only [rangeOfYear]
    split <;> omega
  | month =>
    simp only [rangeOfYear]
    omega
  | week => exact absurd rfl htype
  | day => exact Nat.lt_of_le_of_lt (dayOfYear_le d) (by decide)

theorem rangeOfYear_mono {d d' : CalendarDate} {type : RangeType} (htype : type ≠ .week)
    (hyear : d.date.year = d'.date.year) (h : d.date.toNumber ≤ d'.date.toNumber) :
    rangeOfYear d type ≤ rangeOfYear d' type := by
  have hm : d.date.month ≤ d'.date.month := by
    have hle := d.date.day_le
    have hle' := d'.date.day_le
    simp only [Date.toNumber] at h
    omega
  cases type with
  | year => exact le_rfl
  | halfYear =>
    simp only [rangeOfYear]
    split <;> split <;> omega
  | quarter =>
    simp only [rangeOfYear]
    split <;> split <;> omega
  | month => exact hm
  | week => exact absurd rfl htype
  | day => exact dayOfYear_mono hyear h

theorem RangeType.toNat_le (type : RangeType) : type.toNat ≤ 5 := by
  cases type <;> decide

/-- **A later date has no lower number**, but for the weeks. -/
theorem dateToRangeNumber_mono {d d' : CalendarDate} {type : RangeType} (htype : type ≠ .week)
    (h : d.date.toNumber ≤ d'.date.toNumber) :
    dateToRangeNumber d type ≤ dateToRangeNumber d' type := by
  obtain ⟨-, hy, -⟩ := d.bounds
  obtain ⟨-, hy', -⟩ := d'.bounds
  have hr := rangeOfYear_lt (d := d) htype
  have hr' := rangeOfYear_lt (d := d') htype
  have ht := type.toNat_le
  rw [dateToRangeNumber, dateToRangeNumber, Nat.mod_eq_of_lt (by omega),
    Nat.mod_eq_of_lt (by omega)]
  have hyear : d.date.year ≤ d'.date.year := by
    have hm := d.date.month_le
    have hm' := d'.date.month_le
    have hd := d.date.day_le
    have hd' := d'.date.day_le
    simp only [Date.toNumber] at h
    omega
  obtain hyear | hyear := Nat.eq_or_lt_of_le hyear
  · have hmono := rangeOfYear_mono htype hyear h
    omega
  · omega

end DateRange

end Hatn.Common
