import Hatn.Common.Fmt
import Mathlib.Algebra.Order.Group.Int

/-!
# Dates, times and date ranges

The calendar types of the common library: their components with the bounds that
every setter keeps, the tests `isValid`, the numbers they are compared by and
their text forms in the number formats.

A date and time is compared by the milliseconds since 1970, `toEpochMs`, which
goes through a calendar that knows the years 1400 to 9999 and throws outside of
them; `none` is this exception.
-/

namespace Hatn.Common

open Hatn.Order

def invalidStr : List UInt8 := [0x69, 0x6e, 0x76, 0x61, 0x6c, 0x69, 0x64]

/-! ### Dates -/

/-- A date; its setters refuse months above 12 and days above 31. -/
structure Date where
  year : Nat
  month : Nat
  day : Nat
  year_lt : year < 2 ^ 16
  month_le : month ≤ 12
  day_le : day ≤ 31
  deriving DecidableEq

namespace Date

def isValid (d : Date) : Bool := 1970 ≤ d.year || 1 ≤ d.month || 1 ≤ d.day

def toNumber (d : Date) : Nat := d.year * 10000 + d.month * 100 + d.day

def lt (a b : Date) : Bool := a.toNumber < b.toNumber

def serialize (d : Date) : List UInt8 :=
  if !d.isValid then invalidStr else fmtDec 4 d.year ++ fmtDec 2 d.month ++ fmtDec 2 d.day

theorem toNumber_inj {a b : Date} (h : a.toNumber = b.toNumber) : a = b := by
  obtain ⟨y, m, d, hy, hm, hd⟩ := a
  obtain ⟨y', m', d', hy', hm', hd'⟩ := b
  simp only [toNumber] at h
  have e1 : y = y' := by omega
  have e2 : m = m' := by omega
  have e3 : d = d' := by omega
  subst e1 e2 e3
  rfl

/-- **A valid date is written as its number with eight digits.** -/
theorem serialize_eq {d : Date} (h : d.isValid = true) : d.serialize = fmtDec 8 d.toNumber := by
  have hm := d.month_le
  have hd := d.day_le
  have h4 : d.toNumber / 10 ^ 4 = d.year := by simp only [toNumber]; omega
  have h2 : numeral 10 2 (d.toNumber / 10 ^ 2) = numeral 10 2 d.month := by
    rw [← numeral_mod, show d.toNumber / 10 ^ 2 % 10 ^ 2 = d.month by simp only [toNumber]; omega]
  have h0 : numeral 10 2 d.toNumber = numeral 10 2 d.day := by
    rw [← numeral_mod, show d.toNumber % 10 ^ 2 = d.day by simp only [toNumber]; omega]
  rw [serialize, h, fmtDec, fmtDec, fmtDec, fmtDec, padded_add (by omega) 4 4, h4,
    padded_of_lt (by omega) (show d.month < 10 ^ 2 by omega),
    padded_of_lt (by omega) (show d.day < 10 ^ 2 by omega), numeral_add 10 2 2, h2, h0]
  simp

end Date

/-! ### Times -/

/-- A time of the day; its setters refuse components out of range. -/
structure Time where
  hour : Nat
  minute : Nat
  second : Nat
  millisecond : Nat
  hour_lt : hour < 24
  minute_lt : minute < 60
  second_lt : second < 60
  millisecond_lt : millisecond < 1000
  deriving DecidableEq

namespace Time

/-- `isValid`; midnight serves as the null time. -/
def isValid (t : Time) : Bool := 0 < t.hour || 0 < t.minute || 0 < t.second || 0 < t.millisecond

def toNumber (t : Time) : Nat :=
  t.hour * 10000000 + t.minute * 100000 + t.second * 1000 + t.millisecond

def lt (a b : Time) : Bool := a.toNumber < b.toNumber

def serialize (t : Time) : List UInt8 :=
  if !t.isValid then invalidStr
  else if 0 < t.millisecond then
    fmtDec 2 t.hour ++ fmtDec 2 t.minute ++ fmtDec 2 t.second ++ 0x2e :: fmtDec 3 t.millisecond
  else fmtDec 2 t.hour ++ fmtDec 2 t.minute ++ fmtDec 2 t.second

theorem toNumber_inj {a b : Time} (h : a.toNumber = b.toNumber) : a = b := by
  obtain ⟨h1, m1, s1, u1, _, _, _, _⟩ := a
  obtain ⟨h2, m2, s2, u2, _, _, _, _⟩ := b
  simp only [toNumber] at h
  have e1 : h1 = h2 := by omega
  have e2 : m1 = m2 := by omega
  have e3 : s1 = s2 := by omega
  have e4 : u1 = u2 := by omega
  subst e1 e2 e3 e4
  rfl

/-- The whole seconds of the number form. -/
def seconds (t : Time) : Nat := t.hour * 10000 + t.minute * 100 + t.second

/-- The part of a number form behind the seconds. -/
def fraction (t : Time) : List UInt8 :=
  if 0 < t.millisecond then 0x2e :: fmtDec 3 t.millisecond else []

theorem serialize_eq {t : Time} (h : t.isValid = true) :
    t.serialize = (numeral 10 6 t.seconds).map digitChar ++ t.fraction := by
  have hm := t.minute_lt
  have hs := t.second_lt
  have hh := t.hour_lt
  have h6 : numeral 10 6 t.seconds
      = numeral 10 2 t.hour ++ (numeral 10 2 t.minute ++ numeral 10 2 t.second) := by
    have e4 : t.seconds / 10 ^ 4 = t.hour := by simp only [seconds]; omega
    have e2 : t.seconds / 10 ^ 2 % 10 ^ 2 = t.minute := by simp only [seconds]; omega
    have e0 : t.seconds % 10 ^ 2 = t.second := by simp only [seconds]; omega
    rw [numeral_add 10 2 4, e4, numeral_add 10 2 2, ← numeral_mod 10 2 (t.seconds / 10 ^ 2), e2,
      ← numeral_mod 10 2 t.seconds, e0]
  rw [serialize, h, h6, fmtDec, fmtDec, fmtDec,
    padded_of_lt (by omega) (show t.hour < 10 ^ 2 by omega),
    padded_of_lt (by omega) (show t.minute < 10 ^ 2 by omega),
    padded_of_lt (by omega) (show t.second < 10 ^ 2 by omega)]
  simp only [Bool.not_true, Bool.false_eq_true, if_false]
  unfold fraction
  split <;> simp

/-- **A valid time is written in the order of its number.** -/
theorem serialize_lt {a b : Time} (ha : a.isValid = true) (hb : b.isValid = true) :
    a.serialize < b.serialize ↔ a.toNumber < b.toNumber := by
  have hs : ∀ t : Time, t.seconds < 10 ^ 6 := by
    intro t
    have h1 := t.hour_lt
    have h2 := t.minute_lt
    have h3 := t.second_lt
    simp only [seconds]
    omega
  have hn : ∀ t : Time, t.toNumber = t.seconds * 1000 + t.millisecond := by
    intro t
    simp only [toNumber, seconds]
    omega
  have he : (numeral 10 6 a.seconds).map digitChar = (numeral 10 6 b.seconds).map digitChar ↔
      a.seconds = b.seconds :=
    ⟨fun h => numeral_inj (by omega) (hs a) (hs b) (map_digitChar_inj
      (fun d hd => by have := numeral_lt_base (by omega : 0 < 10) _ _ d hd; omega)
      (fun d hd => by have := numeral_lt_base (by omega : 0 < 10) _ _ d hd; omega) h),
      fun h => by rw [h]⟩
  have hf : a.fraction < b.fraction ↔ a.millisecond < b.millisecond := by
    have h1 := a.millisecond_lt
    have h2 := b.millisecond_lt
    unfold fraction
    split <;> split
    · rw [List.cons_lt_cons_iff, fmtDec_lt (by omega) (by omega)]
      simp
    · simp; omega
    · simp; omega
    · simp; omega
  rw [serialize_eq ha, serialize_eq hb, append_lt_append (by simp),
    map_digitChar_lt (fun d hd => by have := numeral_lt_base (by omega : 0 < 10) _ _ d hd; omega)
      (fun d hd => by have := numeral_lt_base (by omega : 0 < 10) _ _ d hd; omega),
    numeral_lt_numeral (by omega) (hs a) (hs b), he, hf, hn, hn]
  have h1 := a.millisecond_lt
  have h2 := b.millisecond_lt
  omega

end Time

/-! ### Dates with times -/

/-- A date and a time in a timezone, whose offset is in minutes. -/
structure DateTime where
  date : Date
  time : Time
  tz : Int
  deriving DecidableEq

/-- `is_leap_year` of the gregorian calendar. -/
def isLeapYear (y : Nat) : Bool := y % 4 == 0 && (y % 100 != 0 || y % 400 == 0)

/-- `end_of_month_day` of the gregorian calendar. -/
def daysInMonth (y m : Nat) : Nat :=
  if m == 2 then (if isLeapYear y then 29 else 28)
  else if m == 4 || m == 6 || m == 9 || m == 11 then 30
  else 31

/-- `validate` of a year, a month and a day. -/
def Date.validate (year month day : Nat) : Bool :=
  !(12 < month || 31 < day || month == 0 || day == 0 || year == 0) &&
    day ≤ daysInMonth (year % 2 ^ 16) month

/-- `Date::set`: whether the number is that of a date. -/
def Date.accepts (value : Nat) : Bool :=
  validate (value / 10000) ((value - value / 10000 * 10000) / 100) (value % 100)

/-- `Time::set`: whether the number is that of a time, midnight included. -/
def Time.accepts (value : Nat) : Bool :=
  let hour := value / 10000000
  let minute := (value - hour * 10000000) / 100000
  let second := (value - hour * 10000000 - minute * 100000) / 1000
  hour < 24 && minute < 60 && second < 60

/-- `day_number` of the gregorian calendar: the julian day. -/
def dayNumber (y m d : Nat) : Int :=
  let a : Int := (14 - m) / 12
  let y' : Int := y + 4800 - a
  let m' : Int := m + 12 * a - 3
  d + (153 * m' + 2) / 5 + 365 * y' + y' / 4 - y' / 100 + y' / 400 - 32045

/-- `toBoostDate`: the day since 1970, where the calendar accepts the date. -/
def Date.toBoostDate (d : Date) : Option Int :=
  if 1400 ≤ d.year ∧ d.year ≤ 9999 ∧ 1 ≤ d.month ∧ 1 ≤ d.day ∧ d.day ≤ daysInMonth d.year d.month then
    some (dayNumber d.year d.month d.day - dayNumber 1970 1 1)
  else none

namespace DateTime

def isTimezoneValid (tz : Int) : Bool := !(tz < -720 || 840 < tz) && tz.tmod 15 == 0

def isValid (d : DateTime) : Bool := d.date.isValid && d.time.isValid && isTimezoneValid d.tz

/-- `to_time_t` of `toBoostPtime`: the microseconds since 1970 in whole seconds,
which C++ rounds towards zero. -/
def toTimeT (d : DateTime) : Option Int := do
  let days ← d.date.toBoostDate
  let seconds : Int := days * 86400 + d.time.hour * 3600 + d.time.minute * 60 + d.time.second
  return (seconds * 1000000 + d.time.millisecond * 1000).tdiv 1000000

def toEpochMs (d : DateTime) : Option Int := do
  if !d.isValid then return 0
  let t ← d.toTimeT
  return t * 1000 + d.time.millisecond - d.tz * 60 * 1000

/-- `toEpoch`: whole seconds as an `int32_t`. -/
def toEpoch (d : DateTime) : Option Int := do
  if !d.isValid then return 0
  let ms ← d.toEpochMs
  return (ms.tdiv 1000).bmod (2 ^ 32)

/-- `DateTime::fromNumber`: whether it returns at all.  The milliseconds stand above the
low byte, the timezone in quarters of an hour in seven bits of it; the constructors
throw for what is no valid date, time or timezone.  `calendar` tells for which seconds
since 1970 the calendar library has a date. -/
def accepts (calendar : Int → Bool) (num : Int) : Bool :=
  if num = 0 then true
  else
    let millis := num / 256
    let rawTz := num % 128
    let tz := (if 64 ≤ rawTz then rawTz - 128 else rawTz) * 15
    let seconds := millis.tdiv 1000 + tz * 60
    let ms := millis.tmod 1000
    calendar seconds && 0 ≤ ms && (seconds % 86400 != 0 || ms != 0) && isTimezoneValid tz

/-- `operator <`: by the instant, then by the timezone. -/
def lt (a b : DateTime) : Option Bool := do
  let s ← a.toEpochMs
  let o ← b.toEpochMs
  if s < o then return true
  if s = o then return a.tz < b.tz
  return false

end DateTime

/-! ### Date ranges -/

/-- A date range is a number made of a type, a year and a position in the year. -/
structure DateRange where
  value : Nat
  value_lt : value < 2 ^ 32
  deriving DecidableEq

namespace DateRange

def isValid (r : DateRange) : Bool := r.value != 0

def lt (a b : DateRange) : Bool := a.value < b.value

def serialize (r : DateRange) : List UInt8 := fmtDec 8 r.value

end DateRange

end Hatn.Common
