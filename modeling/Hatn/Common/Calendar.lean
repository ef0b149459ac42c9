import Hatn.Common.DateRanges
import Hatn.Common.DateTimeText

/-!
# Days of the calendar

The calendar library numbers the days, `dayNumber`, and finds the date of a number,
`fromDayNumber`.  The two are inverse to one another: the algorithm counts years that begin in
march, so that the leap day is the last one of its year, and from the century down to the month
each step leaves the days behind the beginning of what was found.  Dates that differ have
different numbers, which is why the date that is found is the one that was numbered
(`makeDate_eq_some_iff`).
-/

namespace Hatn.Common

open DateRange (dayNumber_day dayNumber_months)

/-- `from_day_number` of the gregorian calendar: the year, the month and the day. -/
def fromDayNumber (dayNumber : Int) : Int × Int × Int :=
  let a := dayNumber + 32044
  let b := (4 * a + 3) / 146097
  let c := a - 146097 * b / 4
  let d := (4 * c + 3) / 1461
  let e := c - 1461 * d / 4
  let m := (5 * e + 2) / 153
  (100 * b + d - 4800 + m / 10, m + 3 - 12 * (m / 10), e - (153 * m + 2) / 5 + 1)

/-! ### Centuries and years -/

/-- The days behind the beginning of a century; the last one of each fourth is a leap day. -/
theorem century_bounds {a b : Int} (hb : b = (4 * a + 3) / 146097) :
    146097 * b / 4 = 36524 * b + b / 4 ∧ 0 ≤ a - 146097 * b / 4 ∧ a - 146097 * b / 4 ≤ 36524 ∧
      (a - 146097 * b / 4 = 36524 → b % 4 = 3) := by
  have h : 146097 * b ≤ 4 * a + 3 ∧ 4 * a + 3 < 146097 * b + 146097 := by omega
  have hq : 146097 * b / 4 = 36524 * b + b / 4 := by omega
  obtain ⟨q, r, hr, hr', rfl⟩ : ∃ q r : Int, 0 ≤ r ∧ r ≤ 3 ∧ b = 4 * q + r :=
    ⟨b / 4, b % 4, by omega, by omega, by omega⟩
  have hdiv : (4 * q + r) / 4 = q := by omega
  have hmod : (4 * q + r) % 4 = r := by omega
  rw [hq, hdiv, hmod]
  clear hb hq hdiv hmod
  refine ⟨rfl, by omega, by omega, by omega⟩

/-- The days behind the beginning of a year that begins in march. -/
theorem year_bounds {c d : Int} (hc : 0 ≤ c) (hc' : c ≤ 36524) (hd : d = (4 * c + 3) / 1461) :
    1461 * d / 4 = 365 * d + d / 4 ∧ 0 ≤ d ∧ d ≤ 99 ∧ 0 ≤ c - 1461 * d / 4 ∧
      c - 1461 * d / 4 ≤ 365 ∧ (c - 1461 * d / 4 = 365 → d % 4 = 3) := by
  have h : 1461 * d ≤ 4 * c + 3 ∧ 4 * c + 3 < 1461 * d + 1461 := by omega
  have hq : 1461 * d / 4 = 365 * d + d / 4 := by omega
  obtain ⟨q, r, hr, hr', rfl⟩ : ∃ q r : Int, 0 ≤ r ∧ r ≤ 3 ∧ d = 4 * q + r :=
    ⟨d / 4, d % 4, by omega, by omega, by omega⟩
  have hdiv : (4 * q + r) / 4 = q := by omega
  have hmod : (4 * q + r) % 4 = r := by omega
  rw [hq, hdiv, hmod]
  clear hd hq hdiv hmod
  refine ⟨rfl, by omega, by omega, by omega, by omega, by omega⟩

/-- The days in front of a year that begins in march, from the year -4800 on. -/
def marchYear (y : Int) : Int := 365 * y + y / 4 - y / 100 + y / 400

theorem marchYear_century {b d : Int} (hd : 0 ≤ d) (hd' : d ≤ 99) :
    marchYear (100 * b + d) = 36524 * b + b / 4 + (365 * d + d / 4) := by
  have h4 : (100 * b + d) / 4 = 25 * b + d / 4 := by omega
  have h100 : (100 * b + d) / 100 = b := by omega
  have h400 : (100 * b + d) / 400 = b / 4 := by omega
  rw [marchYear, h4, h100, h400]
  ring

/-- A day of a year that begins in march: `m` months and `day` days behind its beginning. -/
theorem dayNumber_march {y month day m : Nat} {Y : Int} (hm : m ≤ 11)
    (hmonth : month = if m < 10 then m + 3 else m - 9)
    (hY : Y = y + 4800 - if m < 10 then 0 else 1) :
    dayNumber y month day = day + (153 * (m : Int) + 2) / 5 + marchYear Y - 32045 := by
  simp only [dayNumber, marchYear]
  split at hmonth
  next h =>
    rw [if_pos h] at hY
    have ha : (14 - (month : Int)) / 12 = 0 := by omega
    rw [ha, show (month : Int) + 12 * 0 - 3 = m by omega, show (y : Int) + 4800 - 0 = Y by omega]
    ring
  next h =>
    rw [if_neg h] at hY
    have ha : (14 - (month : Int)) / 12 = 1 := by omega
    rw [ha, show (month : Int) + 12 * 1 - 3 = m by omega, show (y : Int) + 4800 - 1 = Y by omega]
    ring

theorem isLeapYear_iff (y : Nat) :
    isLeapYear y = true ↔ y % 4 = 0 ∧ (y % 100 ≠ 0 ∨ y % 400 = 0) := by
  simp [isLeapYear]

/-- The days of the `m`-th month of a year that begins in march. -/
theorem march_day_le {y month m : Nat} {e : Int} (hm : m ≤ 11) (he : 0 ≤ e) (he' : e ≤ 365)
    (hme : (m : Int) = (5 * e + 2) / 153) (hmonth : month = if m < 10 then m + 3 else m - 9)
    (hleap : e = 365 → isLeapYear y = true) :
    0 ≤ e - (153 * (m : Int) + 2) / 5 ∧ e - (153 * (m : Int) + 2) / 5 < daysInMonth y month := by
  have hfebruary : (28 : Int) ≤ daysInMonth y 2 ∧ (e = 365 → daysInMonth y 2 = 29) := by
    have hdays : daysInMonth y 2 = if isLeapYear y then 29 else 28 := rfl
    rw [hdays]
    refine ⟨?_, fun h => if_pos (hleap h)⟩
    split <;> omega
  subst hmonth
  interval_cases m
  case «11» =>
    simp only [Nat.reduceLT, Nat.reduceSub, if_false]
    omega
  all_goals
    simp only [Nat.reduceLT, Nat.reduceAdd, Nat.reduceSub, if_true, if_false, daysInMonth,
      Nat.reduceBEq, Bool.or_true, Bool.or_false, Bool.false_eq_true]
    omega

/-- **The date that is found has the number it was found for**, and is a date of the calendar. -/
theorem fromDayNumber_spec {n : Int} (h : 0 ≤ (fromDayNumber n).1) :
    ∃ y month day : Nat, fromDayNumber n = ((y : Int), (month : Int), (day : Int)) ∧
      dayNumber y month day = n ∧ 1 ≤ month ∧ month ≤ 12 ∧ 1 ≤ day ∧
      day ≤ daysInMonth y month := by
  simp only [fromDayNumber] at h ⊢
  obtain ⟨hcentury, hc, hc', hcleap⟩ := century_bounds (a := n + 32044) rfl
  generalize hbdef : (4 * (n + 32044) + 3) / 146097 = b at *
  generalize hcdef : n + 32044 - 146097 * b / 4 = c at *
  obtain ⟨hyear, hd, hd', he, he', heleap⟩ := year_bounds hc hc' rfl
  generalize hddef : (4 * c + 3) / 1461 = d at *
  generalize hedef : c - 1461 * d / 4 = e at *
  have hm : 0 ≤ (5 * e + 2) / 153 ∧ (5 * e + 2) / 153 ≤ 11 := by omega
  obtain ⟨m, hmdef⟩ : ∃ m : Nat, (m : Int) = (5 * e + 2) / 153 := ⟨((5 * e + 2) / 153).toNat, by omega⟩
  rw [← hmdef] at h hm ⊢
  obtain ⟨y, hy⟩ : ∃ y : Nat, (y : Int) = 100 * b + d - 4800 + m / 10 :=
    ⟨(100 * b + d - 4800 + (m : Int) / 10).toNat, by omega⟩
  have hleap : e = 365 → isLeapYear y = true := by
    intro h365
    have h3 := heleap h365
    have h11 : m = 11 := by omega
    rw [isLeapYear_iff]
    have hb3 : d = 99 → b % 4 = 3 := by omega
    omega
  obtain ⟨hday, hday'⟩ := march_day_le (y := y) (m := m) (by omega) he he' hmdef rfl hleap
  refine ⟨y, if m < 10 then m + 3 else m - 9, (e - (153 * (m : Int) + 2) / 5 + 1).toNat, ?_, ?_,
    ?_, ?_, ?_, ?_⟩
  · rw [hy, Int.toNat_of_nonneg (by omega)]
    have hmonth : (m : Int) + 3 - 12 * (m / 10) = ((if m < 10 then m + 3 else m - 9 : Nat) : Int) := by
      split <;> omega
    rw [hmonth]
  · rw [dayNumber_march (m := m) (Y := 100 * b + d) (by omega) rfl (by split <;> omega),
      Int.toNat_of_nonneg (by omega), marchYear_century hd hd', ← hcentury, ← hyear]
    omega
  · split <;> omega
  · split <;> omega
  · omega
  · omega

/-! ### Dates that differ have different numbers -/

theorem dayNumber_next_year (y : Nat) : dayNumber (y + 1) 1 1 = dayNumber y 12 1 + 31 := by
  simp only [dayNumber]
  omega

theorem dayNumber_years {y y' : Nat} (h : y ≤ y') : dayNumber y 1 1 ≤ dayNumber y' 1 1 := by
  simp only [dayNumber]
  omega

/-- The beginning of a month is not in front of the beginning of the year. -/
theorem dayNumber_month_ge {y m : Nat} (hm : 1 ≤ m) (hm' : m ≤ 12) :
    dayNumber y 1 1 ≤ dayNumber y m 1 := by
  obtain h | h := Nat.eq_or_lt_of_le hm
  · rw [← h]
  · have hmonths := dayNumber_months (y := y) le_rfl h hm'
    omega

/-- A month ends in front of the next year. -/
theorem dayNumber_month_le {y m : Nat} (hm : 1 ≤ m) (hm' : m ≤ 12) :
    dayNumber y m 1 + daysInMonth y m ≤ dayNumber (y + 1) 1 1 := by
  have hyear := dayNumber_next_year y
  obtain h | h := Nat.eq_or_lt_of_le hm'
  · rw [h]
    have hdays : daysInMonth y 12 = 31 := rfl
    omega
  · have hmonths := dayNumber_months (y := y) hm h le_rfl
    omega

/-- **The days of the calendar are numbered in their order.** -/
theorem dayNumber_lt {y m d y' m' d' : Nat} (hm : 1 ≤ m) (hm' : m ≤ 12)
    (hd' : d ≤ daysInMonth y m) (gm : 1 ≤ m') (gm' : m' ≤ 12) (gd : 1 ≤ d')
    (h : y < y' ∨ y = y' ∧ (m < m' ∨ m = m' ∧ d < d')) :
    dayNumber y m d < dayNumber y' m' d' := by
  rw [dayNumber_day y m d, dayNumber_day y' m' d']
  obtain h | ⟨rfl, h⟩ := h
  · have hend := dayNumber_month_le (y := y) hm hm'
    have hyears := dayNumber_years (show y + 1 ≤ y' from h)
    have hbegin := dayNumber_month_ge (y := y') gm gm'
    omega
  · obtain h | ⟨rfl, h⟩ := h
    · have hmonths := dayNumber_months (y := y) hm h gm'
      omega
    · omega

theorem dayNumber_inj {y m d y' m' d' : Nat} (hm : 1 ≤ m) (hm' : m ≤ 12) (hd : 1 ≤ d)
    (hd' : d ≤ daysInMonth y m) (gm : 1 ≤ m') (gm' : m' ≤ 12) (gd : 1 ≤ d')
    (gd' : d' ≤ daysInMonth y' m') (h : dayNumber y m d = dayNumber y' m' d') :
    y = y' ∧ m = m' ∧ d = d' := by
  have hlt := mt (dayNumber_lt hm hm' hd' gm gm' gd) (not_lt.mpr h.ge)
  have hgt := mt (dayNumber_lt gm gm' gd' hm hm' hd) (not_lt.mpr h.le)
  omega

/-! ### Dates of the calendar library -/

/-- The days from 1970 to the first and to the last day that the calendar library knows. -/
def firstDay : Int := dayNumber 1400 1 1 - dayNumber 1970 1 1

def lastDay : Int := dayNumber 9999 12 31 - dayNumber 1970 1 1

/-- `makeDate` of a day since 1970; the calendar library throws outside of its years. -/
def makeDate (days : Int) : Option Date :=
  let ymd := fromDayNumber (days + dayNumber 1970 1 1)
  if 1400 ≤ ymd.1 ∧ ymd.1 ≤ 9999 then
    Date.ofValid ymd.1.toNat ymd.2.1.toNat ymd.2.2.toNat
  else none

theorem validate_of_bounds {year month day : Nat} (hy : 1 ≤ year) (hy' : year < 2 ^ 16)
    (hm : 1 ≤ month) (hm' : month ≤ 12) (hd : 1 ≤ day) (hd' : day ≤ 31)
    (hdays : day ≤ daysInMonth year month) : Date.validate year month day = true := by
  simp only [Date.validate, Nat.mod_eq_of_lt hy', Bool.and_eq_true, Bool.not_eq_true',
    Bool.or_eq_false_iff, decide_eq_false_iff_not, decide_eq_true_eq, beq_eq_false_iff_ne]
  omega

theorem daysInMonth_le (y m : Nat) : daysInMonth y m ≤ 31 := by
  rw [daysInMonth]
  repeat' split
  all_goals omega

theorem toBoostDate_eq_some_iff {d : Date} {days : Int} : d.toBoostDate = some days ↔
    (1400 ≤ d.year ∧ d.year ≤ 9999 ∧ 1 ≤ d.month ∧ 1 ≤ d.day ∧
      d.day ≤ daysInMonth d.year d.month) ∧
    dayNumber d.year d.month d.day = days + dayNumber 1970 1 1 := by
  rw [Date.toBoostDate]
  split
  next h =>
    rw [Option.some.injEq]
    exact ⟨fun hd => ⟨h, by omega⟩, fun hd => by omega⟩
  next h => exact ⟨fun hd => absurd hd (by simp), fun hd => absurd hd.1 h⟩

/-- **The date of a day is the one that has the day.** -/
theorem makeDate_eq_some_iff {days : Int} {d : Date} :
    makeDate days = some d ↔ d.toBoostDate = some days := by
  rw [toBoostDate_eq_some_iff]
  constructor
  · intro h
    rw [makeDate] at h
    split at h
    next hy =>
      obtain ⟨y, m, day, hymd, hn, hm, hm', hd, hd'⟩ :=
        fromDayNumber_spec (n := days + dayNumber 1970 1 1) (by omega)
      rw [hymd] at h hy
      simp only [Int.toNat_natCast] at h hy
      have h31 := daysInMonth_le y m
      have hv := validate_of_bounds (by omega) (by omega) hm hm' hd (by omega) hd'
      rw [Date.ofValid, dif_pos hv, Option.some.injEq] at h
      subst h
      simp only [Nat.mod_eq_of_lt (show y < 2 ^ 16 by omega)]
      exact ⟨⟨by omega, by omega, hm, hd, hd'⟩, hn⟩
    next => cases h
  · rintro ⟨⟨hy, hy', hm, hd, hd'⟩, hn⟩
    have hmonth := d.month_le
    have hfirst : dayNumber 1400 1 1 ≤ days + dayNumber 1970 1 1 := by
      rw [← hn, dayNumber_day d.year]
      have h1 := dayNumber_years hy
      have h2 := dayNumber_month_ge (y := d.year) hm hmonth
      omega
    have hpos : 0 ≤ (fromDayNumber (days + dayNumber 1970 1 1)).1 := by
      have h1400 : dayNumber 1400 1 1 = 2232400 := by decide
      simp only [fromDayNumber]
      omega
    obtain ⟨y, m, day, hymd, hn', gm, gm', gd, gd'⟩ := fromDayNumber_spec hpos
    obtain ⟨rfl, rfl, rfl⟩ := dayNumber_inj gm gm' gd gd' hm hmonth hd hd' (hn'.trans hn.symm)
    have hv := validate_of_bounds (by omega) d.year_lt hm hmonth hd d.day_le hd'
    rw [makeDate, hymd]
    simp only [Int.toNat_natCast]
    rw [if_pos (by omega), Date.ofValid, dif_pos hv]
    simp only [Nat.mod_eq_of_lt d.year_lt]

/-- **The days of the calendar library** are those from the first to the last one. -/
theorem makeDate_isSome_iff (days : Int) :
    (makeDate days).isSome ↔ firstDay ≤ days ∧ days ≤ lastDay := by
  have h1400 : dayNumber 1400 1 1 = 2232400 := by decide
  constructor
  · intro h
    obtain ⟨d, hd⟩ := Option.isSome_iff_exists.mp h
    obtain ⟨⟨hy, hy', hm, hday, hday'⟩, hn⟩ :=
      toBoostDate_eq_some_iff.mp (makeDate_eq_some_iff.mp hd)
    have hmonth := d.month_le
    have hbegin := dayNumber_month_ge (y := d.year) hm hmonth
    have hend := dayNumber_month_le (y := d.year) hm hmonth
    have hyears := dayNumber_years hy
    have hyears' := dayNumber_years (show d.year + 1 ≤ 10000 by omega)
    have hlast : dayNumber 9999 12 31 = dayNumber 10000 1 1 - 1 := by decide
    rw [dayNumber_day d.year] at hn
    simp only [firstDay, lastDay]
    omega
  · rintro ⟨hfirst, hlast⟩
    simp only [firstDay, lastDay] at hfirst hlast
    have hpos : 0 ≤ (fromDayNumber (days + dayNumber 1970 1 1)).1 := by
      simp only [fromDayNumber]
      omega
    obtain ⟨y, m, day, hymd, hn, hm, hm', hd, hd'⟩ := fromDayNumber_spec hpos
    have hy : 1400 ≤ y := by
      by_contra hlt
      have h : dayNumber y m day < dayNumber 1400 1 1 :=
        dayNumber_lt hm hm' hd' (by decide) (by decide) (by decide) (.inl (by omega))
      omega
    have hy' : y ≤ 9999 := by
      by_contra hlt
      have h : dayNumber 9999 12 31 < dayNumber y m day :=
        dayNumber_lt (by decide) (by decide) (by decide) hm hm' hd (.inl (by omega))
      omega
    have h31 := daysInMonth_le y m
    have hv := validate_of_bounds (by omega) (by omega) hm hm' hd (by omega) hd'
    rw [makeDate, hymd]
    simp only [Int.toNat_natCast]
    rw [if_pos (by omega), Date.ofValid, dif_pos hv]
    rfl

end Hatn.Common
