import Hatn.Common.Calendar

/-!
# The days of a range

A range is decoded into its type, its year and its position in the year, and `begin` and `end_`
find its first and its last day.  For all types but the week, the days between the two are
exactly the dates that get the range (`between_iff`).  Weeks are counted by ISO 8601 when a date
is encoded, but by seven days from the first of january when the range is decoded: the two agree
only where the week of the date is the block of seven days that the date is in, and the first
week is decoded up to the first of july.
-/

namespace Hatn.Common

namespace DateRange

/-- `range` -/
def range (r : DateRange) : Nat := r.value % 1000

/-- `year` -/
def year (r : DateRange) : Nat := r.value / 1000 % 10000

/-- A date of the calendar library. -/
def boostDate (year month day : Nat) : Option Int :=
  (Date.ofValid year month day).bind Date.toBoostDate

/-- The month and the day of `gd`, in the year of the range. -/
def inYear (year : Nat) (gd : Int) : Option Date := do
  let date ← makeDate gd
  Date.ofValid year date.month date.day

/-- The day that is `days` behind the first of january. -/
def dayOfRange (year days : Nat) : Option Date := do
  let gd ← boostDate year 1 1
  inYear year (gd + days)

/-- The cases of `begin`; where the calendar library throws, there is no date. -/
def beginOf (year range : Nat) : RangeType → Option Date
  | .year => Date.ofValid year 1 1
  | .halfYear => if range = 2 then Date.ofValid year 7 1 else Date.ofValid year 1 1
  | .quarter =>
    match range with
    | 2 => Date.ofValid year 4 1
    | 3 => Date.ofValid year 7 1
    | 4 => Date.ofValid year 10 1
    | _ => Date.ofValid year 1 1
  | .month => Date.ofValid year (range % 2 ^ 8) 1
  | .week => if 1 < range then dayOfRange year ((range - 1) * 7) else Date.ofValid year 1 1
  | .day => if 1 < range then dayOfRange year (range - 1) else Date.ofValid year 1 1

/-- The cases of `end`. -/
def endOf (year range : Nat) : RangeType → Option Date
  | .year => Date.ofValid year 12 31
  | .halfYear => if range = 2 then Date.ofValid year 12 31 else Date.ofValid year 6 30
  | .quarter =>
    match range with
    | 2 => Date.ofValid year 6 30
    | 3 => Date.ofValid year 9 30
    | 4 => Date.ofValid year 12 31
    | _ => Date.ofValid year 3 31
  | .month => do
    let gd ← if range = 12 then boostDate (year + 1) 1 1 else boostDate year (range + 1) 1
    inYear year (gd - 1)
  | .week => if 1 < range then dayOfRange year ((range - 1) * 7 + 6) else Date.ofValid year 7 1
  | .day => if 1 < range then dayOfRange year (range - 1) else Date.ofValid year 1 1

/-- `begin` -/
def begin (r : DateRange) : Option Date :=
  match r.type? with
  | some type => beginOf r.year r.range type
  | none => some Date.null

/-- `end` -/
def end_ (r : DateRange) : Option Date :=
  match r.type? with
  | some type => endOf r.year r.range type
  | none => some Date.null

/-- `contains`; the end is only found for dates that are not in front of the beginning. -/
def contains (r : DateRange) (dt : Date) : Option Bool := do
  let first ← r.begin
  if first.toNumber ≤ dt.toNumber then
    let last ← r.end_
    return decide (dt.toNumber ≤ last.toNumber)
  else return false

/-- `dateToRange` -/
def dateToRange (dt : Date) (type : RangeType) : Option DateRange :=
  if !dt.isValid then some ⟨0, Nat.two_pow_pos 32⟩
  else if h : dt.toBoostDate.isSome then some (ofDate ⟨dt, h⟩ type)
  else none

/-! ### What a range is decoded to -/

/-- A year has 365 or 366 days. -/
theorem dayNumber_year (y : Nat) :
    dayNumber y 1 1 + 365 ≤ dayNumber (y + 1) 1 1 ∧
      dayNumber (y + 1) 1 1 ≤ dayNumber y 1 1 + 366 := by
  simp only [dayNumber]
  omega

theorem toDayNumber_bounds (d : CalendarDate) :
    dayNumber d.date.year 1 1 ≤ d.toDayNumber ∧
      d.toDayNumber < dayNumber (d.date.year + 1) 1 1 := by
  obtain ⟨-, -, hm, hd, hdays⟩ := d.bounds
  have hbegin := dayNumber_month_ge (y := d.date.year) hm d.date.month_le
  have hend := dayNumber_month_le (y := d.date.year) hm d.date.month_le
  rw [CalendarDate.toDayNumber, dayNumber_day d.date.year d.date.month d.date.day]
  omega

theorem weekNumber_bounds (d : CalendarDate) : 1 ≤ d.weekNumber ∧ d.weekNumber ≤ 53 := by
  obtain ⟨hy, -⟩ := d.bounds
  obtain ⟨hfirst, hlast⟩ := toDayNumber_bounds d
  have hyear := dayNumber_year d.date.year
  have hbefore := dayNumber_year (d.date.year - 1)
  rw [Nat.sub_add_cancel (by omega)] at hbefore
  simp only [CalendarDate.weekNumber]
  split
  next => omega
  next => split <;> omega

theorem rangeOfYear_lt_all (d : CalendarDate) (type : RangeType) : rangeOfYear d type < 1000 := by
  by_cases htype : type = .week
  · subst htype
    have hw := (weekNumber_bounds d).2
    simp only [rangeOfYear]
    omega
  · exact rangeOfYear_lt htype

theorem dateToRangeNumber_eq (d : CalendarDate) (type : RangeType) :
    dateToRangeNumber d type =
      rangeOfYear d type + d.date.year * 1000 + type.toNat * 1000 * 10000 := by
  obtain ⟨-, hy, -⟩ := d.bounds
  have hr := rangeOfYear_lt_all d type
  have ht := type.toNat_le
  rw [dateToRangeNumber, Nat.mod_eq_of_lt (by omega)]

theorem ofDate_range (d : CalendarDate) (type : RangeType) :
    (ofDate d type).range = rangeOfYear d type := by
  have hr := rangeOfYear_lt_all d type
  simp only [range, ofDate, dateToRangeNumber_eq]
  omega

theorem ofDate_year (d : CalendarDate) (type : RangeType) :
    (ofDate d type).year = d.date.year := by
  obtain ⟨-, hy, -⟩ := d.bounds
  have hr := rangeOfYear_lt_all d type
  simp only [year, ofDate, dateToRangeNumber_eq]
  omega

theorem ofDate_type (d : CalendarDate) (type : RangeType) :
    (ofDate d type).type? = some type := by
  obtain ⟨-, hy, -⟩ := d.bounds
  have hr := rangeOfYear_lt_all d type
  have htype : (ofDate d type).value / (1000 * 10000) = type.toNat := by
    simp only [ofDate, dateToRangeNumber_eq]
    omega
  rw [type?, htype]
  cases type <;> rfl

theorem ofDate_begin (d : CalendarDate) (type : RangeType) :
    (ofDate d type).begin = beginOf d.date.year (rangeOfYear d type) type := by
  rw [begin, ofDate_type, ofDate_year, ofDate_range]

theorem ofDate_end (d : CalendarDate) (type : RangeType) :
    (ofDate d type).end_ = endOf d.date.year (rangeOfYear d type) type := by
  rw [end_, ofDate_type, ofDate_year, ofDate_range]

/-- Dates have the same range when the year and the position in it are the same. -/
theorem ofDate_eq_iff {d d' : CalendarDate} {type : RangeType} :
    ofDate d type = ofDate d' type ↔
      d'.date.year = d.date.year ∧ rangeOfYear d' type = rangeOfYear d type := by
  constructor
  · intro h
    rw [← ofDate_year d type, ← ofDate_year d' type, ← ofDate_range d type,
      ← ofDate_range d' type, h]
    exact ⟨rfl, rfl⟩
  · rintro ⟨hy, hr⟩
    apply value_injective
    simp only [ofDate, dateToRangeNumber_eq, hy, hr]

/-! ### Days of a year -/

theorem daysInMonth_pos (y m : Nat) : 1 ≤ daysInMonth y m := by
  rw [daysInMonth]
  repeat' split
  all_goals decide

theorem exists_ofValid {y month day : Nat} (hy : 1400 ≤ y) (hy' : y ≤ 9999) (hm : 1 ≤ month)
    (hm' : month ≤ 12) (hd : 1 ≤ day) (hd' : day ≤ daysInMonth y month) :
    ∃ c : CalendarDate, Date.ofValid y month day = some c.date ∧ c.date.year = y ∧
      c.date.month = month ∧ c.date.day = day := by
  have h31 := daysInMonth_le y month
  have hv := validate_of_bounds (by omega) (by omega) hm hm' hd (by omega) hd'
  have hmod := Nat.mod_eq_of_lt (show y < 2 ^ 16 by omega)
  refine ⟨⟨⟨y % 2 ^ 16, month, day, Nat.mod_lt _ (by decide), hm', by omega⟩, ?_⟩, ?_, hmod, rfl,
    rfl⟩
  · rw [Date.toBoostDate, if_pos]
    · rfl
    · simp only [hmod]
      exact ⟨hy, hy', hm, hd, hd'⟩
  · rw [Date.ofValid, dif_pos hv]

theorem toBoostDate_eq (c : CalendarDate) :
    c.date.toBoostDate = some (c.toDayNumber - dayNumber 1970 1 1) := by
  rw [Date.toBoostDate, if_pos c.bounds]
  rfl

theorem makeDate_toDayNumber (c : CalendarDate) :
    makeDate (c.toDayNumber - dayNumber 1970 1 1) = some c.date :=
  makeDate_eq_some_iff.mpr (toBoostDate_eq c)

theorem ofValid_date (c : CalendarDate) :
    Date.ofValid c.date.year c.date.month c.date.day = some c.date := by
  obtain ⟨hy, hy', hm, hd, hdays⟩ := c.bounds
  exact DateTime.ofValid_of_inCalendar (validate_of_bounds (by omega) (by omega) hm c.date.month_le hd
    c.date.day_le hdays)

/-- The dates of a year are in the order of their days. -/
theorem toDayNumber_le_iff {a b : CalendarDate} (hyear : a.date.year = b.date.year) :
    a.toDayNumber ≤ b.toDayNumber ↔ a.date.toNumber ≤ b.date.toNumber := by
  refine ⟨fun h => ?_, fun h => toDayNumber_mono hyear h⟩
  by_contra hlt
  obtain ⟨-, -, am, ad, adays⟩ := a.bounds
  obtain ⟨-, -, bm, bd, bdays⟩ := b.bounds
  have hle := toDayNumber_mono hyear.symm (show b.date.toNumber ≤ a.date.toNumber by omega)
  obtain ⟨-, hmonth, hday⟩ := dayNumber_inj am a.date.month_le ad adays bm b.date.month_le bd bdays
    (show a.toDayNumber = b.toDayNumber by omega)
  apply hlt
  rw [Date.toNumber, Date.toNumber, hyear, hmonth, hday]

/-- Dates between two of a year are of that year. -/
theorem year_eq_of_between {a b d : Date} (hyear : a.year = b.year)
    (h : a.toNumber ≤ d.toNumber) (h' : d.toNumber ≤ b.toNumber) : d.year = a.year := by
  have am := a.month_le
  have bm := b.month_le
  have dm := d.month_le
  have ad := a.day_le
  have bd := b.day_le
  have dd := d.day_le
  simp only [Date.toNumber] at h h'
  omega

theorem year_of_toDayNumber {c : CalendarDate} {y : Nat}
    (h : dayNumber y 1 1 ≤ c.toDayNumber) (h' : c.toDayNumber < dayNumber (y + 1) 1 1) :
    c.date.year = y := by
  obtain ⟨hbegin, hend⟩ := toDayNumber_bounds c
  by_contra hne
  obtain hlt | hlt := Nat.lt_or_gt_of_ne hne
  · have hyears := dayNumber_years (show c.date.year + 1 ≤ y from hlt)
    omega
  · have hyears := dayNumber_years (show y + 1 ≤ c.date.year from hlt)
    omega

/-- A date that is made of a day is the date of the day. -/
theorem exists_of_makeDate {days : Int} {date : Date} (h : makeDate days = some date) :
    ∃ c : CalendarDate, c.date = date ∧ c.toDayNumber = days + dayNumber 1970 1 1 := by
  have hboost := makeDate_eq_some_iff.mp h
  refine ⟨⟨date, by rw [hboost]; rfl⟩, rfl, ?_⟩
  exact (toBoostDate_eq_some_iff.mp hboost).2

/-- A day of the year has a date. -/
theorem exists_dayOfYear {y k : Nat} (hy : 1400 ≤ y) (hy' : y ≤ 9999)
    (hk : dayNumber y 1 1 + k < dayNumber (y + 1) 1 1) :
    ∃ c : CalendarDate, c.date.year = y ∧ c.toDayNumber = dayNumber y 1 1 + k := by
  have hfirst := dayNumber_years hy
  have hlast := dayNumber_years (show y + 1 ≤ 10000 by omega)
  have h10000 : dayNumber 9999 12 31 = dayNumber 10000 1 1 - 1 := by decide
  obtain ⟨date, hdate⟩ := Option.isSome_iff_exists.mp
    ((makeDate_isSome_iff (dayNumber y 1 1 + k - dayNumber 1970 1 1)).mpr
      (by simp only [firstDay, lastDay]; omega))
  obtain ⟨c, -, hnumber⟩ := exists_of_makeDate hdate
  rw [sub_add_cancel] at hnumber
  exact ⟨c, year_of_toDayNumber (by omega) (by omega), hnumber⟩

theorem boostDate_first {y m : Nat} (hy : 1400 ≤ y) (hy' : y ≤ 9999) (hm : 1 ≤ m)
    (hm' : m ≤ 12) : boostDate y m 1 = some (dayNumber y m 1 - dayNumber 1970 1 1) := by
  obtain ⟨c, hc, cy, cm, cd⟩ := exists_ofValid hy hy' hm hm' le_rfl (daysInMonth_pos y m)
  rw [boostDate, hc, Option.bind_some, toBoostDate_eq, CalendarDate.toDayNumber, cy, cm, cd]

theorem inYear_eq {c : CalendarDate} {gd : Int} (h : c.toDayNumber - dayNumber 1970 1 1 = gd) :
    inYear c.date.year gd = some c.date := by
  rw [inYear, ← h, makeDate_toDayNumber, Option.bind_eq_bind, Option.bind_some, ofValid_date]

/-- The date of a day of the year is found. -/
theorem dayOfRange_eq {c : CalendarDate} {y k : Nat} (hyear : c.date.year = y)
    (hk : c.toDayNumber = dayNumber y 1 1 + k) : dayOfRange y k = some c.date := by
  subst hyear
  obtain ⟨hy, hy', -⟩ := c.bounds
  rw [dayOfRange, boostDate_first hy hy' le_rfl (by decide), Option.bind_eq_bind,
    Option.bind_some, inYear_eq]
  rw [hk, add_sub_right_comm]

/-! ### Ranges of whole months and days -/

/-- The dates of the range are those between its first and its last day. -/
def Decoded (d : CalendarDate) (type : RangeType) : Prop :=
  ∃ first last, beginOf d.date.year (rangeOfYear d type) type = some first ∧
    endOf d.date.year (rangeOfYear d type) type = some last ∧
    ∀ d' : CalendarDate,
      (first.toNumber ≤ d'.date.toNumber ∧ d'.date.toNumber ≤ last.toNumber) ↔
        d'.date.year = d.date.year ∧ rangeOfYear d' type = rangeOfYear d type

/-- The dates between the first day of a month and the last day of a month of the same year. -/
theorem between_months {y m m' : Nat} (hy : 1400 ≤ y) (hy' : y ≤ 9999) (hm : 1 ≤ m)
    (hm' : m ≤ 12) (gm : 1 ≤ m') (gm' : m' ≤ 12) :
    ∃ first last, Date.ofValid y m 1 = some first ∧
      Date.ofValid y m' (daysInMonth y m') = some last ∧ ∀ d' : CalendarDate,
        (first.toNumber ≤ d'.date.toNumber ∧ d'.date.toNumber ≤ last.toNumber) ↔
          d'.date.year = y ∧ m ≤ d'.date.month ∧ d'.date.month ≤ m' := by
  obtain ⟨a, ha, ay, am, ad⟩ := exists_ofValid hy hy' hm hm' le_rfl (daysInMonth_pos y m)
  obtain ⟨b, hb, yb, bm, bd⟩ := exists_ofValid hy hy' gm gm' (daysInMonth_pos y m') le_rfl
  refine ⟨a.date, b.date, ha, hb, fun d' => ?_⟩
  obtain ⟨-, -, dm, dd, ddays⟩ := d'.bounds
  constructor
  · rintro ⟨hfirst, hlast⟩
    have hyear := year_eq_of_between (ay.trans yb.symm) hfirst hlast
    have h31 := d'.date.day_le
    have h31' := b.date.day_le
    simp only [Date.toNumber] at hfirst hlast
    omega
  · rintro ⟨hyear, hfirst, hlast⟩
    have h31 := d'.date.day_le
    simp only [Date.toNumber, ay, am, ad, yb, bm, bd, hyear]
    refine ⟨by omega, ?_⟩
    obtain h | h := Nat.eq_or_lt_of_le hlast
    · rw [hyear, h] at ddays
      omega
    · omega

theorem decoded_of_months {d : CalendarDate} {type : RangeType} (m m' : Nat) (hm : 1 ≤ m)
    (hm' : m ≤ 12) (gm : 1 ≤ m') (gm' : m' ≤ 12)
    (hbegin : beginOf d.date.year (rangeOfYear d type) type = Date.ofValid d.date.year m 1)
    (hend : endOf d.date.year (rangeOfYear d type) type =
      Date.ofValid d.date.year m' (daysInMonth d.date.year m'))
    (hrange : ∀ d' : CalendarDate, 1 ≤ d'.date.month → d'.date.month ≤ 12 →
      (m ≤ d'.date.month ∧ d'.date.month ≤ m' ↔ rangeOfYear d' type = rangeOfYear d type)) :
    Decoded d type := by
  obtain ⟨hy, hy', -⟩ := d.bounds
  obtain ⟨first, last, hfirst, hlast, hbetween⟩ := between_months hy hy' hm hm' gm gm'
  refine ⟨first, last, hbegin.trans hfirst, hend.trans hlast, fun d' => ?_⟩
  obtain ⟨-, -, dm, -⟩ := d'.bounds
  rw [hbetween d', hrange d' dm d'.date.month_le]

theorem daysInMonth_december (y : Nat) : daysInMonth y 12 = 31 := rfl

theorem daysInMonth_june (y : Nat) : daysInMonth y 6 = 30 := rfl

theorem decoded_year (d : CalendarDate) : Decoded d .year := by
  apply decoded_of_months 1 12 le_rfl (by decide) (by decide) le_rfl
  · rw [beginOf]
  · rw [endOf, daysInMonth_december]
  · intro d' h h'
    exact iff_of_true ⟨h, h'⟩ rfl

theorem decoded_halfYear (d : CalendarDate) : Decoded d .halfYear := by
  by_cases hm : 6 < d.date.month
  · have h2 : rangeOfYear d .halfYear = 2 := by rw [rangeOfYear, if_pos hm]
    apply decoded_of_months 7 12 (by decide) (by decide) (by decide) le_rfl
    · rw [beginOf, if_pos h2]
    · rw [endOf, if_pos h2, daysInMonth_december]
    · intro d' h h'
      rw [h2, rangeOfYear]
      split <;> omega
  · have h1 : rangeOfYear d .halfYear = 1 := by rw [rangeOfYear, if_neg hm]
    apply decoded_of_months 1 6 (by decide) (by decide) (by decide) (by decide)
    · rw [beginOf, if_neg (by omega)]
    · rw [endOf, if_neg (by omega), daysInMonth_june]
    · intro d' h h'
      rw [h1, rangeOfYear]
      split <;> omega

theorem rangeOfYear_quarter (d : CalendarDate) :
    rangeOfYear d .quarter = (d.date.month + 2) / 3 := by
  rw [rangeOfYear]
  split <;> omega

theorem decoded_quarter (d : CalendarDate) : Decoded d .quarter := by
  obtain ⟨-, -, hm, -⟩ := d.bounds
  have hm' := d.date.month_le
  have hrange := rangeOfYear_quarter d
  obtain ⟨q, hq, hq'⟩ : ∃ q, 1 ≤ q ∧ q ≤ 4 ∧ rangeOfYear d .quarter = q :=
    ⟨_, by omega, by omega, rfl⟩
  apply decoded_of_months (3 * q - 2) (3 * q) (by omega) (by omega) (by omega)
    (by omega)
  · rw [hq'.2]
    obtain ⟨hq', -⟩ := hq'
    interval_cases q <;> rfl
  · rw [hq'.2]
    obtain ⟨hq', -⟩ := hq'
    interval_cases q <;> rfl
  · intro d' h h'
    rw [rangeOfYear_quarter, hq'.2]
    omega

/-- The last day of a month is found from the first day of the next one. -/
theorem endOf_month {y m : Nat} (hy : 1400 ≤ y) (hy' : y ≤ 9999) (hm : 1 ≤ m) (hm' : m ≤ 12)
    (hlast : ¬ (y = 9999 ∧ m = 12)) :
    endOf y m .month = Date.ofValid y m (daysInMonth y m) := by
  obtain ⟨c, hc, rfl, rfl, hday⟩ := exists_ofValid hy hy' hm hm' (daysInMonth_pos y m) le_rfl
  rw [hc, endOf]
  have hnumber : c.toDayNumber = dayNumber c.date.year c.date.month 1 +
      daysInMonth c.date.year c.date.month - 1 := by
    rw [CalendarDate.toDayNumber, dayNumber_day, hday]
  split
  next h =>
    rw [boostDate_first (by omega) (by omega) le_rfl (by decide), Option.bind_eq_bind,
      Option.bind_some]
    apply inYear_eq
    have hyear := dayNumber_next_year c.date.year
    rw [hnumber, h, daysInMonth_december, hyear]
    ring
  next h =>
    rw [boostDate_first hy hy' (by omega) (by omega), Option.bind_eq_bind, Option.bind_some]
    apply inYear_eq
    rw [hnumber, dayNumber_next_month hm (by omega)]
    ring

theorem decoded_month {d : CalendarDate} (hlast : ¬ (d.date.year = 9999 ∧ d.date.month = 12)) :
    Decoded d .month := by
  obtain ⟨hy, hy', hm, -⟩ := d.bounds
  have hm' := d.date.month_le
  apply decoded_of_months d.date.month d.date.month hm hm' hm hm'
  · rw [beginOf, rangeOfYear, Nat.mod_eq_of_lt (by omega)]
  · exact endOf_month hy hy' hm hm' hlast
  · intro d' h h'
    rw [rangeOfYear, rangeOfYear]
    omega

theorem endOf_month_last : endOf 9999 12 .month = none := rfl

/-- Ranges of a day begin and end with the day. -/
theorem dayOfRange_dayOfYear (d : CalendarDate) :
    (if 1 < d.dayOfYear then dayOfRange d.date.year (d.dayOfYear - 1)
      else Date.ofValid d.date.year 1 1) = some d.date := by
  obtain ⟨hfirst, -⟩ := toDayNumber_bounds d
  split
  next h =>
    apply dayOfRange_eq rfl
    simp only [CalendarDate.dayOfYear] at h ⊢
    omega
  next h =>
    obtain ⟨-, -, hm, hd, hdays⟩ := d.bounds
    have hday : dayNumber d.date.year d.date.month d.date.day = dayNumber d.date.year 1 1 := by
      simp only [CalendarDate.dayOfYear, CalendarDate.toDayNumber] at h hfirst
      omega
    obtain ⟨-, hmonth, hday⟩ := dayNumber_inj hm d.date.month_le hd hdays le_rfl (by decide)
      le_rfl (daysInMonth_pos _ 1) hday
    have hdate := ofValid_date d
    rwa [hmonth, hday] at hdate

/-- Days of a year are counted from its first one. -/
theorem toDayNumber_eq (d : CalendarDate) :
    d.toDayNumber = dayNumber d.date.year 1 1 + d.dayOfYear - 1 := by
  obtain ⟨hfirst, -⟩ := toDayNumber_bounds d
  rw [CalendarDate.dayOfYear]
  omega

theorem dayOfYear_le_iff {a b : CalendarDate} (hyear : a.date.year = b.date.year) :
    a.dayOfYear ≤ b.dayOfYear ↔ a.date.toNumber ≤ b.date.toNumber := by
  rw [← toDayNumber_le_iff hyear, toDayNumber_eq a, toDayNumber_eq b, hyear]
  omega

theorem decoded_day (d : CalendarDate) : Decoded d .day := by
  have hdate := dayOfRange_dayOfYear d
  refine ⟨d.date, d.date, hdate, hdate, fun d' => ?_⟩
  rw [rangeOfYear, rangeOfYear]
  constructor
  · rintro ⟨h, h'⟩
    have hyear := year_eq_of_between rfl h h'
    exact ⟨hyear, le_antisymm ((dayOfYear_le_iff hyear).mpr h')
      ((dayOfYear_le_iff hyear.symm).mpr h)⟩
  · rintro ⟨hyear, h⟩
    exact ⟨(dayOfYear_le_iff hyear.symm).mp h.ge, (dayOfYear_le_iff hyear).mp h.le⟩

/-- **For all types but the week, the days of a range are the dates that get it.** -/
theorem between_iff {d : CalendarDate} {type : RangeType} (htype : type ≠ .week)
    (hlast : type = .month → ¬ (d.date.year = 9999 ∧ d.date.month = 12)) : Decoded d type := by
  cases type with
  | year => exact decoded_year d
  | halfYear => exact decoded_halfYear d
  | quarter => exact decoded_quarter d
  | month => exact decoded_month (hlast rfl)
  | week => exact absurd rfl htype
  | day => exact decoded_day d

/-! ### Weeks -/

/-- The dates that the decoder takes for those of a week: seven days counted from the first of
january, and all dates up to the first of july for the first week. -/
def InWeek (week : Nat) (d : CalendarDate) : Prop :=
  if week = 1 then d.date.toNumber ≤ d.date.year * 10000 + 701
  else (d.dayOfYear - 1) / 7 + 1 = week

instance (week : Nat) (d : CalendarDate) : Decidable (InWeek week d) :=
  inferInstanceAs (Decidable (ite _ _ _))

theorem dayOfYear_pos (d : CalendarDate) : 1 ≤ d.dayOfYear := by
  obtain ⟨hfirst, -⟩ := toDayNumber_bounds d
  rw [CalendarDate.dayOfYear]
  omega

/-- The first 365 days are in every year. -/
theorem exists_dayOfRange {y k : Nat} (hy : 1400 ≤ y) (hy' : y ≤ 9999) (hk : k < 365) :
    ∃ c : CalendarDate, c.date.year = y ∧ c.dayOfYear = k + 1 ∧ dayOfRange y k = some c.date := by
  have hyear := dayNumber_year y
  obtain ⟨c, rfl, hnumber⟩ := exists_dayOfYear hy hy' (k := k) (by omega)
  refine ⟨c, rfl, ?_, dayOfRange_eq rfl hnumber⟩
  rw [CalendarDate.dayOfYear]
  omega

theorem beginOf_week {y week : Nat} (hy : 1400 ≤ y) (hy' : y ≤ 9999) (hw : 1 ≤ week)
    (hw' : week ≤ 53) :
    ∃ c : CalendarDate, c.date.year = y ∧ c.dayOfYear = (week - 1) * 7 + 1 ∧
      beginOf y week .week = some c.date := by
  rw [beginOf]
  split
  next h => exact exists_dayOfRange hy hy' (by omega)
  next h =>
    obtain ⟨c, hc, rfl, hm, hd⟩ := exists_ofValid hy hy' le_rfl (by decide) le_rfl
      (daysInMonth_pos y 1)
    refine ⟨c, rfl, ?_, hc⟩
    rw [CalendarDate.dayOfYear, CalendarDate.toDayNumber, hm, hd]
    omega

theorem between_week {y week : Nat} (hy : 1400 ≤ y) (hy' : y ≤ 9999) (hw : 1 ≤ week)
    (hw' : week ≤ 52) :
    ∃ first last, beginOf y week .week = some first ∧ endOf y week .week = some last ∧
      ∀ d' : CalendarDate,
        (first.toNumber ≤ d'.date.toNumber ∧ d'.date.toNumber ≤ last.toNumber) ↔
          d'.date.year = y ∧ InWeek week d' := by
  obtain ⟨a, ha, aday, hbegin⟩ := beginOf_week hy hy' hw (by omega)
  obtain hone | hmore := Nat.eq_or_lt_of_le hw
  · obtain ⟨b, hb, yb, bm, bd⟩ := exists_ofValid hy hy' (show 1 ≤ 7 by decide) (by decide)
      le_rfl (daysInMonth_pos y 7)
    have hend : endOf y week .week = some b.date := by rw [endOf, if_neg (by omega), hb]
    refine ⟨a.date, b.date, hbegin, hend, fun d' => ?_⟩
    rw [InWeek, if_pos hone.symm]
    have hlast : b.date.toNumber = y * 10000 + 701 := by rw [Date.toNumber, yb, bm, bd]
    rw [hlast]
    constructor
    · rintro ⟨h, h'⟩
      have hyear := year_eq_of_between (ha.trans yb.symm) h (h'.trans hlast.ge)
      refine ⟨hyear.trans ha, ?_⟩
      rwa [hyear, ha]
    · rintro ⟨hyear, h⟩
      rw [hyear] at h
      refine ⟨(dayOfYear_le_iff (ha.trans hyear.symm)).mp ?_, h⟩
      have hpos := dayOfYear_pos d'
      omega
  · obtain ⟨b, yb, bday, hb⟩ := exists_dayOfRange hy hy' (k := (week - 1) * 7 + 6) (by omega)
    have hend : endOf y week .week = some b.date := by rw [endOf, if_pos hmore, hb]
    refine ⟨a.date, b.date, hbegin, hend, fun d' => ?_⟩
    rw [InWeek, if_neg hmore.ne']
    have hpos := dayOfYear_pos d'
    constructor
    · rintro ⟨h, h'⟩
      have hyear := year_eq_of_between (ha.trans yb.symm) h h'
      rw [← dayOfYear_le_iff hyear.symm, aday] at h
      rw [← dayOfYear_le_iff (hyear.trans (ha.trans yb.symm)), bday] at h'
      exact ⟨hyear.trans ha, by omega⟩
    · rintro ⟨hyear, h⟩
      exact ⟨(dayOfYear_le_iff (ha.trans hyear.symm)).mp (by omega),
        (dayOfYear_le_iff (hyear.trans yb.symm)).mp (by omega)⟩

/-- The days in front of february are those of january. -/
theorem month_of_dayOfYear {d : CalendarDate} : d.dayOfYear ≤ 31 ↔ d.date.month = 1 := by
  obtain ⟨-, -, hm, hd, hdays⟩ := d.bounds
  have h31 := d.date.day_le
  have hfebruary : dayNumber d.date.year 2 1 = dayNumber d.date.year 1 1 + 31 :=
    dayNumber_next_month le_rfl (by decide)
  have hnumber := dayNumber_day d.date.year d.date.month d.date.day
  rw [CalendarDate.dayOfYear, CalendarDate.toDayNumber]
  constructor
  · intro h
    by_contra hne
    have hmonth : dayNumber d.date.year 2 1 ≤ dayNumber d.date.year d.date.month 1 := by
      obtain h2 | h2 := Nat.eq_or_lt_of_le (show 2 ≤ d.date.month by omega)
      · rw [← h2]
      · have hmonths := dayNumber_months (y := d.date.year) (by decide) h2 d.date.month_le
        omega
    omega
  · intro h
    rw [h] at hnumber ⊢
    omega

/-- Week 53 ends in the next year, whose days are taken for days of the year itself. -/
theorem endOf_week_last {y : Nat} (hy : 1400 ≤ y) (hy' : y ≤ 9999) {first last : Date}
    (hfirst : beginOf y 53 .week = some first) (hlast : endOf y 53 .week = some last) :
    last.toNumber < first.toNumber := by
  obtain ⟨a, ha, aday, hbegin⟩ := beginOf_week hy hy' (show 1 ≤ 53 by decide) le_rfl
  obtain rfl : a.date = first := Option.some.inj (hbegin.symm.trans hfirst)
  have hyear := dayNumber_year y
  have hnext := dayNumber_year (y + 1)
  have hend : endOf y 53 .week =
      inYear y (dayNumber y 1 1 - dayNumber 1970 1 1 + (370 : Nat)) := by
    rw [endOf, if_pos (by decide), dayOfRange, boostDate_first hy hy' le_rfl (by decide),
      Option.bind_eq_bind, Option.bind_some]
  rw [hend, inYear, Option.bind_eq_bind, Option.bind_eq_some_iff] at hlast
  obtain ⟨date, hdate, hlast⟩ := hlast
  obtain ⟨c, rfl, hnumber⟩ := exists_of_makeDate hdate
  have hday : c.toDayNumber = dayNumber y 1 1 + 370 := by omega
  have cyear : c.date.year = y + 1 := year_of_toDayNumber (by omega) (by omega)
  have hmonth : c.date.month = 1 := by
    apply month_of_dayOfYear.mp
    rw [CalendarDate.dayOfYear, cyear]
    omega
  have amonth : a.date.month ≠ 1 := by
    intro h
    have hle := month_of_dayOfYear.mpr h
    omega
  obtain ⟨-, -, am, -⟩ := a.bounds
  obtain ⟨-, -, -, cd, cdays⟩ := c.bounds
  have c31 := c.date.day_le
  rw [hmonth] at hlast
  obtain ⟨b, hb, yb, bm, bd⟩ := exists_ofValid hy hy' le_rfl (show 1 ≤ 12 by decide) cd
    (show c.date.day ≤ daysInMonth y 1 from c31)
  obtain rfl : b.date = last := Option.some.inj (hb.symm.trans hlast)
  rw [Date.toNumber, Date.toNumber, yb, bm, bd, ha]
  omega

/-- Behind a date whose week is the one that the decoder takes it for, only the days of the first
week of the next year have a lower week. -/
theorem weekNumber_le_iff {d d' : CalendarDate} (hyear : d'.date.year = d.date.year)
    (hw : InWeek d.weekNumber d) (hmore : d.weekNumber ≠ 1)
    (h : d.date.toNumber ≤ d'.date.toNumber) :
    d.weekNumber ≤ d'.weekNumber ↔ d'.weekNumber ≠ 1 := by
  have hone := (weekNumber_bounds d).1
  refine ⟨fun hle => by omega, fun hne => ?_⟩
  have hdays := (toDayNumber_le_iff hyear.symm).mpr h
  obtain ⟨hfirst, hlast⟩ := toDayNumber_bounds d
  obtain ⟨gfirst, glast⟩ := toDayNumber_bounds d'
  have hy := dayNumber_year d.date.year
  rw [InWeek, if_neg hmore, CalendarDate.dayOfYear] at hw
  simp only [CalendarDate.weekNumber] at hw hmore hne ⊢
  rw [hyear] at hne gfirst glast ⊢
  generalize dayNumber (d.date.year - 1) 1 1 = before at *
  generalize dayNumber (d.date.year + 1) 1 1 = next at *
  generalize dayNumber d.date.year 1 1 = first at *
  split at hw
  next h1 => omega
  next h1 =>
    rw [if_neg h1] at hmore ⊢
    split at hw
    next h2 =>
      rw [if_pos h2] at hmore ⊢
      have h3 : ¬ d'.toDayNumber - d'.toDayNumber % 7 + 3 < first := by omega
      rw [if_neg h3] at hne ⊢
      split
      next h4 => omega
      next h4 =>
        rw [if_neg h4] at hne
        omega
    next h2 =>
      rw [if_neg h2] at hmore
      omega

/-! ### The partition -/

/-- Ranges of a type part the dates: the range of `d` contains it and begins not behind its end,
two dates have the same range when it contains both, and later dates have no lower range. -/
def Parted (type : RangeType) (d d' : Date) : Prop :=
  ∃ r r', dateToRange d type = some r ∧ dateToRange d' type = some r' ∧
    r.contains d = some true ∧
    (∃ first last, r.begin = some first ∧ r.end_ = some last ∧ first.toNumber ≤ last.toNumber) ∧
    (r = r' ↔ r.contains d = some true ∧ r.contains d' = some true) ∧
    (d.toNumber ≤ d'.toNumber → r ≤ r')

/-- Weeks part two dates: the week of the first one is the one that the decoder takes it for, the
second one is in that week only where the decoder takes it for the same week, and behind the
first week there are no days that belong to the first week of the next year. -/
def WeekParted (d d' : CalendarDate) : Prop :=
  d.weekNumber ≤ 52 ∧ InWeek d.weekNumber d ∧ (d'.date.year = d.date.year →
    (d'.weekNumber = d.weekNumber ↔ InWeek d.weekNumber d') ∧
    (d.weekNumber ≠ 1 → d.date.toNumber ≤ d'.date.toNumber → d'.weekNumber ≠ 1))

instance (d d' : CalendarDate) : Decidable (WeekParted d d') :=
  inferInstanceAs (Decidable (_ ∧ _))

theorem dateToRange_eq (d : CalendarDate) (type : RangeType) :
    dateToRange d.date type = some (ofDate d type) := by
  obtain ⟨-, -, hm, -⟩ := d.bounds
  have hvalid : d.date.isValid = true := by simp [Date.isValid, hm]
  rw [dateToRange, hvalid, dif_pos d.accepted]
  rfl

theorem contains_iff {r : DateRange} {first last : Date} (hbegin : r.begin = some first)
    (hend : r.end_ = some last) (dt : Date) : r.contains dt = some true ↔
      first.toNumber ≤ dt.toNumber ∧ dt.toNumber ≤ last.toNumber := by
  rw [contains, hbegin, hend]
  simp only [Option.bind_eq_bind, Option.bind_some, Option.pure_def]
  split
  next h => simp [h]
  next h => simp [h]

theorem parted_iff {d d' : CalendarDate} {type : RangeType} :
    Parted type d.date d'.date ↔
      (∃ first last, beginOf d.date.year (rangeOfYear d type) type = some first ∧
        endOf d.date.year (rangeOfYear d type) type = some last ∧
        (first.toNumber ≤ d.date.toNumber ∧ d.date.toNumber ≤ last.toNumber) ∧
        ((d'.date.year = d.date.year ∧ rangeOfYear d' type = rangeOfYear d type) ↔
          (first.toNumber ≤ d'.date.toNumber ∧ d'.date.toNumber ≤ last.toNumber))) ∧
      (d.date.toNumber ≤ d'.date.toNumber →
        dateToRangeNumber d type ≤ dateToRangeNumber d' type) := by
  constructor
  · rintro ⟨r, r', hr, hr', hcontains, ⟨first, last, hbegin, hend, hle⟩, hsame, hmono⟩
    obtain rfl : ofDate d type = r := Option.some.inj ((dateToRange_eq d type).symm.trans hr)
    obtain rfl : ofDate d' type = r' := Option.some.inj ((dateToRange_eq d' type).symm.trans hr')
    rw [contains_iff hbegin hend] at hcontains
    rw [contains_iff hbegin hend, contains_iff hbegin hend, and_iff_right hcontains,
      ofDate_eq_iff] at hsame
    rw [ofDate_begin] at hbegin
    rw [ofDate_end] at hend
    exact ⟨⟨first, last, hbegin, hend, hcontains, hsame⟩, hmono⟩
  · rintro ⟨⟨first, last, hbegin, hend, hcontains, hsame⟩, hmono⟩
    rw [← ofDate_begin] at hbegin
    rw [← ofDate_end] at hend
    refine ⟨_, _, dateToRange_eq d type, dateToRange_eq d' type,
      (contains_iff hbegin hend _).mpr hcontains,
      ⟨first, last, hbegin, hend, hcontains.1.trans hcontains.2⟩, ?_, hmono⟩
    rw [contains_iff hbegin hend, contains_iff hbegin hend, and_iff_right hcontains,
      ofDate_eq_iff]
    exact hsame

theorem parted_of_type (d d' : CalendarDate) {type : RangeType} (htype : type ≠ .week) :
    Parted type d.date d'.date ↔
      (type = .month → ¬ (d.date.year = 9999 ∧ d.date.month = 12)) := by
  constructor
  · rintro h rfl ⟨hy, hm⟩
    obtain ⟨⟨first, last, -, hend, -⟩, -⟩ := parted_iff.mp h
    rw [rangeOfYear, hy, hm, endOf_month_last] at hend
    cases hend
  · intro hlast
    obtain ⟨first, last, hbegin, hend, hbetween⟩ := between_iff htype hlast
    exact parted_iff.mpr ⟨⟨first, last, hbegin, hend, (hbetween d).mpr ⟨rfl, rfl⟩,
      (hbetween d').symm⟩, dateToRangeNumber_mono htype⟩

theorem week_number_le_iff {d d' : CalendarDate} (hyear : d'.date.year = d.date.year) :
    dateToRangeNumber d .week ≤ dateToRangeNumber d' .week ↔ d.weekNumber ≤ d'.weekNumber := by
  rw [dateToRangeNumber_eq, dateToRangeNumber_eq, hyear]
  simp only [rangeOfYear]
  omega

theorem number_le_of_year_lt {d d' : CalendarDate} {type : RangeType}
    (hyear : d.date.year < d'.date.year) :
    dateToRangeNumber d type ≤ dateToRangeNumber d' type := by
  have hrange := rangeOfYear_lt_all d type
  rw [dateToRangeNumber_eq, dateToRangeNumber_eq]
  omega

theorem year_le {d d' : CalendarDate} (h : d.date.toNumber ≤ d'.date.toNumber) :
    d.date.year ≤ d'.date.year := by
  have hm := d.date.month_le
  have hm' := d'.date.month_le
  have hd := d.date.day_le
  have hd' := d'.date.day_le
  simp only [Date.toNumber] at h
  omega

/-- A valid date has a range only where the calendar library knows it. -/
theorem accepted_of_dateToRange {d : Date} {type : RangeType} {r : DateRange}
    (hd : DateTime.InCalendar d) (h : dateToRange d type = some r) : d.toBoostDate.isSome := by
  have hvalid : d.isValid = true := by
    have hmonth : d.month ≠ 0 := by
      rintro h0
      rw [DateTime.InCalendar, Date.validate, h0] at hd
      simp at hd
    simp only [Date.isValid, Bool.or_eq_true, decide_eq_true_eq]
    omega
  by_contra hnot
  rw [dateToRange, hvalid, dif_neg hnot] at h
  cases h

theorem parted_week (d d' : CalendarDate) :
    Parted .week d.date d'.date ↔ WeekParted d d' := by
  obtain ⟨hy, hy', -⟩ := d.bounds
  obtain ⟨hw, hw'⟩ := weekNumber_bounds d
  rw [parted_iff, WeekParted]
  simp only [rangeOfYear]
  by_cases h53 : d.weekNumber = 53
  · refine iff_of_false ?_ (fun h => by omega)
    rintro ⟨⟨first, last, hbegin, hend, hcontains, -⟩, -⟩
    rw [h53] at hbegin hend
    have hlt := endOf_week_last hy hy' hbegin hend
    omega
  have h52 : d.weekNumber ≤ 52 := by omega
  obtain ⟨first, last, hbegin, hend, hbetween⟩ := between_week hy hy' hw h52
  constructor
  · rintro ⟨⟨a, b, ha, hb, hcontains, hsame⟩, hmono⟩
    obtain rfl : first = a := Option.some.inj (hbegin.symm.trans ha)
    obtain rfl : last = b := Option.some.inj (hend.symm.trans hb)
    have hin := ((hbetween d).mp hcontains).2
    rw [hbetween d'] at hsame
    refine ⟨h52, hin, fun hyear => ⟨?_, fun hne h => ?_⟩⟩
    · rwa [and_iff_right hyear, and_iff_right hyear] at hsame
    · exact (weekNumber_le_iff hyear hin hne h).mp ((week_number_le_iff hyear).mp (hmono h))
  · rintro ⟨-, hin, hother⟩
    refine ⟨⟨first, last, hbegin, hend, (hbetween d).mpr ⟨rfl, hin⟩, ?_⟩, fun h => ?_⟩
    · rw [hbetween d']
      exact and_congr_right fun hyear => (hother hyear).1
    · obtain hyear | hyear := Nat.eq_or_lt_of_le (year_le h)
      · rw [week_number_le_iff hyear.symm]
        by_cases hne : d.weekNumber = 1
        · rw [hne]
          exact (weekNumber_bounds d').1
        · exact (weekNumber_le_iff hyear.symm hin hne h).mpr ((hother hyear.symm).2 hne h)
      · exact number_le_of_year_lt hyear

/-- **Which ranges part the dates**: the dates are in the calendar, the month is not the last one
of the calendar, and the weeks agree with the blocks of seven days of the year. -/
theorem range_partitions_iff {type : RangeType} {d d' : Date} (hd : DateTime.InCalendar d)
    (hd' : DateTime.InCalendar d') :
    Parted type d d' ↔ ∃ (h : d.toBoostDate.isSome) (h' : d'.toBoostDate.isSome),
      (type = .month → ¬ (d.year = 9999 ∧ d.month = 12)) ∧
      (type = .week → WeekParted ⟨d, h⟩ ⟨d', h'⟩) := by
  constructor
  · intro hparted
    have haccepted : d.toBoostDate.isSome ∧ d'.toBoostDate.isSome := by
      obtain ⟨r, r', hr, hr', -⟩ := hparted
      exact ⟨accepted_of_dateToRange hd hr, accepted_of_dateToRange hd' hr'⟩
    refine ⟨haccepted.1, haccepted.2, ?_, ?_⟩
    · rintro rfl
      exact (parted_of_type ⟨d, haccepted.1⟩ ⟨d', haccepted.2⟩ (by decide)).mp
        hparted rfl
    · rintro rfl
      exact (parted_week ⟨d, haccepted.1⟩ ⟨d', haccepted.2⟩).mp hparted
  · rintro ⟨h, h', hmonth, hweek⟩
    by_cases htype : type = .week
    · subst htype
      exact (parted_week ⟨d, h⟩ ⟨d', h'⟩).mpr (hweek rfl)
    · exact (parted_of_type ⟨d, h⟩ ⟨d', h'⟩ htype).mpr hmonth

/-- The first two mondays of 2024, which begins with a monday. -/
theorem range_partitions_sample :
    Parted .week ⟨2024, 1, 8, by decide, by decide, by decide⟩
      ⟨2024, 1, 15, by decide, by decide, by decide⟩ :=
  (range_partitions_iff (by decide) (by decide)).mpr ⟨by decide, by decide, by decide, by decide⟩

/-- The monday of the second week of 2025 is in front of the range of its week, which begins
seven days behind the first of january, a wednesday. -/
theorem second_week_begins_late :
    ¬ ∀ (type : RangeType) (d d' : Date), DateTime.InCalendar d → DateTime.InCalendar d' →
      Parted type d d' := by
  intro h
  have hparted := h .week ⟨2025, 1, 6, by decide, by decide, by decide⟩
    ⟨2025, 1, 6, by decide, by decide, by decide⟩ (by decide) (by decide)
  obtain ⟨r, -, hr, -, hcontains, -⟩ := hparted
  have hrange : dateToRange ⟨2025, 1, 6, by decide, by decide, by decide⟩ .week =
      some ⟨42025002, by decide⟩ := by decide
  obtain rfl := Option.some.inj (hrange.symm.trans hr)
  have hnot : contains ⟨42025002, by decide⟩ ⟨2025, 1, 6, by decide, by decide, by decide⟩ =
      some false := by decide
  rw [hnot] at hcontains
  cases hcontains

end DateRange

end Hatn.Common
