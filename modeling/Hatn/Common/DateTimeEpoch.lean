import Hatn.Common.Calendar
import Hatn.Common.TimeArithmetic

/-!
# Dates with times and the epoch

A date with a time is made of the milliseconds since 1970 by `fromEpochMs`, gives them back by
`toEpochMs`, and is moved by `toTimezone` and the operations that add to it.  All of them go
through a moment of the calendar library and end in a constructor that throws for what is not
valid, and midnight is the null time.

What each of them makes is said by `localMs`, the exact milliseconds of the own clock:
`fromEpochMs_eq_some_iff` and `makeDateTime_eq_some_iff` say which local times come out, and
`toEpochMs_eq` that the whole seconds are rounded towards zero on the way back, which is a
second too much in front of 1970.
-/

namespace Hatn.Common

/-! ### Moments of the calendar library

A moment (`ptime`) is a number of microseconds since 1970.
-/

/-- The constructor from the hours, minutes and seconds of a time of the day, given in
microseconds, and from milliseconds. -/
def Time.ofTimeOfDay (us ms : Int) : Option Time :=
  ofNumbers (us / 3600000000) (us / 60000000 % 60) (us / 1000000 % 60) ms

/-- `makeTime` -/
def makeTime (pt : Int) : Option Time :=
  let dt := pt % 86400000000
  Time.ofTimeOfDay dt (dt / 1000 - dt / 1000000 * 1000)

namespace DateTime

/-- The constructor, which throws for what is not valid. -/
def ofParts (date : Date) (time : Time) (tz : Int) : Option DateTime :=
  if Date.validate date.year date.month date.day &&
      Time.validate time.hour time.minute time.second time.millisecond && isTimezoneValid tz then
    some ⟨date, time, tz⟩
  else none

def makeDateTime (pt tz : Int) : Option DateTime := do
  let date ← makeDate (pt / 86400000000)
  let time ← makeTime pt
  ofParts date time tz

def toBoostPtime (d : DateTime) : Option Int := do
  let days ← d.date.toBoostDate
  return days * 86400000000 +
    ((d.time.hour * 3600 + d.time.minute * 60 + d.time.second) * 1000000 + d.time.millisecond * 1000)

def fromEpochMs (value tz : Int) : Option DateTime := do
  let seconds := value.tdiv 1000 + tz * 60
  let ms := value.tmod 1000
  let date ← makeDate (seconds / 86400)
  let time ← Time.ofTimeOfDay (seconds % 86400 * 1000000) ms
  ofParts date time tz

def toTimezone (d : DateTime) (tz : Int) : Option DateTime := do
  if !isTimezoneValid tz then none
  if tz = d.tz then return d
  let diff := tz * 60 - d.tz * 60
  let t ← d.toTimeT
  let dt ← fromEpochMs (t * 1000 + d.time.millisecond + diff * 1000) 0
  return { dt with tz := tz }

/-- Adding a duration in microseconds; the null date with time is asserted not to come. -/
def addDuration (d : DateTime) (us : Int) : Option DateTime := do
  if !d.isValid then none
  let pt ← d.toBoostPtime
  makeDateTime (pt + us) d.tz

def addHours (d : DateTime) (value : Int) : Option DateTime :=
  d.addDuration (value * 3600 * 1000000)

def addMinutes (d : DateTime) (value : Int) : Option DateTime :=
  d.addDuration (value * 60 * 1000000)

def addSeconds (d : DateTime) (value : Int) : Option DateTime :=
  d.addDuration (value * 1000000)

/-- `addMilliseconds`: the microseconds are a product of two `int`. -/
def addMilliseconds (d : DateTime) (value : Int) : Option DateTime :=
  d.addDuration (toInt (1000 * value))

/-- `addDays`: the date alone is moved. -/
def addDays (d : DateTime) (value : Int) : Option DateTime := do
  if !d.date.isValid then none
  let days ← d.date.toBoostDate
  let date ← makeDate (days + value)
  return { d with date := date }

/-! ### The local time -/

/-- The milliseconds of the own clock, without the timezone. -/
def localMs (d : DateTime) : Option Int :=
  d.date.toBoostDate.map fun days => days * 86400000 + d.time.msOfDay

theorem localMs_eq_some_iff {d : DateTime} {n : Int} : d.localMs = some n ↔
    d.date.toBoostDate = some (n / 86400000) ∧ (d.time.msOfDay : Int) = n % 86400000 := by
  have hlt := d.time.msOfDay_lt
  rw [localMs, Option.map_eq_some_iff]
  constructor
  · rintro ⟨days, hdays, h⟩
    have hd : n / 86400000 = days := by omega
    rw [hd]
    exact ⟨hdays, by omega⟩
  · rintro ⟨hdays, h⟩
    exact ⟨_, hdays, by omega⟩

theorem toBoostPtime_eq (d : DateTime) : d.toBoostPtime = d.localMs.map fun n => n * 1000 := by
  rw [toBoostPtime, localMs]
  cases d.date.toBoostDate with
  | none => rfl
  | some days =>
    simp only [Option.bind_eq_bind, Option.bind_some, Option.pure_def, Option.map_some,
      Option.some.injEq, Time.msOfDay]
    push_cast
    ring

/-- What the whole seconds make of a local time: they are rounded towards zero. -/
def rounded (n : Int) : Int := if n < 0 ∧ n % 1000 ≠ 0 then n + 1000 else n

theorem toTimeT_eq (d : DateTime) : (d.toTimeT.map fun t => t * 1000 + (d.time.millisecond : Int)) =
    d.localMs.map rounded := by
  rw [toTimeT, localMs]
  cases d.date.toBoostDate with
  | none => rfl
  | some days =>
    have hms := d.time.millisecond_lt
    simp only [Option.bind_eq_bind, Option.bind_some, Option.pure_def, Option.map_some,
      Option.some.injEq, Time.msOfDay, rounded]
    push_cast
    generalize hs : (days * 86400 + d.time.hour * 3600 + d.time.minute * 60 + d.time.second : Int) = s
    have hb := tdiv_tmod_bounds (s * 1000000 + d.time.millisecond * 1000)
      (show (0 : Int) < 1000000 by decide)
    split <;> omega

/-! ### Times that are made -/

theorem time_validate_eq (t : Time) :
    Time.validate t.hour t.minute t.second t.millisecond = t.isValid := by
  have hh := t.hour_lt
  have hm := t.minute_lt
  have hs := t.second_lt
  have hu := t.millisecond_lt
  rw [Bool.eq_iff_iff]
  simp only [Time.validate, Time.isValid, Bool.and_eq_true, Bool.not_eq_true',
    Bool.or_eq_false_iff, Bool.and_eq_false_iff, Bool.or_eq_true, decide_eq_false_iff_not,
    decide_eq_true_eq, beq_eq_false_iff_ne]
  omega

theorem time_isValid_iff (t : Time) : t.isValid = true ↔ t.msOfDay ≠ 0 := by
  simp only [Time.isValid, Time.msOfDay, Bool.or_eq_true, decide_eq_true_eq]
  omega

/-- **The time of a time of the day**, unless that is midnight. -/
theorem ofTimeOfDay_eq_some_iff {us ms : Int} (hus : 0 ≤ us) (hus' : us < 86400000000)
    (hms : 0 ≤ ms) (hms' : ms < 1000) {t : Time} : Time.ofTimeOfDay us ms = some t ↔
      t.isValid = true ∧ (t.msOfDay : Int) = us / 1000000 * 1000 + ms := by
  obtain ⟨u, hh, hm, hs, hu⟩ : ∃ u : Time, (u.hour : Int) = us / 3600000000 ∧
      (u.minute : Int) = us / 60000000 % 60 ∧ (u.second : Int) = us / 1000000 % 60 ∧
      (u.millisecond : Int) = ms :=
    ⟨⟨(us / 3600000000).toNat, (us / 60000000 % 60).toNat, (us / 1000000 % 60).toNat, ms.toNat,
      by omega, by omega, by omega, by omega⟩, by simp only; omega, by simp only; omega,
      by simp only; omega, by simp only; omega⟩
  have hday : (u.msOfDay : Int) = us / 1000000 * 1000 + ms := by
    simp only [Time.msOfDay]
    omega
  rw [Time.ofTimeOfDay, ← hh, ← hm, ← hs, ← hu]
  constructor
  · intro h
    by_cases hv : Time.validate u.hour u.minute u.second u.millisecond = true
    · rw [ofNumbers_eq hv, Option.some.injEq] at h
      subst h
      rw [← time_validate_eq]
      exact ⟨hv, by omega⟩
    · exfalso
      have hcast : ∀ n : Nat, n < 2 ^ 8 → ((n : Int) % 2 ^ 8).toNat = n := by omega
      have hcast' : ((u.millisecond : Int) % 2 ^ 16).toNat = u.millisecond := by
        have := u.millisecond_lt
        omega
      have h24 := u.hour_lt
      have h60 := u.minute_lt
      have h60' := u.second_lt
      rw [Time.ofNumbers, hcast _ (by omega), hcast _ (by omega), hcast _ (by omega), hcast'] at h
      simp only [hv] at h
      cases h
  · rintro ⟨hv, h⟩
    have heq : t = u := Time.msOfDay_inj (by omega)
    rw [heq, ← time_validate_eq] at hv
    rw [heq]
    exact ofNumbers_eq hv

/-- Milliseconds behind zero are cast to more than there are in a second. -/
theorem ofTimeOfDay_of_neg {us ms : Int} (hms : -1000 < ms) (hms' : ms < 0) :
    Time.ofTimeOfDay us ms = none := by
  have hcast : (ms % 2 ^ 16).toNat ≥ 1000 := by omega
  rw [Time.ofTimeOfDay, Time.ofNumbers, if_neg]
  simp only [Time.validate, Bool.and_eq_true, Bool.not_eq_true', Bool.or_eq_false_iff,
    decide_eq_false_iff_not]
  omega

/-! ### Dates with times that are made -/

theorem date_validate_of_toBoostDate {d : Date} {days : Int} (h : d.toBoostDate = some days) :
    Date.validate d.year d.month d.day = true := by
  obtain ⟨⟨hy, hy', hm, hd, hd'⟩, -⟩ := toBoostDate_eq_some_iff.mp h
  exact validate_of_bounds (by omega) d.year_lt hm d.month_le hd d.day_le hd'

theorem date_isValid_of_toBoostDate {d : Date} {days : Int} (h : d.toBoostDate = some days) :
    d.isValid = true := by
  obtain ⟨⟨-, -, hm, -, -⟩, -⟩ := toBoostDate_eq_some_iff.mp h
  simp only [Date.isValid, Bool.or_eq_true, decide_eq_true_eq]
  omega

/-- **A date with a time is made of a day, a time of the day and a timezone** if and only if it
shows them, and they are not midnight. -/
theorem ofLocal_eq_some_iff (days us ms tz : Int) (hus : 0 ≤ us) (hus' : us < 86400000000)
    (hms : 0 ≤ ms) (hms' : ms < 1000) {r : DateTime} :
    ((makeDate days).bind fun date => (Time.ofTimeOfDay us ms).bind fun time =>
        ofParts date time tz) = some r ↔
      isTimezoneValid tz = true ∧ r.tz = tz ∧ r.time.isValid = true ∧
        r.localMs = some (days * 86400000 + us / 1000000 * 1000 + ms) := by
  have hparts : ∀ n, n = days * 86400000 + us / 1000000 * 1000 + ms →
      n / 86400000 = days ∧ n % 86400000 = us / 1000000 * 1000 + ms := by omega
  obtain ⟨hdiv, hmod⟩ := hparts _ rfl
  rw [localMs_eq_some_iff, hdiv, hmod]
  constructor
  · intro h
    obtain ⟨date, hdate, h⟩ := Option.bind_eq_some_iff.mp h
    obtain ⟨time, htime, h⟩ := Option.bind_eq_some_iff.mp h
    obtain ⟨htv, hday⟩ := (ofTimeOfDay_eq_some_iff hus hus' hms hms').mp htime
    rw [ofParts] at h
    split at h
    next hv =>
      rw [Bool.and_eq_true, Bool.and_eq_true] at hv
      rw [Option.some.injEq] at h
      subst h
      exact ⟨hv.2, rfl, htv, makeDate_eq_some_iff.mp hdate, hday⟩
    next => cases h
  · rintro ⟨htz, rfl, htv, hdate, hday⟩
    rw [makeDate_eq_some_iff.mpr hdate, Option.bind_some,
      (ofTimeOfDay_eq_some_iff hus hus' hms hms').mpr ⟨htv, hday⟩, Option.bind_some, ofParts,
      date_validate_of_toBoostDate hdate, time_validate_eq, htv, htz]
    rfl

theorem makeDateTime_eq_some_iff {pt tz : Int} {r : DateTime} : makeDateTime pt tz = some r ↔
    isTimezoneValid tz = true ∧ r.tz = tz ∧ r.time.isValid = true ∧
      r.localMs = some (pt / 1000) := by
  have h := ofLocal_eq_some_iff (r := r) (pt / 86400000000) (pt % 86400000000)
    (pt % 86400000000 / 1000 - pt % 86400000000 / 1000000 * 1000) tz (by omega) (by omega) (by omega) (by omega)
  have hsum : pt / 86400000000 * 86400000 + pt % 86400000000 / 1000000 * 1000 +
      (pt % 86400000000 / 1000 - pt % 86400000000 / 1000000 * 1000) = pt / 1000 := by omega
  rw [hsum] at h
  exact h

/-- **What is made of milliseconds since 1970**: a number in front of it has no milliseconds. -/
theorem fromEpochMs_eq_some_iff {v tz : Int} {r : DateTime} : fromEpochMs v tz = some r ↔
    (0 ≤ v ∨ v % 1000 = 0) ∧ isTimezoneValid tz = true ∧ r.tz = tz ∧ r.time.isValid = true ∧
      r.localMs = some (v + tz * 60000) := by
  have hb := tdiv_tmod_bounds v (show (0 : Int) < 1000 by decide)
  by_cases hv : 0 ≤ v ∨ v % 1000 = 0
  · have hms : 0 ≤ v.tmod 1000 := by omega
    have h := ofLocal_eq_some_iff (r := r) ((v.tdiv 1000 + tz * 60) / 86400)
      ((v.tdiv 1000 + tz * 60) % 86400 * 1000000) (v.tmod 1000) tz (by omega) (by omega) hms
      (by omega)
    have hsum : (v.tdiv 1000 + tz * 60) / 86400 * 86400000 +
        (v.tdiv 1000 + tz * 60) % 86400 * 1000000 / 1000000 * 1000 + v.tmod 1000 =
          v + tz * 60000 := by omega
    rw [hsum] at h
    exact h.trans (by simp only [hv, true_and])
  · have hms : v.tmod 1000 < 0 := by omega
    have hnone : fromEpochMs v tz = none := by
      rw [fromEpochMs]
      simp only [ofTimeOfDay_of_neg (show -1000 < v.tmod 1000 by omega) hms, Option.bind_eq_bind,
        Option.bind_none, Option.bind_fun_none]
    rw [hnone]
    exact ⟨fun h => absurd h (Option.some_ne_none r).symm, fun h => absurd h.1 hv⟩

/-! ### What can be made -/

/-- A local time that can be shown: the calendar library knows its day, and it is not midnight. -/
def Shown (n : Int) : Prop :=
  (firstDay ≤ n / 86400000 ∧ n / 86400000 ≤ lastDay) ∧ n % 86400000 ≠ 0

/-- **There is a date with a time for a local time** if and only if that can be shown. -/
theorem exists_localMs_iff (n tz : Int) :
    (∃ r : DateTime, r.tz = tz ∧ r.time.isValid = true ∧ r.localMs = some n) ↔ Shown n := by
  constructor
  · rintro ⟨r, -, hv, h⟩
    obtain ⟨hdate, hday⟩ := localMs_eq_some_iff.mp h
    have hnull := (time_isValid_iff r.time).mp hv
    refine ⟨(makeDate_isSome_iff _).mp ?_, by omega⟩
    rw [makeDate_eq_some_iff.mpr hdate]
    rfl
  · rintro ⟨hdays, hnull⟩
    obtain ⟨date, hdate⟩ := Option.isSome_iff_exists.mp ((makeDate_isSome_iff _).mpr hdays)
    obtain ⟨time, htv, hday⟩ : ∃ time : Time, time.isValid = true ∧
        (time.msOfDay : Int) = n % 86400000 := by
      have hex : ∃ time : Time, (time.msOfDay : Int) = n % 86400000 :=
        ⟨⟨(n % 86400000 / 3600000).toNat, (n % 86400000 / 60000 % 60).toNat,
          (n % 86400000 / 1000 % 60).toNat, (n % 1000).toNat, by omega, by omega, by omega,
          by omega⟩, by simp only [Time.msOfDay]; omega⟩
      obtain ⟨time, htime⟩ := hex
      exact ⟨time, (time_isValid_iff time).mpr (by omega), htime⟩
    exact ⟨⟨date, time, tz⟩, rfl, htv,
      localMs_eq_some_iff.mpr ⟨makeDate_eq_some_iff.mp hdate, hday⟩⟩

theorem isValid_of_localMs {r : DateTime} {n : Int} (htz : isTimezoneValid r.tz = true)
    (htv : r.time.isValid = true) (h : r.localMs = some n) : r.isValid = true := by
  rw [isValid, date_isValid_of_toBoostDate (localMs_eq_some_iff.mp h).1, htv, htz]
  rfl

theorem isValid_parts {d : DateTime} (h : d.isValid = true) :
    d.date.isValid = true ∧ d.time.isValid = true ∧ isTimezoneValid d.tz = true := by
  rw [isValid, Bool.and_eq_true, Bool.and_eq_true] at h
  exact ⟨h.1.1, h.1.2, h.2⟩

/-- **The milliseconds since 1970** of a valid date with a time. -/
theorem toEpochMs_eq {d : DateTime} (h : d.isValid = true) :
    d.toEpochMs = d.localMs.map fun n => rounded n - d.tz * 60000 := by
  have ht := toTimeT_eq d
  rw [toEpochMs, h]
  cases hn : d.localMs with
  | none =>
    rw [hn, Option.map_none, Option.map_eq_none_iff] at ht
    rw [ht]
    rfl
  | some n =>
    rw [hn, Option.map_some, Option.map_eq_some_iff] at ht
    obtain ⟨t, ht, hsum⟩ := ht
    rw [ht]
    simp only [Bool.not_true, Bool.false_eq_true, if_false, Option.bind_eq_bind, Option.bind_some,
      Option.pure_def, Option.map_some, Option.some.injEq]
    omega

/-! ### From the epoch and back -/

theorem rounded_of {n : Int} (h : n % 1000 = 0 ∨ 0 ≤ n) : rounded n = n := by
  rw [rounded, if_neg (by omega)]

/-- Milliseconds since 1970 are made a date with a time that gives them back. -/
theorem fromEpochMs_round_trip_iff {v tz : Int} (htz : isTimezoneValid tz = true) :
    (∃ r, fromEpochMs v tz = some r ∧ r.toEpochMs = some v ∧ r.tz = tz) ↔
      Shown (v + tz * 60000) ∧ (v % 1000 = 0 ∨ 0 ≤ v ∧ 0 ≤ v + tz * 60000) := by
  constructor
  · rintro ⟨r, hr, hback, -⟩
    obtain ⟨hsign, -, hrtz, htv, hlocal⟩ := fromEpochMs_eq_some_iff.mp hr
    have hvalid := isValid_of_localMs (hrtz ▸ htz) htv hlocal
    rw [toEpochMs_eq hvalid, hlocal, Option.map_some, Option.some.injEq, hrtz, rounded] at hback
    refine ⟨(exists_localMs_iff _ tz).mp ⟨r, hrtz, htv, hlocal⟩, ?_⟩
    split at hback <;> omega
  · rintro ⟨hshown, hsign⟩
    obtain ⟨r, hrtz, htv, hlocal⟩ := (exists_localMs_iff _ tz).mpr hshown
    have hvalid := isValid_of_localMs (hrtz ▸ htz) htv hlocal
    refine ⟨r, fromEpochMs_eq_some_iff.mpr ⟨by omega, htz, hrtz, htv, hlocal⟩, ?_, hrtz⟩
    rw [toEpochMs_eq hvalid, hlocal, Option.map_some, hrtz, rounded_of (by omega)]
    exact congrArg some (by omega)

/-! ### Another timezone -/

/-- What `toTimezone` makes: the rounded local time, moved by the difference. -/
theorem toTimezone_eq_some_iff {d : DateTime} {tz : Int} (htz : isTimezoneValid tz = true)
    (hne : tz ≠ d.tz) {r : DateTime} : d.toTimezone tz = some r ↔
      ∃ n, d.localMs = some n ∧
        (0 ≤ rounded n + (tz - d.tz) * 60000 ∨ (rounded n + (tz - d.tz) * 60000) % 1000 = 0) ∧
        r.tz = tz ∧ r.time.isValid = true ∧
        r.localMs = some (rounded n + (tz - d.tz) * 60000) := by
  have ht := toTimeT_eq d
  rw [toTimezone]
  simp only [htz, Bool.not_true, Bool.false_eq_true, if_false, if_neg hne, Option.bind_eq_bind,
    Option.pure_def]
  cases hn : d.localMs with
  | none =>
    rw [hn, Option.map_none, Option.map_eq_none_iff] at ht
    rw [ht]
    simp
  | some n =>
    rw [hn, Option.map_some, Option.map_eq_some_iff] at ht
    obtain ⟨t, ht, hsum⟩ := ht
    have hvalue : t * 1000 + (d.time.millisecond : Int) + (tz * 60 - d.tz * 60) * 1000 =
        rounded n + (tz - d.tz) * 60000 := by omega
    rw [ht, Option.bind_some, hvalue, Option.bind_eq_some_iff]
    constructor
    · rintro ⟨dt, hdt, hr⟩
      obtain ⟨hsign, -, -, htv, hlocal⟩ := fromEpochMs_eq_some_iff.mp hdt
      rw [Option.some.injEq] at hr
      subst hr
      rw [Int.zero_mul, Int.add_zero] at hlocal
      exact ⟨n, rfl, hsign, rfl, htv, hlocal⟩
    · rintro ⟨n', hn', hsign, hrtz, htv, hlocal⟩
      obtain rfl : n = n' := Option.some.inj hn'
      refine ⟨{ r with tz := 0 }, fromEpochMs_eq_some_iff.mpr ⟨hsign, by decide, rfl, htv, ?_⟩, ?_⟩
      · rw [Int.zero_mul, Int.add_zero]
        exact hlocal
      · rw [← hrtz]

theorem toTimezone_self (d : DateTime) (htz : isTimezoneValid d.tz = true) :
    d.toTimezone d.tz = some d := by
  rw [toTimezone]
  simp only [htz, Bool.not_true, Bool.false_eq_true, if_false, if_true]
  rfl

/-- A date with a time is the same moment in another timezone. -/
theorem toTimezone_same_iff {d : DateTime} {tz : Int} (hd : d.isValid = true)
    (htz : isTimezoneValid tz = true) :
    (∃ r t, d.toTimezone tz = some r ∧ r.tz = tz ∧ d.toEpochMs = some t ∧
        r.toEpochMs = some t) ↔
      ∃ n, d.localMs = some n ∧ (tz = d.tz ∨ Shown (rounded n + (tz - d.tz) * 60000) ∧
        (n % 1000 = 0 ∨ 0 ≤ rounded n + (tz - d.tz) * 60000)) := by
  have hmod : ∀ n : Int, (rounded n + (tz - d.tz) * 60000) % 1000 = n % 1000 := by
    intro n
    rw [rounded]
    split <;> omega
  by_cases hne : tz = d.tz
  · subst hne
    rw [toEpochMs_eq hd, toTimezone_self d htz]
    constructor
    · rintro ⟨r, t, -, -, ht, -⟩
      obtain ⟨n, hn, -⟩ := Option.map_eq_some_iff.mp ht
      exact ⟨n, hn, .inl rfl⟩
    · rintro ⟨n, hn, -⟩
      refine ⟨d, rounded n - d.tz * 60000, rfl, rfl, ?_, ?_⟩
      · rw [hn, Option.map_some]
      · rw [toEpochMs_eq hd, hn, Option.map_some]
  · constructor
    · rintro ⟨r, t, hr, -, -, -⟩
      obtain ⟨n, hn, hsign, hrtz, htv, hlocal⟩ := (toTimezone_eq_some_iff htz hne).mp hr
      have hm := hmod n
      exact ⟨n, hn, .inr ⟨(exists_localMs_iff _ tz).mp ⟨r, hrtz, htv, hlocal⟩, by omega⟩⟩
    · rintro ⟨n, hn, h⟩
      obtain ⟨hshown, hsign⟩ := h.resolve_left hne
      have hm := hmod n
      obtain ⟨r, hrtz, htv, hlocal⟩ := (exists_localMs_iff _ tz).mpr hshown
      have hvalid := isValid_of_localMs (hrtz ▸ htz) htv hlocal
      refine ⟨r, rounded n - d.tz * 60000, (toTimezone_eq_some_iff htz hne).mpr
        ⟨n, hn, by omega, hrtz, htv, hlocal⟩, hrtz, ?_, ?_⟩
      · rw [toEpochMs_eq hd, hn, Option.map_some]
      · rw [toEpochMs_eq hvalid, hlocal, Option.map_some, hrtz, rounded_of (by omega)]
        exact congrArg some (by ring)

/-! ### Adding -/

/-- The units that are added to a date with a time. -/
inductive SpanUnit
  | days
  | clock (unit : Time.ClockUnit)
  deriving DecidableEq, Repr

def SpanUnit.ms : SpanUnit → Int
  | days => 86400000
  | clock unit => unit.ms

/-- The operation of a unit. -/
def add (d : DateTime) : SpanUnit → Int → Option DateTime
  | .days => d.addDays
  | .clock .hours => d.addHours
  | .clock .minutes => d.addMinutes
  | .clock .seconds => d.addSeconds
  | .clock .milliseconds => d.addMilliseconds

/-- The milliseconds that an operation moves by. -/
def moved (unit : SpanUnit) (value : Int) : Int :=
  if unit = .clock .milliseconds then toInt (1000 * value) / 1000 else value * unit.ms

theorem addDuration_eq_some_iff {d : DateTime} (hd : d.isValid = true) {us : Int} {r : DateTime} :
    d.addDuration us = some r ↔ ∃ n, d.localMs = some n ∧ r.tz = d.tz ∧
      r.time.isValid = true ∧ r.localMs = some (n + us / 1000) := by
  obtain ⟨-, -, htz⟩ := isValid_parts hd
  rw [addDuration, toBoostPtime_eq]
  simp only [hd, Bool.not_true, Bool.false_eq_true, if_false, Option.bind_eq_bind]
  cases hn : d.localMs with
  | none => simp
  | some n =>
    have hsum : (n * 1000 + us) / 1000 = n + us / 1000 := by omega
    rw [Option.map_some, Option.bind_some, makeDateTime_eq_some_iff, hsum]
    constructor
    · rintro ⟨-, h⟩
      exact ⟨n, rfl, h⟩
    · rintro ⟨n', hn', h⟩
      obtain rfl : n = n' := Option.some.inj hn'
      exact ⟨htz, h⟩

theorem addDays_eq_some_iff {d : DateTime} (hd : d.isValid = true) {value : Int} {r : DateTime} :
    d.addDays value = some r ↔ ∃ n, d.localMs = some n ∧ r.tz = d.tz ∧
      r.time.isValid = true ∧ r.localMs = some (n + value * 86400000) := by
  obtain ⟨hdv, htv, -⟩ := isValid_parts hd
  rw [addDays]
  simp only [hdv, Bool.not_true, Bool.false_eq_true, if_false, Option.bind_eq_bind,
    Option.pure_def]
  constructor
  · intro h
    obtain ⟨days, hdays, h⟩ := Option.bind_eq_some_iff.mp h
    obtain ⟨date, hdate, h⟩ := Option.bind_eq_some_iff.mp h
    rw [Option.some.injEq] at h
    subst h
    have hlt := d.time.msOfDay_lt
    have hn : d.localMs = some (days * 86400000 + d.time.msOfDay) := by
      rw [localMs, hdays, Option.map_some]
    refine ⟨_, hn, rfl, htv, localMs_eq_some_iff.mpr ⟨?_, by simp only; omega⟩⟩
    rw [show (days * 86400000 + (d.time.msOfDay : Int) + value * 86400000) / 86400000 =
      days + value by omega]
    exact makeDate_eq_some_iff.mp hdate
  · rintro ⟨n, hn, hrtz, -, hlocal⟩
    obtain ⟨hdate, hday⟩ := localMs_eq_some_iff.mp hn
    obtain ⟨hrdate, hrday⟩ := localMs_eq_some_iff.mp hlocal
    rw [show (n + value * 86400000) / 86400000 = n / 86400000 + value by omega] at hrdate
    have htime : r.time = d.time := Time.msOfDay_inj (by omega)
    rw [hdate, Option.bind_some, makeDate_eq_some_iff.mpr hrdate, Option.bind_some, ← htime,
      ← hrtz]

/-- **What an operation makes**, for each of the units. -/
theorem add_eq_some_iff {d : DateTime} (hd : d.isValid = true) {unit : SpanUnit} {value : Int}
    {r : DateTime} : d.add unit value = some r ↔ ∃ n, d.localMs = some n ∧ r.tz = d.tz ∧
      r.time.isValid = true ∧ r.localMs = some (n + moved unit value) := by
  cases unit with
  | days => exact addDays_eq_some_iff hd
  | clock unit =>
    cases unit with
    | hours =>
      have hus : value * 3600 * 1000000 / 1000 = moved (.clock .hours) value := by
        rw [moved, if_neg (by decide), SpanUnit.ms, Time.ClockUnit.ms]
        omega
      rw [← hus]
      exact addDuration_eq_some_iff hd
    | minutes =>
      have hus : value * 60 * 1000000 / 1000 = moved (.clock .minutes) value := by
        rw [moved, if_neg (by decide), SpanUnit.ms, Time.ClockUnit.ms]
        omega
      rw [← hus]
      exact addDuration_eq_some_iff hd
    | seconds =>
      have hus : value * 1000000 / 1000 = moved (.clock .seconds) value := by
        rw [moved, if_neg (by decide), SpanUnit.ms, Time.ClockUnit.ms]
        omega
      rw [← hus]
      exact addDuration_eq_some_iff hd
    | milliseconds =>
      rw [moved, if_pos rfl]
      exact addDuration_eq_some_iff hd

/-- The microseconds of a number of milliseconds are an `int`. -/
def Fits (unit : SpanUnit) (value : Int) : Prop :=
  unit = .clock .milliseconds → -2 ^ 31 ≤ 1000 * value ∧ 1000 * value < 2 ^ 31

theorem toInt_congr (n : Int) : ∃ k, toInt n = n + 2 ^ 32 * k := by
  rw [toInt, Int.bmod_def]
  norm_num
  split
  · exact ⟨-(n / 4294967296), by omega⟩
  · exact ⟨-(n / 4294967296) - 1, by omega⟩

/-- Where the product does not fit, some thousands of seconds are missing or too many. -/
theorem moved_cases (unit : SpanUnit) (value : Int) :
    (Fits unit value → moved unit value = value * unit.ms) ∧
      (¬ Fits unit value → 1000 < (moved unit value - value * unit.ms).natAbs) := by
  have hb := toInt_lt (1000 * value)
  have hb' := le_toInt (1000 * value)
  obtain ⟨k, hk⟩ := toInt_congr (1000 * value)
  by_cases hu : unit = .clock .milliseconds
  · subst hu
    rw [moved, if_pos rfl, SpanUnit.ms, Time.ClockUnit.ms]
    constructor
    · intro h
      have hfit := h rfl
      have heq : toInt (1000 * value) = 1000 * value :=
        Int.bmod_eq_of_le (by norm_num; omega) (by norm_num; omega)
      omega
    · intro h
      have hfit : ¬ (-2 ^ 31 ≤ 1000 * value ∧ 1000 * value < 2 ^ 31) := fun hc => h fun _ => hc
      omega
  · rw [moved, if_neg hu]
    exact ⟨fun _ => rfl, fun h => absurd (fun hc => absurd hc hu) h⟩

/-- An operation moves the milliseconds since 1970 by what was added. -/
theorem add_exact_iff {d : DateTime} (hd : d.isValid = true) (unit : SpanUnit) (value : Int) :
    (∃ r t, d.add unit value = some r ∧ d.toEpochMs = some t ∧
        r.toEpochMs = some (t + value * unit.ms)) ↔
      ∃ n, d.localMs = some n ∧ Fits unit value ∧ Shown (n + value * unit.ms) ∧
        rounded (n + value * unit.ms) = rounded n + value * unit.ms := by
  obtain ⟨-, -, htz⟩ := isValid_parts hd
  obtain ⟨hfits, hnot⟩ := moved_cases unit value
  constructor
  · rintro ⟨r, t, hr, ht, ht'⟩
    obtain ⟨n, hn, hrtz, htv, hlocal⟩ := (add_eq_some_iff hd).mp hr
    have hvalid := isValid_of_localMs (hrtz ▸ htz) htv hlocal
    rw [toEpochMs_eq hd, hn, Option.map_some, Option.some.injEq] at ht
    rw [toEpochMs_eq hvalid, hlocal, Option.map_some, Option.some.injEq, hrtz, ← ht] at ht'
    have hfit : Fits unit value := by
      by_contra hc
      have hfar := hnot hc
      simp only [rounded] at ht'
      split at ht' <;> split at ht' <;> omega
    rw [hfits hfit] at ht' hlocal
    exact ⟨n, hn, hfit, (exists_localMs_iff _ d.tz).mp ⟨r, hrtz, htv, hlocal⟩, by omega⟩
  · rintro ⟨n, hn, hfit, hshown, hround⟩
    obtain ⟨r, hrtz, htv, hlocal⟩ := (exists_localMs_iff _ d.tz).mpr hshown
    have hvalid := isValid_of_localMs (hrtz ▸ htz) htv hlocal
    refine ⟨r, rounded n - d.tz * 60000, (add_eq_some_iff hd).mpr ⟨n, hn, hrtz, htv, ?_⟩, ?_, ?_⟩
    · rw [hfits hfit]
      exact hlocal
    · rw [toEpochMs_eq hd, hn, Option.map_some]
    · rw [toEpochMs_eq hvalid, hlocal, Option.map_some, hrtz, hround]
      exact congrArg some (by ring)

/-! ### All together -/

/-- **When the epoch is kept.**  Milliseconds since 1970 are made a date with a time that gives
them back, a date with a time is the same moment in another timezone, and an operation moves the
moment by what was added, if and only if the local time that comes out is in the calendar and is
not midnight, no rounding of milliseconds in front of 1970 gets in between, and a number of
milliseconds fits an `int` as microseconds. -/
theorem epoch_exact_iff (v tz : Int) (d : DateTime) (unit : SpanUnit) (value : Int) :
    (isTimezoneValid tz = true →
      ((∃ r, fromEpochMs v tz = some r ∧ r.toEpochMs = some v ∧ r.tz = tz) ↔
        Shown (v + tz * 60000) ∧ (v % 1000 = 0 ∨ 0 ≤ v ∧ 0 ≤ v + tz * 60000))) ∧
    (d.isValid = true → isTimezoneValid tz = true →
      ((∃ r t, d.toTimezone tz = some r ∧ r.tz = tz ∧ d.toEpochMs = some t ∧
          r.toEpochMs = some t) ↔
        ∃ n, d.localMs = some n ∧ (tz = d.tz ∨ Shown (rounded n + (tz - d.tz) * 60000) ∧
          (n % 1000 = 0 ∨ 0 ≤ rounded n + (tz - d.tz) * 60000)))) ∧
    (d.isValid = true →
      ((∃ r t, d.add unit value = some r ∧ d.toEpochMs = some t ∧
          r.toEpochMs = some (t + value * unit.ms)) ↔
        ∃ n, d.localMs = some n ∧ Fits unit value ∧ Shown (n + value * unit.ms) ∧
          rounded (n + value * unit.ms) = rounded n + value * unit.ms)) :=
  ⟨fun htz => fromEpochMs_round_trip_iff htz, fun hd htz => toTimezone_same_iff hd htz,
    fun hd => add_exact_iff hd unit value⟩

/-- One hour in front of the second day of 1970. -/
def lastHour : DateTime :=
  ⟨Date.epochDay, { Time.null with hour := 23, hour_lt := by decide }, 0⟩

/-- Half a second behind midnight. -/
def halfSecond : Time := { Time.null with millisecond := 500, millisecond_lt := by decide }

theorem lastHour_localMs : lastHour.localMs = some 82800000 := by decide

theorem epoch_exact_sample :
    (∃ r, fromEpochMs 86399999 60 = some r ∧ r.toEpochMs = some 86399999 ∧ r.tz = 60) ∧
    (∃ r t, lastHour.toTimezone 120 = some r ∧ r.tz = 120 ∧ lastHour.toEpochMs = some t ∧
      r.toEpochMs = some t) ∧
    (∃ r t, lastHour.add (.clock .hours) 2 = some r ∧ lastHour.toEpochMs = some t ∧
      r.toEpochMs = some (t + 2 * SpanUnit.ms (.clock .hours))) := by
  obtain ⟨hms, -, -⟩ := epoch_exact_iff 86399999 60 lastHour (.clock .hours) 2
  obtain ⟨-, hzone, hadd⟩ := epoch_exact_iff 0 120 lastHour (.clock .hours) 2
  refine ⟨(hms (by decide)).mpr ?_, (hzone (by decide) (by decide)).mpr ?_,
    (hadd (by decide)).mpr ?_⟩
  · exact ⟨⟨by decide, by decide⟩, by decide⟩
  · exact ⟨82800000, lastHour_localMs, .inr ⟨⟨by decide, by decide⟩, by decide⟩⟩
  · refine ⟨82800000, lastHour_localMs, fun h => ?_, ⟨by decide, by decide⟩, by decide⟩
    cases h

/-- **Midnight is not made**: the second day of 1970 begins with an exception, and so does an
hour after the last one of the first day, in another timezone or by adding it. -/
theorem midnight_not_made : (firstDay ≤ 86400000 / 86400000 ∧ 86400000 / 86400000 ≤ lastDay) ∧
    fromEpochMs 86400000 0 = none ∧
    lastHour.isValid = true ∧ lastHour.toTimezone 60 = none ∧
    lastHour.add (.clock .hours) 1 = none := by
  refine ⟨by decide, by decide, by decide, by decide, by decide⟩

end DateTime

end Hatn.Common
