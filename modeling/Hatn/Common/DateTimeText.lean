import Hatn.Common.DateTime
import Hatn.Common.MachineInt

/-!
# Dates with times as ISO strings

`toIsoString` writes a date and a time with the offset of its timezone, and
`parseIsoString` reads them.  What is read is the date and time that was written if and
only if

* the date is one of the calendar: the null date is written, but refused,
* a timezone of zero is the default timezone: `Z` leaves the one of a new object, and
* a timezone behind zero is a whole number of hours: its minutes are written without a sign.
-/

namespace Hatn.Common

open Hatn.Order

/-! ### Numbers in strings -/

def isDigit (c : UInt8) : Bool := 0x30 ≤ c && c ≤ 0x39

/-- `isspace` -/
def isSpace (c : UInt8) : Bool := c == 0x20 || (0x09 ≤ c && c ≤ 0x0d)

/-- The number of a string of digits. -/
def digitsNumber (ds : List UInt8) : Nat := ds.foldl (fun v c => 10 * v + (c.toNat - 48)) 0

/-- The number at the head of a string of digits and what follows; there is none without a
digit, and none that is no `int`. -/
def stoiUnsigned (negative : Bool) (s : List UInt8) : Option Int :=
  let ds := s.takeWhile isDigit
  if ds.isEmpty then none
  else
    let n : Int := if negative then -(digitsNumber ds : Int) else digitsNumber ds
    if -2 ^ 31 ≤ n ∧ n < 2 ^ 31 then some n else none

/-- `std::stoi`; `none` is an exception. -/
def stoi (s : List UInt8) : Option Int :=
  match s.dropWhile isSpace with
  | 0x2d :: s => stoiUnsigned true s
  | 0x2b :: s => stoiUnsigned false s
  | s => stoiUnsigned false s

/-- `boost::split` with `boost::is_any_of` -/
def split (delimiters s : List UInt8) : List (List UInt8) := s.splitOnP (delimiters.contains ·)

/-- `{:+0wd}` of a number, the sign being a part of the width. -/
def fmtSigned (w : Nat) (n : Int) : List UInt8 :=
  (if n < 0 then 0x2d else 0x2b) :: fmtDec (w - 1) n.natAbs

theorem isDigit_digitChar : ∀ d < 10, isDigit (digitChar d) = true := by decide

theorem digitChar_toNat_sub : ∀ d < 10, (digitChar d).toNat - 48 = d := by decide

theorem isDigit_of_mem_fmtDec {w n : Nat} {c : UInt8} (h : c ∈ fmtDec w n) : isDigit c = true := by
  obtain ⟨d, hd, rfl⟩ := List.mem_map.mp h
  exact isDigit_digitChar d (padded_lt_base (by omega) w n d hd)

@[simp] theorem fmtDec_length (w n : Nat) : (fmtDec w n).length = max w (digitCount 10 n) := by
  simp [fmtDec]

theorem fmtDec_length_of_lt {w n : Nat} (h : n < 10 ^ w) : (fmtDec w n).length = w := by
  rw [fmtDec_length, Nat.max_eq_left ((digitCount_le_iff (by omega)).mpr h)]

theorem fmtDec_isEmpty {w : Nat} (hw : 0 < w) (n : Nat) : (fmtDec w n).isEmpty = false := by
  rw [List.isEmpty_eq_false_iff, ← List.length_pos_iff, fmtDec_length]
  omega

theorem foldl_digits : ∀ (l : List Nat) (v : Nat), (∀ d ∈ l, d < 10) →
    (l.map digitChar).foldl (fun v c => 10 * v + (c.toNat - 48)) v =
      l.foldl (fun v d => 10 * v + d) v := by
  intro l
  induction l with
  | nil => intro v _; rfl
  | cons d l ih =>
    intro v h
    rw [List.map_cons, List.foldl_cons, List.foldl_cons,
      digitChar_toNat_sub d (h d (List.mem_cons_self ..))]
    exact ih _ fun d' hd' => h d' (List.mem_cons_of_mem _ hd')

theorem digitsNumber_fmtDec (w n : Nat) : digitsNumber (fmtDec w n) = n := by
  rw [digitsNumber, fmtDec, foldl_digits _ 0 (padded_lt_base (by omega) w n), padded,
    foldl_numeral 10 (lt_pow_width (by omega) w n)]

/-- The digits end where something else follows. -/
theorem takeWhile_fmtDec {w n : Nat} {s : List UInt8} (hs : ∀ c ∈ s.head?, isDigit c = false) :
    (fmtDec w n ++ s).takeWhile isDigit = fmtDec w n := by
  rw [List.takeWhile_append_of_pos fun c hc => isDigit_of_mem_fmtDec hc]
  cases s with
  | nil => simp
  | cons c s => rw [List.takeWhile_cons, hs c rfl]; simp

theorem stoiUnsigned_fmtDec {w n : Nat} {s : List UInt8} (hw : 0 < w) (hn : n < 2 ^ 31)
    (hs : ∀ c ∈ s.head?, isDigit c = false) (negative : Bool) :
    stoiUnsigned negative (fmtDec w n ++ s) = some (if negative then -(n : Int) else n) := by
  rw [stoiUnsigned, takeWhile_fmtDec hs, fmtDec_isEmpty hw, digitsNumber_fmtDec]
  simp only [Bool.false_eq_true, if_false]
  rw [if_pos]
  split <;> omega

theorem isDigit_cases {c : UInt8} (h : isDigit c = true) :
    isSpace c = false ∧ c ≠ 0x2d ∧ c ≠ 0x2b := by
  rw [isDigit, Bool.and_eq_true, decide_eq_true_eq, decide_eq_true_eq] at h
  have hc : 48 ≤ c.toNat := UInt8.le_iff_toNat_le.mp h.1
  have ne : ∀ d : UInt8, d.toNat < 48 → c ≠ d := by
    rintro d hd rfl
    omega
  refine ⟨?_, ne 0x2d (by decide), ne 0x2b (by decide)⟩
  rw [isSpace, Bool.or_eq_false_iff, Bool.and_eq_false_iff]
  refine ⟨beq_eq_false_iff_ne.mpr (ne 0x20 (by decide)), .inr (decide_eq_false fun h' => ?_)⟩
  have : c.toNat ≤ 13 := UInt8.le_iff_toNat_le.mp h'
  omega

/-- **A number is read up to the first character that is no digit.** -/
theorem stoi_fmtDec_append {w n : Nat} {s : List UInt8} (hw : 0 < w) (hn : n < 2 ^ 31)
    (hs : ∀ c ∈ s.head?, isDigit c = false) : stoi (fmtDec w n ++ s) = some (n : Int) := by
  have key := stoiUnsigned_fmtDec hw hn hs false
  have hne := fmtDec_isEmpty hw n
  cases hl : fmtDec w n with
  | nil => rw [hl] at hne; cases hne
  | cons c l =>
    have hc : isDigit c = true := isDigit_of_mem_fmtDec (hl ▸ List.mem_cons_self ..)
    obtain ⟨hsp, h1, h2⟩ := isDigit_cases hc
    rw [hl] at key
    rw [stoi, List.cons_append, List.dropWhile_cons, hsp]
    simp only [Bool.false_eq_true, if_false]
    split
    next e => injection e with e; exact absurd e h1
    next e => injection e with e; exact absurd e h2
    next => simpa using key

theorem stoi_fmtDec {w n : Nat} (hw : 0 < w) (hn : n < 2 ^ 31) : stoi (fmtDec w n) = some (n : Int) := by
  have e := stoi_fmtDec_append (s := []) hw hn (by simp)
  rwa [List.append_nil] at e

theorem stoi_fmtSigned {w : Nat} {n : Int} (hw : 1 < w) (hn : n.natAbs < 2 ^ 31) :
    stoi (fmtSigned w n) = some n := by
  have key : ∀ negative, stoiUnsigned negative (fmtDec (w - 1) n.natAbs) =
      some (if negative then -(n.natAbs : Int) else n.natAbs) := by
    intro negative
    have e := stoiUnsigned_fmtDec (s := []) (w := w - 1) (by omega) hn (by simp) negative
    rwa [List.append_nil] at e
  rw [fmtSigned]
  split
  next h =>
    rw [stoi, List.dropWhile_cons_of_neg (by decide)]
    refine (key true).trans (congrArg some ?_)
    rw [if_pos rfl]
    omega
  next h =>
    rw [stoi, List.dropWhile_cons_of_neg (by decide)]
    refine (key false).trans (congrArg some ?_)
    rw [if_neg Bool.false_ne_true]
    omega

/-! ### Parts of a string -/

theorem split_singleton {delimiters s : List UInt8} (h : ∀ c ∈ s, delimiters.contains c = false) :
    split delimiters s = [s] := List.splitOnP_eq_singleton h

theorem split_append_cons {delimiters s : List UInt8} (h : ∀ c ∈ s, delimiters.contains c = false)
    {c : UInt8} (hc : delimiters.contains c = true) (s' : List UInt8) :
    split delimiters (s ++ c :: s') = s :: split delimiters s' :=
  List.splitOnP_append_cons_of_forall_mem h c hc s'

/-- There are no digits among these delimiters. -/
theorem not_delimiter {delimiters : List UInt8} (hd : ∀ c ∈ delimiters, isDigit c = false)
    {w n : Nat} : ∀ c ∈ fmtDec w n, delimiters.contains c = false := by
  intro c hc
  rw [Bool.eq_false_iff]
  intro h
  have := hd c (List.contains_iff_mem.mp h)
  rw [isDigit_of_mem_fmtDec hc] at this
  cases this

/-! ### Dates -/

namespace Date

theorem bounds_of_validate {year month day : Nat} (h : validate year month day = true) :
    month ≤ 12 ∧ day ≤ 31 := by
  simp only [validate, Bool.and_eq_true, Bool.not_eq_true', Bool.or_eq_false_iff,
    decide_eq_false_iff_not] at h
  omega

/-- The date of three numbers that `validate` accepts; the year is stored in 16 bits. -/
def ofValid (year month day : Nat) : Option Date :=
  if h : validate year month day = true then
    some ⟨year % 2 ^ 16, month, day, Nat.mod_lt _ (by decide), (bounds_of_validate h).1,
      (bounds_of_validate h).2⟩
  else none

/-- `set` -/
def set (value : Nat) : Option Date :=
  ofValid (value / 10000) ((value - value / 10000 * 10000) / 100) (value % 100)

/-- The null date. -/
def null : Date := ⟨0, 0, 0, by decide, by decide, by decide⟩

/-- The first day that the epoch counts. -/
def epochDay : Date := ⟨1970, 1, 1, by decide, by decide, by decide⟩

/-- `parse` in the format of numbers. -/
def parseNumber (s : List UInt8) : Option Date :=
  if s.isEmpty then some null
  else do
    let num ← stoi s
    if num < 0 then none else set num.toNat

/-- `parse` in the ISO format. -/
def parseIso (s : List UInt8) : Option Date :=
  if s.isEmpty then some null
  else match split [0x2d] s with
    | [year, month, day] => do
      let year ← stoi year
      let month ← stoi month
      let day ← stoi day
      if year < 0 ∨ month < 0 ∨ day < 0 then none
      else ofValid (year.toNat % 2 ^ 16) (month.toNat % 2 ^ 8) (day.toNat % 2 ^ 8)
    | _ => none

end Date

/-! ### Times -/

namespace Time

/-- `validate`: midnight is the null time. -/
def validate (hour minute second ms : Int) : Bool :=
  !(24 ≤ hour || 60 ≤ minute || 60 ≤ second || 1000 ≤ ms) &&
    !(hour == 0 && minute == 0 && second == 0 && ms == 0)

/-- The time of four numbers within the bounds of the setters. -/
def ofBounds (hour minute second ms : Nat) : Option Time :=
  if h : hour < 24 ∧ minute < 60 ∧ second < 60 ∧ ms < 1000 then
    some ⟨hour, minute, second, ms, h.1, h.2.1, h.2.2.1, h.2.2.2⟩
  else none

/-- The constructor from four numbers, which are cast to the types of the members before they
are validated. -/
def ofNumbers (hour minute second ms : Int) : Option Time :=
  let hour : Nat := (hour % 2 ^ 8).toNat
  let minute : Nat := (minute % 2 ^ 8).toNat
  let second : Nat := (second % 2 ^ 8).toNat
  let ms : Nat := (ms % 2 ^ 16).toNat
  if validate hour minute second ms then ofBounds hour minute second ms else none

/-- `set` -/
def set (value : Nat) : Option Time :=
  let hour := value / 10000000
  let minute := (value - hour * 10000000) / 100000
  let second := (value - hour * 10000000 - minute * 100000) / 1000
  ofBounds hour minute second (value % 1000)

/-- The null time. -/
def null : Time := ⟨0, 0, 0, 0, by decide, by decide, by decide, by decide⟩

/-- `extractMs` -/
def extractMs (s : List UInt8) : Option Int := do
  match s.length with
  | 1 => return (← stoi s) * 100
  | 2 => return (← stoi s) * 10
  | 3 => stoi s
  | 4 => return (← stoi s).tdiv 10
  | 5 => return (← stoi s).tdiv 100
  | 6 => return (← stoi s).tdiv 1000
  | _ => none

/-- `parse` with the precision of milliseconds. -/
def parseMillisecond (s : List UInt8) : Option Time :=
  if s.isEmpty then some null
  else match split [0x3a, 0x2e] s with
    | hour :: minute :: second :: rest => do
      let hour ← stoi hour
      let minute ← stoi minute
      let second ← stoi second
      let ms ← match rest with
        | [ms] => extractMs ms
        | _ => some 0
      if validate hour minute second ms then ofNumbers hour minute second ms else none
    | _ => none

/-- `parse` in the format of numbers.  With two parts the code goes on with a third one that is
not there; such strings are refused here. -/
def parseNumber (s : List UInt8) : Option Time :=
  if s.isEmpty then some null
  else do
    let parts := split [0x3a, 0x2e] s
    let num ← stoi (parts.headD [])
    if num < 0 then none
    else
      let t ← set (num.toNat * 1000)
      if parts.length = 2 then none else some t

end Time

/-! ### Dates with times -/

namespace DateTime

/-- The parts of `toIsoString`. -/
def isoDate (d : Date) : List UInt8 :=
  fmtDec 4 d.year ++ 0x2d :: (fmtDec 2 d.month ++ 0x2d :: fmtDec 2 d.day)

def isoTime (t : Time) : List UInt8 :=
  fmtDec 2 t.hour ++ 0x3a :: (fmtDec 2 t.minute ++ 0x3a :: (fmtDec 2 t.second ++
    if 0 < t.millisecond then 0x2e :: fmtDec 3 t.millisecond else []))

def isoTimezone (tz : Int) : List UInt8 :=
  if tz = 0 then [0x5a]
  else fmtSigned 3 (tz.tdiv 60) ++ 0x3a :: fmtDec 2 (tz.tmod 60).natAbs

/-- `toIsoString`, with milliseconds. -/
def toIsoString (d : DateTime) : List UInt8 :=
  isoDate d.date ++ 0x54 :: (isoTime d.time ++ isoTimezone d.tz)

/-- The date: one of its own format, or a number. -/
def parseDate (s : List UInt8) : Option Date := (Date.parseIso s).or (Date.parseNumber s)

def parseTime (s : List UInt8) : Option Time := (Time.parseMillisecond s).or (Time.parseNumber s)

/-- The timezone of the last six characters, for an object with the timezone `defaultTz`, which
stays where the numbers are none. -/
def parseTimezone (defaultTz : Int) (s : List UInt8) : Option Int :=
  match split [0x3a] s with
  | [h, m] =>
    match stoi h, stoi m with
    | some hours, some minutes =>
      let negative := h.head? == some 0x2d
      let hours := castTo true .w8 hours
      let minutes := castTo true .w8 minutes
      let minutes := if hours = 0 ∧ negative then castTo true .w8 (-minutes) else minutes
      let tz := hours * 60 + minutes
      if isTimezoneValid tz then some tz else none
    | _, _ => some defaultTz
  | _ => none

def parseIsoString (defaultTz : Int) (s : List UInt8) : Option DateTime :=
  match split [0x54] s with
  | [date, rest] => do
    let date ← parseDate date
    if rest.getLast? = some 0x5a then
      let time ← parseTime rest.dropLast
      return ⟨date, time, defaultTz⟩
    else if rest.length < 14 then none
    else
      let time ← parseTime (rest.take (rest.length - 6))
      let tz ← parseTimezone defaultTz (rest.drop (rest.length - 6))
      return ⟨date, time, tz⟩
  | _ => none

/-! ### The date is read -/

/-- The dates that `validate` accepts. -/
def InCalendar (d : Date) : Prop := Date.validate d.year d.month d.day = true

instance (d : Date) : Decidable (InCalendar d) := inferInstanceAs (Decidable (_ = true))

theorem ofValid_of_inCalendar {d : Date} (h : InCalendar d) :
    Date.ofValid d.year d.month d.day = some d := by
  have hy := Nat.mod_eq_of_lt d.year_lt
  rw [InCalendar] at h
  rw [Date.ofValid, dif_pos h]
  simp only [hy]

theorem ofValid_eq_none {year month day : Nat} (h : ¬ Date.validate year month day = true) :
    Date.ofValid year month day = none := dif_neg h

theorem isoDate_isEmpty (d : Date) : (isoDate d).isEmpty = false := by
  simp [isoDate]

theorem parseIso_isoDate (d : Date) :
    Date.parseIso (isoDate d) = Date.ofValid d.year d.month d.day := by
  have hy := d.year_lt
  have hm := d.month_le
  have hd := d.day_le
  have hdash : ∀ c ∈ [(0x2d : UInt8)], isDigit c = false :=
    List.forall_mem_singleton.mpr (by decide)
  have hs : split [0x2d] (isoDate d) = [fmtDec 4 d.year, fmtDec 2 d.month, fmtDec 2 d.day] := by
    rw [isoDate, split_append_cons (not_delimiter hdash) (by decide),
      split_append_cons (not_delimiter hdash) (by decide), split_singleton (not_delimiter hdash)]
  rw [Date.parseIso, isoDate_isEmpty, hs]
  simp only [Bool.false_eq_true, if_false]
  rw [stoi_fmtDec (by omega) (by omega), stoi_fmtDec (by omega) (by omega),
    stoi_fmtDec (by omega) (by omega)]
  simp only [Option.bind_eq_bind, Option.bind_some]
  rw [if_neg (by omega), Int.toNat_natCast, Int.toNat_natCast, Int.toNat_natCast,
    Nat.mod_eq_of_lt hy, Nat.mod_eq_of_lt (by omega), Nat.mod_eq_of_lt (by omega)]

/-- Of a date that is written, the format of numbers sees the year. -/
theorem parseNumber_isoDate (d : Date) : Date.parseNumber (isoDate d) = Date.set d.year := by
  have hy := d.year_lt
  rw [Date.parseNumber, isoDate_isEmpty]
  simp only [Bool.false_eq_true, if_false]
  rw [isoDate, stoi_fmtDec_append (by omega) (by omega) (by simp; decide)]
  simp only [Option.bind_eq_bind, Option.bind_some]
  rw [if_neg (by omega), Int.toNat_natCast]

/-- The year of a date that is the number of a year is another year. -/
theorem set_year_ne (d : Date) : Date.set d.year ≠ some d := by
  have hy := d.year_lt
  intro h
  rw [Date.set, Date.ofValid] at h
  split at h
  next hv =>
    have e : d.year / 10000 % 2 ^ 16 = d.year := congrArg Date.year (Option.some.inj h)
    have h0 : d.year = 0 := by omega
    rw [h0] at hv
    exact absurd hv (by decide)
  next => cases h

/-- **A date is read again if and only if it is one of the calendar.** -/
theorem parseDate_isoDate (d : Date) : parseDate (isoDate d) = some d ↔ InCalendar d := by
  rw [parseDate, parseIso_isoDate, parseNumber_isoDate]
  constructor
  · intro h
    by_contra hc
    rw [ofValid_eq_none hc, Option.none_or] at h
    exact set_year_ne d h
  · intro h
    rw [ofValid_of_inCalendar h, Option.some_or]

/-! ### The time is read -/

theorem isoTime_isEmpty (t : Time) : (isoTime t).isEmpty = false := by
  simp [isoTime]

/-- The parts of the time, the milliseconds where there are any. -/
theorem split_isoTime (t : Time) : split [0x3a, 0x2e] (isoTime t) =
    fmtDec 2 t.hour :: fmtDec 2 t.minute :: fmtDec 2 t.second ::
      if 0 < t.millisecond then [fmtDec 3 t.millisecond] else [] := by
  have hd : ∀ c ∈ [(0x3a : UInt8), 0x2e], isDigit c = false :=
    List.forall_mem_cons.mpr ⟨by decide, List.forall_mem_singleton.mpr (by decide)⟩
  rw [isoTime, split_append_cons (not_delimiter hd) (by decide),
    split_append_cons (not_delimiter hd) (by decide)]
  split
  · rw [split_append_cons (not_delimiter hd) (by decide), split_singleton (not_delimiter hd)]
  · rw [List.append_nil, split_singleton (not_delimiter hd)]

theorem ofBounds_eq (t : Time) : Time.ofBounds t.hour t.minute t.second t.millisecond = some t :=
  dif_pos ⟨t.hour_lt, t.minute_lt, t.second_lt, t.millisecond_lt⟩

theorem ofNumbers_eq {t : Time} (h : Time.validate t.hour t.minute t.second t.millisecond = true) :
    Time.ofNumbers t.hour t.minute t.second t.millisecond = some t := by
  have hh := t.hour_lt
  have hm := t.minute_lt
  have hs := t.second_lt
  have hu := t.millisecond_lt
  have eh : ((t.hour : Int) % 2 ^ 8).toNat = t.hour := by omega
  have em : ((t.minute : Int) % 2 ^ 8).toNat = t.minute := by omega
  have es : ((t.second : Int) % 2 ^ 8).toNat = t.second := by omega
  have eu : ((t.millisecond : Int) % 2 ^ 16).toNat = t.millisecond := by omega
  simp only [Time.ofNumbers, eh, em, es, eu, h, if_true, ofBounds_eq]

theorem extractMs_fmtDec {n : Nat} (h : n < 1000) : Time.extractMs (fmtDec 3 n) = some (n : Int) := by
  rw [Time.extractMs, fmtDec_length_of_lt h]
  exact stoi_fmtDec (by omega) (by omega)

theorem parseMillisecond_isoTime (t : Time) : Time.parseMillisecond (isoTime t) =
    if Time.validate t.hour t.minute t.second t.millisecond then some t else none := by
  have hh := t.hour_lt
  have hm := t.minute_lt
  have hs := t.second_lt
  have hu := t.millisecond_lt
  rw [Time.parseMillisecond, isoTime_isEmpty, split_isoTime]
  simp only [Bool.false_eq_true, if_false]
  rw [stoi_fmtDec (by omega) (by omega), stoi_fmtDec (by omega) (by omega),
    stoi_fmtDec (by omega) (by omega)]
  simp only [Option.bind_eq_bind, Option.bind_some]
  by_cases h0 : 0 < t.millisecond
  · simp only [if_pos h0]
    rw [extractMs_fmtDec hu, Option.bind_some]
    split
    next h => rw [ofNumbers_eq h]
    next => rfl
  · have e : (0 : Int) = t.millisecond := by omega
    simp only [if_neg h0, e]
    split
    next h => rw [ofNumbers_eq h]
    next => rfl

/-- **A time is read again**, midnight as a number. -/
theorem parseTime_isoTime (t : Time) : parseTime (isoTime t) = some t := by
  rw [parseTime, parseMillisecond_isoTime]
  split
  next => rfl
  next h =>
    have e : t = Time.null := by
      obtain ⟨hour, minute, second, ms, hh, hm, hs, hu⟩ := t
      simp only [Time.validate, Bool.and_eq_true, Bool.not_eq_true', Bool.or_eq_false_iff,
        decide_eq_false_iff_not, Bool.and_eq_false_iff, beq_eq_false_iff_ne, not_and_or] at h
      have e : hour = 0 ∧ minute = 0 ∧ second = 0 ∧ ms = 0 := by omega
      obtain ⟨rfl, rfl, rfl, rfl⟩ := e
      rfl
    rw [e]
    decide +kernel

/-! ### The timezone is read -/

/-- What is read for a timezone: its minutes have no sign. -/
def readTimezone (tz : Int) : Int := tz.tdiv 60 * 60 + (tz.tmod 60).natAbs

theorem readTimezone_eq_iff (tz : Int) : readTimezone tz = tz ↔ 0 ≤ tz ∨ 60 ∣ tz := by
  have e := Int.mul_tdiv_add_tmod tz 60
  rw [readTimezone, Int.dvd_iff_tmod_eq_zero]
  rcases le_or_gt 0 tz with h | h
  · have := Int.tmod_nonneg 60 h
    omega
  · obtain ⟨n, rfl⟩ : ∃ n : Nat, tz = -n := ⟨tz.natAbs, by omega⟩
    have := Int.tmod_nonneg 60 (Int.natCast_nonneg n)
    rw [Int.neg_tmod] at *
    omega

theorem timezone_bounds {tz : Int} (h : isTimezoneValid tz = true) : -720 ≤ tz ∧ tz ≤ 840 := by
  rw [isTimezoneValid, Bool.and_eq_true, Bool.not_eq_true', Bool.or_eq_false_iff,
    decide_eq_false_iff_not, decide_eq_false_iff_not] at h
  omega

/-- The hours and the minutes of a timezone. -/
theorem timezone_parts {tz : Int} (h : isTimezoneValid tz = true) :
    (tz.tdiv 60).natAbs ≤ 14 ∧ (tz.tmod 60).natAbs < 60 := by
  have hb := timezone_bounds h
  have e := Int.mul_tdiv_add_tmod tz 60
  have hm : (tz.tmod 60).natAbs < 60 := by
    rw [Int.natAbs_tmod]
    exact Nat.mod_lt _ (by decide)
  have hd : (tz.tdiv 60).natAbs = tz.natAbs / 60 := Int.natAbs_tdiv tz 60
  omega

theorem castTo_of_natAbs_lt {n : Int} (h : n.natAbs < 128) : castTo true .w8 n = n :=
  Int.bmod_eq_of_le (by simp only [Width.bits]; omega) (by simp only [Width.bits]; omega)

theorem isoTimezone_of_ne {tz : Int} (h : tz ≠ 0) :
    isoTimezone tz = fmtSigned 3 (tz.tdiv 60) ++ 0x3a :: fmtDec 2 (tz.tmod 60).natAbs := if_neg h

theorem isoTimezone_length {tz : Int} (h : tz ≠ 0) (hv : isTimezoneValid tz = true) :
    (isoTimezone tz).length = 6 := by
  obtain ⟨hd, hm⟩ := timezone_parts hv
  rw [isoTimezone_of_ne h, fmtSigned, List.length_append, List.length_cons, List.length_cons,
    fmtDec_length_of_lt (w := 3 - 1) (by omega), fmtDec_length_of_lt (by omega)]

/-- **A timezone is read without the sign of its minutes.** -/
theorem parseTimezone_isoTimezone {defaultTz tz : Int} (h : tz ≠ 0)
    (hv : isTimezoneValid tz = true) : parseTimezone defaultTz (isoTimezone tz) =
      if isTimezoneValid (readTimezone tz) then some (readTimezone tz) else none := by
  obtain ⟨hd, hm⟩ := timezone_parts hv
  have hcolon : ∀ c ∈ [(0x3a : UInt8)], isDigit c = false :=
    List.forall_mem_singleton.mpr (by decide)
  have hsplit : split [0x3a] (isoTimezone tz) =
      [fmtSigned 3 (tz.tdiv 60), fmtDec 2 (tz.tmod 60).natAbs] := by
    have hs : ∀ c ∈ fmtSigned 3 (tz.tdiv 60), [(0x3a : UInt8)].contains c = false := by
      intro c hc
      rcases List.mem_cons.mp hc with rfl | hc
      · split <;> decide
      · exact not_delimiter hcolon c hc
    rw [isoTimezone_of_ne h, split_append_cons hs (by decide),
      split_singleton (not_delimiter hcolon)]
  have hnegative : (tz.tdiv 60 = 0 ∧
      ((fmtSigned 3 (tz.tdiv 60)).head? == some 0x2d) = true) = False := by
    refine eq_false fun ⟨h0, hh⟩ => ?_
    rw [h0] at hh
    exact absurd hh (by decide)
  rw [parseTimezone, hsplit]
  simp only [stoi_fmtSigned (by omega : 1 < 3) (by omega : (tz.tdiv 60).natAbs < 2 ^ 31),
    stoi_fmtDec (by omega : 0 < 2) (by omega : (tz.tmod 60).natAbs < 2 ^ 31)]
  rw [castTo_of_natAbs_lt (n := tz.tdiv 60) (by omega),
    castTo_of_natAbs_lt (n := ((tz.tmod 60).natAbs : Int)) (by omega)]
  simp only [hnegative, if_false]
  rw [readTimezone]

/-! ### Dates with times are read -/

theorem fmtDec_getLast? {w : Nat} (hw : 0 < w) (n : Nat) {s : List UInt8} :
    (s ++ fmtDec w n).getLast? ≠ some 0x5a := by
  have hne : fmtDec w n ≠ [] := List.isEmpty_eq_false_iff.mp (fmtDec_isEmpty hw n)
  rw [List.getLast?_append_of_ne_nil _ hne]
  intro h
  have := isDigit_of_mem_fmtDec (List.mem_of_getLast? h)
  exact absurd this (by decide)

/-- Digits and some delimiters. -/
theorem mem_isoTime {t : Time} {c : UInt8} (h : c ∈ isoTime t) :
    isDigit c = true ∨ c = 0x3a ∨ c = 0x2e := by
  simp only [isoTime, List.mem_append, List.mem_cons] at h
  rcases h with h | rfl | h | rfl | h | h
  · exact .inl (isDigit_of_mem_fmtDec h)
  · exact .inr (.inl rfl)
  · exact .inl (isDigit_of_mem_fmtDec h)
  · exact .inr (.inl rfl)
  · exact .inl (isDigit_of_mem_fmtDec h)
  · split at h
    · rcases List.mem_cons.mp h with rfl | h
      · exact .inr (.inr rfl)
      · exact .inl (isDigit_of_mem_fmtDec h)
    · cases h

theorem mem_isoTimezone {tz : Int} {c : UInt8} (h : c ∈ isoTimezone tz) :
    isDigit c = true ∨ c = 0x3a ∨ c = 0x2b ∨ c = 0x2d ∨ c = 0x5a := by
  rw [isoTimezone] at h
  split at h
  · rw [List.mem_singleton] at h
    exact .inr (.inr (.inr (.inr h)))
  · simp only [fmtSigned, List.mem_append, List.mem_cons] at h
    rcases h with (h | h) | rfl | h
    · split at h
      · exact .inr (.inr (.inr (.inl h)))
      · exact .inr (.inr (.inl h))
    · exact .inl (isDigit_of_mem_fmtDec h)
    · exact .inr (.inl rfl)
    · exact .inl (isDigit_of_mem_fmtDec h)

theorem mem_isoDate {d : Date} {c : UInt8} (h : c ∈ isoDate d) : isDigit c = true ∨ c = 0x2d := by
  simp only [isoDate, List.mem_append, List.mem_cons] at h
  rcases h with h | rfl | h | rfl | h
  · exact .inl (isDigit_of_mem_fmtDec h)
  · exact .inr rfl
  · exact .inl (isDigit_of_mem_fmtDec h)
  · exact .inr rfl
  · exact .inl (isDigit_of_mem_fmtDec h)

theorem split_toIsoString (d : DateTime) :
    split [0x54] d.toIsoString = [isoDate d.date, isoTime d.time ++ isoTimezone d.tz] := by
  have hno : ∀ c : UInt8, isDigit c = true ∨ c = 0x2d ∨ c = 0x3a ∨ c = 0x2e ∨ c = 0x2b ∨ c = 0x5a →
      [(0x54 : UInt8)].contains c = false := by
    rintro c (h | rfl | rfl | rfl | rfl | rfl)
    · rw [Bool.eq_false_iff]
      intro hc
      have e : c = 0x54 := List.mem_singleton.mp (List.contains_iff_mem.mp hc)
      rw [e] at h
      exact absurd h (by decide)
    all_goals decide
  rw [toIsoString, split_append_cons _ (by decide), split_singleton]
  · intro c hc
    rcases List.mem_append.mp hc with h | h
    · rcases mem_isoTime h with h | h | h
      · exact hno c (.inl h)
      · exact hno c (.inr (.inr (.inl h)))
      · exact hno c (.inr (.inr (.inr (.inl h))))
    · rcases mem_isoTimezone h with h | h | h | h | h
      · exact hno c (.inl h)
      · exact hno c (.inr (.inr (.inl h)))
      · exact hno c (.inr (.inr (.inr (.inr (.inl h)))))
      · exact hno c (.inr (.inl h))
      · exact hno c (.inr (.inr (.inr (.inr (.inr h)))))
  · intro c hc
    rcases mem_isoDate hc with h | h
    · exact hno c (.inl h)
    · exact hno c (.inr (.inl h))

theorem isoTime_length (t : Time) : 8 ≤ (isoTime t).length := by
  simp only [isoTime, List.length_append, List.length_cons, fmtDec_length]
  omega

/-- What is read: the date as it is found, the time, and the timezone. -/
theorem parseIsoString_toIsoString {defaultTz : Int} {d : DateTime}
    (hv : isTimezoneValid d.tz = true) : parseIsoString defaultTz d.toIsoString =
      (parseDate (isoDate d.date)).bind fun date =>
        if d.tz = 0 then some ⟨date, d.time, defaultTz⟩
        else if isTimezoneValid (readTimezone d.tz) then some ⟨date, d.time, readTimezone d.tz⟩
        else none := by
  rw [parseIsoString, split_toIsoString]
  simp only [Option.bind_eq_bind, Option.pure_def]
  congr 1
  funext date
  by_cases h0 : d.tz = 0
  · rw [if_pos h0, h0]
    have e : isoTimezone 0 = [0x5a] := rfl
    rw [e, List.getLast?_concat, if_pos rfl, List.dropLast_concat, parseTime_isoTime,
      Option.bind_some]
  · have hlast : (isoTime d.time ++ isoTimezone d.tz).getLast? ≠ some 0x5a := by
      have e : isoTime d.time ++ isoTimezone d.tz =
          (isoTime d.time ++ fmtSigned 3 (d.tz.tdiv 60) ++ [0x3a]) ++
            fmtDec 2 (d.tz.tmod 60).natAbs := by
        rw [isoTimezone_of_ne h0]
        simp
      rw [e]
      exact fmtDec_getLast? (by decide) _
    have hlen := isoTimezone_length h0 hv
    have h8 := isoTime_length d.time
    have hcut : (isoTime d.time ++ isoTimezone d.tz).length - 6 = (isoTime d.time).length := by
      rw [List.length_append, hlen, Nat.add_sub_cancel]
    rw [if_neg h0, if_neg hlast, if_neg (by rw [List.length_append, hlen]; omega), hcut,
      List.take_left, List.drop_left, parseTime_isoTime, Option.bind_some,
      parseTimezone_isoTimezone h0 hv]
    split <;> rfl

/-- **A date with a time is read again** if and only if its date is one of the calendar, a
timezone of zero is the default one, and a timezone behind zero has no minutes. -/
theorem parseIsoString_toIsoString_eq_iff {defaultTz : Int} {d : DateTime}
    (hv : isTimezoneValid d.tz = true) : parseIsoString defaultTz d.toIsoString = some d ↔
      InCalendar d.date ∧ (d.tz = 0 → defaultTz = 0) ∧ (0 ≤ d.tz ∨ 60 ∣ d.tz) := by
  rw [parseIsoString_toIsoString hv, ← parseDate_isoDate, ← readTimezone_eq_iff]
  constructor
  · intro h
    obtain ⟨date, hdate, h⟩ := Option.bind_eq_some_iff.mp h
    split at h
    next h0 =>
      injection h with h
      have ht : defaultTz = d.tz := congrArg tz h
      have hd : date = d.date := congrArg DateTime.date h
      rw [hd] at hdate
      exact ⟨hdate, fun _ => ht.trans h0, by rw [h0]; rfl⟩
    next h0 =>
      split at h
      next =>
        injection h with h
        have ht : readTimezone d.tz = d.tz := congrArg tz h
        have hd : date = d.date := congrArg DateTime.date h
        rw [hd] at hdate
        exact ⟨hdate, fun h => absurd h h0, ht⟩
      next => cases h
  · rintro ⟨hdate, hz, ht⟩
    rw [hdate, Option.bind_some, ht, hv]
    split
    next h0 => rw [hz h0, ← h0]
    next => rfl

/-- **When the ISO string of a valid date with a time is read again**: the date is one of the
calendar, UTC is the default timezone where it is the own one, and a timezone west of it is a
whole number of hours. -/
theorem isoString_round_trip_iff {defaultTz : Int} {d : DateTime} (hd : d.isValid = true) :
    parseIsoString defaultTz d.toIsoString = some d ↔
      InCalendar d.date ∧ (d.tz = 0 → defaultTz = 0) ∧ (0 ≤ d.tz ∨ 60 ∣ d.tz) := by
  rw [isValid, Bool.and_eq_true] at hd
  exact parseIsoString_toIsoString_eq_iff hd.2

/-- Noon of the leap day of 2024 in a timezone. -/
def leapNoon (tz : Int) : DateTime :=
  ⟨⟨2024, 2, 29, by decide, by decide, by decide⟩,
    ⟨12, 0, 0, 1, by decide, Time.null.minute_lt, Time.null.second_lt, by decide⟩, tz⟩

theorem isoString_round_trip_sample :
    parseIsoString 0 (leapNoon 345).toIsoString = some (leapNoon 345) :=
  (isoString_round_trip_iff (by decide)).mpr
    ⟨by decide, fun h => absurd h (by decide), .inl (by decide)⟩

/-- **Minutes west of the meridian change their sign**: three and a half hours are read as two and
a half, and half an hour as half an hour to the east. -/
theorem minutes_change_sign : (leapNoon (-210)).isValid = true ∧ (leapNoon (-30)).isValid = true ∧
    parseIsoString 0 (leapNoon (-210)).toIsoString = some (leapNoon (-150)) ∧
    parseIsoString 0 (leapNoon (-30)).toIsoString = some (leapNoon 30) := by
  have hdate : parseDate (isoDate (leapNoon 0).date) = some (leapNoon 0).date :=
    (parseDate_isoDate _).mpr (by decide)
  refine ⟨by decide, by decide, ?_, ?_⟩
  · rw [parseIsoString_toIsoString (by decide), show (leapNoon (-210)).date = (leapNoon 0).date from
      rfl, hdate]
    decide
  · rw [parseIsoString_toIsoString (by decide), show (leapNoon (-30)).date = (leapNoon 0).date from
      rfl, hdate]
    decide

end DateTime

end Hatn.Common
