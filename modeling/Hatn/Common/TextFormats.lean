import Hatn.Common.DateTimeEpoch

/-!
# Text formats of dates and times

A date is written in eleven formats: as a number, or as its three components in one of three
orders with one of three delimiters, the year with four digits or with two.  A time is written
with three precisions and as a number.  The parsers split the text at the delimiters and cast
what `std::stoi` reads to the types of the components before they look at it.

A date of the calendar is read again in each format, the short ones for the years of their
century.  Two precisions of times lose midnight and what is written as midnight, and the number
of a time with milliseconds is not read at all.  A text is read as the numbers that are written
in it, unless one of them is beyond the type of its component and the remainder happens to be a
date.
-/

namespace Hatn.Common

open Hatn.Order

namespace Date

/-- `Date::Format` -/
inductive Format
  | iso | isoSlash | number | europeDot | usDot | europeSlash | usSlash | europeShortDot
  | usShortDot | europeShortSlash | usShortSlash
  deriving DecidableEq, Repr

/-- Three texts with a delimiter between them. -/
def joined (delimiter : UInt8) (a b c : List UInt8) : List UInt8 :=
  a ++ delimiter :: (b ++ delimiter :: c)

/-- `toString` in a format. -/
protected def toString (d : Date) (format : Format) : List UInt8 :=
  if !d.isValid then invalidStr
  else match format with
    | .number => fmtDec 4 d.year ++ fmtDec 2 d.month ++ fmtDec 2 d.day
    | .iso => joined 0x2d (fmtDec 4 d.year) (fmtDec 2 d.month) (fmtDec 2 d.day)
    | .isoSlash => joined 0x2f (fmtDec 4 d.year) (fmtDec 2 d.month) (fmtDec 2 d.day)
    | .europeDot => joined 0x2e (fmtDec 2 d.day) (fmtDec 2 d.month) (fmtDec 4 d.year)
    | .usDot => joined 0x2e (fmtDec 2 d.month) (fmtDec 2 d.day) (fmtDec 4 d.year)
    | .europeShortDot => joined 0x2e (fmtDec 2 d.day) (fmtDec 2 d.month) (fmtDec 2 (d.year % 100))
    | .usShortDot => joined 0x2e (fmtDec 2 d.month) (fmtDec 2 d.day) (fmtDec 2 (d.year % 100))
    | .europeSlash => joined 0x2f (fmtDec 2 d.day) (fmtDec 2 d.month) (fmtDec 4 d.year)
    | .usSlash => joined 0x2f (fmtDec 2 d.month) (fmtDec 2 d.day) (fmtDec 4 d.year)
    | .europeShortSlash => joined 0x2f (fmtDec 2 d.day) (fmtDec 2 d.month) (fmtDec 2 (d.year % 100))
    | .usShortSlash => joined 0x2f (fmtDec 2 d.month) (fmtDec 2 d.day) (fmtDec 2 (d.year % 100))

/-- What the parser knows of a format: the delimiter, the place of each component and whether
the year is short. -/
structure Layout where
  delimiter : UInt8
  yearPos : Nat
  monthPos : Nat
  dayPos : Nat
  shortYear : Bool

def Format.layout : Format → Layout
  | iso => ⟨0x2d, 0, 1, 2, false⟩
  | number => ⟨0x2d, 0, 1, 2, false⟩
  | isoSlash => ⟨0x2f, 0, 1, 2, false⟩
  | europeShortDot => ⟨0x2e, 2, 1, 0, true⟩
  | europeDot => ⟨0x2e, 2, 1, 0, false⟩
  | usShortDot => ⟨0x2e, 2, 0, 1, true⟩
  | usDot => ⟨0x2e, 2, 0, 1, false⟩
  | europeShortSlash => ⟨0x2f, 2, 1, 0, true⟩
  | europeSlash => ⟨0x2f, 2, 1, 0, false⟩
  | usShortSlash => ⟨0x2f, 2, 0, 1, true⟩
  | usSlash => ⟨0x2f, 2, 0, 1, false⟩

/-- A number that is not negative. -/
def natStoi (s : List UInt8) : Option Nat := do
  let val ← stoi s
  if val < 0 then none else some val.toNat

/-- The numbers of the year, the month and the day that are written in a text. -/
def written (s : List UInt8) (format : Format) (baseShortYear : Nat) : Option (Nat × Nat × Nat) :=
  if format = .number then do
    let num ← natStoi s
    return (num / 10000, (num - num / 10000 * 10000) / 100, num % 100)
  else
    let layout := format.layout
    let parts := split [layout.delimiter] s
    if parts.length ≠ 3 then none
    else do
      let vals ← parts.mapM natStoi
      let year := vals.getD layout.yearPos 0
      return (if layout.shortYear then baseShortYear + year else year,
        vals.getD layout.monthPos 0, vals.getD layout.dayPos 0)

/-- `parse`: the components are cast to the types of the members before they are validated, but
for those of a number, which are cast behind it. -/
def parse (s : List UInt8) (format : Format) (baseShortYear : Nat) : Option Date :=
  if s.isEmpty then some null
  else do
    let ymd ← written s format baseShortYear
    if format = .number then ofValid ymd.1 ymd.2.1 ymd.2.2
    else ofValid (ymd.1 % 2 ^ 16) (ymd.2.1 % 2 ^ 8) (ymd.2.2 % 2 ^ 8)

/-- In the format of numbers this is the parser of numbers. -/
theorem parse_number (s : List UInt8) (base : Nat) : parse s .number base = parseNumber s := by
  simp only [parse, parseNumber, written, natStoi, set, if_true, Option.bind_eq_bind,
    Option.pure_def]
  split
  next => rfl
  next =>
    cases stoi s with
    | none => rfl
    | some num =>
      simp only [Option.bind_some]
      split <;> rfl

/-- In the ISO format it is the parser of ISO dates. -/
theorem parse_iso (s : List UInt8) (base : Nat) : parse s .iso base = parseIso s := by
  have hnat : ∀ p : List UInt8, natStoi p = (stoi p).bind fun val =>
      if val < 0 then none else some val.toNat := fun _ => rfl
  simp only [parse, parseIso, written, Format.layout, reduceCtorEq, if_false, Option.bind_eq_bind]
  split
  next => rfl
  next =>
    rcases hparts : split [0x2d] s with _ | ⟨a, _ | ⟨b, _ | ⟨c, _ | ⟨e, l⟩⟩⟩⟩
    case cons.cons.cons.nil =>
      simp only [List.length_cons, List.length_nil, List.mapM_cons, List.mapM_nil, hnat]
      cases stoi a <;> cases stoi b <;> cases stoi c
      case some.some.some =>
        simp
        split <;> split <;> split <;> simp_all
      all_goals simp
    all_goals simp

/-! ### Dates are read again -/

theorem natStoi_fmtDec {w n : Nat} (hw : 0 < w) (hn : n < 2 ^ 31) :
    natStoi (fmtDec w n) = some n := by
  rw [natStoi, stoi_fmtDec hw hn]
  simp only [Option.bind_eq_bind, Option.bind_some]
  rw [if_neg (by omega), Int.toNat_natCast]

theorem split_joined {delimiter : UInt8} (hd : isDigit delimiter = false) (u v w k m n : Nat) :
    split [delimiter] (joined delimiter (fmtDec u k) (fmtDec v m) (fmtDec w n)) =
      [fmtDec u k, fmtDec v m, fmtDec w n] := by
  have hno : ∀ c ∈ [delimiter], isDigit c = false := List.forall_mem_singleton.mpr hd
  have hyes : [delimiter].contains delimiter = true := by simp
  rw [joined, split_append_cons (not_delimiter hno) hyes,
    split_append_cons (not_delimiter hno) hyes, split_singleton (not_delimiter hno)]

theorem delimiter_not_digit (format : Format) : isDigit format.layout.delimiter = false := by
  cases format <;> decide

/-- Three numbers between delimiters are read. -/
theorem written_joined {format : Format} (hf : format ≠ .number) {u v w k m n : Nat} (hu : 0 < u)
    (hv : 0 < v) (hw : 0 < w) (hk : k < 2 ^ 31) (hm : m < 2 ^ 31) (hn : n < 2 ^ 31) (base : Nat) :
    written (joined format.layout.delimiter (fmtDec u k) (fmtDec v m) (fmtDec w n)) format base =
      some (if format.layout.shortYear then base + [k, m, n].getD format.layout.yearPos 0
          else [k, m, n].getD format.layout.yearPos 0,
        [k, m, n].getD format.layout.monthPos 0, [k, m, n].getD format.layout.dayPos 0) := by
  have hvals : [fmtDec u k, fmtDec v m, fmtDec w n].mapM natStoi = some [k, m, n] := by
    simp [natStoi_fmtDec hu hk, natStoi_fmtDec hv hm, natStoi_fmtDec hw hn]
  rw [written, if_neg hf]
  simp only [split_joined (delimiter_not_digit format), hvals]
  rfl

/-- Whether a format has the last two digits of the year only. -/
def Format.isShort (format : Format) : Bool := format.layout.shortYear

/-- **The numbers that are written of a date.** -/
theorem written_toString {d : Date} (hd : d.isValid = true) (format : Format) (base : Nat) :
    written (d.toString format) format base =
      some (if format.isShort then base + d.year % 100 else d.year, d.month, d.day) := by
  have hy := d.year_lt
  have hm := d.month_le
  have hday := d.day_le
  by_cases hf : format = .number
  · subst hf
    have hs : d.toString .number = fmtDec 8 d.toNumber := by
      rw [← serialize_eq hd, serialize, Date.toString]
    have hnum : d.toNumber < 2 ^ 31 := by
      simp only [toNumber]
      omega
    rw [hs, written, if_pos rfl, natStoi_fmtDec (by omega) hnum]
    simp only [Option.bind_eq_bind, Option.bind_some, Option.pure_def, Option.some.injEq,
      Prod.mk.injEq, toNumber]
    exact ⟨by change _ = d.year; omega, by omega, by omega⟩
  · have key : ∀ {u v w k m n : Nat}, 0 < u → 0 < v → 0 < w → k < 2 ^ 31 → m < 2 ^ 31 →
        n < 2 ^ 31 → _ := fun hu hv hw hk hm hn =>
      written_joined hf hu hv hw hk hm hn base
    cases format with
    | number => exact absurd rfl hf
    | _ =>
      simp only [Date.toString, hd, Bool.not_true, Bool.false_eq_true, if_false]
      exact key (by omega) (by omega) (by omega) (by omega) (by omega) (by omega)

theorem ofValid_eq_some_iff {year month day : Nat} {d : Date} : ofValid year month day = some d ↔
    validate year month day = true ∧ d.year = year % 2 ^ 16 ∧ d.month = month ∧ d.day = day := by
  rw [ofValid]
  split
  next h =>
    rw [Option.some.injEq]
    constructor
    · rintro rfl
      exact ⟨h, rfl, rfl, rfl⟩
    · rintro ⟨-, hy, hm, hd⟩
      obtain ⟨y, m, day', _, _, _⟩ := d
      simp only at hy hm hd
      subst hy hm hd
      rfl
  next h =>
    constructor
    · intro hd
      cases hd
    · exact fun hd => absurd hd.1 h

theorem toString_isEmpty {d : Date} (hd : d.isValid = true) (format : Format) :
    (d.toString format).isEmpty = false := by
  have hyear : fmtDec 4 d.year ≠ [] := List.isEmpty_eq_false_iff.mp (fmtDec_isEmpty (by decide) _)
  cases format <;> simp [Date.toString, hd, joined, hyear]

/-- A date is read again if and only if it is one of the calendar, and one of the century when
the year is short. -/
theorem parse_toString_iff {d : Date} (hd : d.isValid = true) (format : Format) (base : Nat) :
    parse (d.toString format) format base = some d ↔
      DateTime.InCalendar d ∧ (format.isShort = true → (base + d.year % 100) % 2 ^ 16 = d.year) := by
  have hy := d.year_lt
  have hm := d.month_le
  have hday := d.day_le
  rw [parse, toString_isEmpty hd, written_toString hd]
  simp only [Bool.false_eq_true, if_false, Option.bind_eq_bind, Option.bind_some]
  by_cases hshort : format.isShort = true
  · have hf : format ≠ .number := by
      rintro rfl
      cases hshort
    simp only [if_pos hshort, if_neg hf]
    rw [Nat.mod_eq_of_lt (show d.month < 2 ^ 8 by omega),
      Nat.mod_eq_of_lt (show d.day < 2 ^ 8 by omega), ofValid_eq_some_iff, DateTime.InCalendar]
    constructor
    · rintro ⟨hv, heq, -, -⟩
      rw [Nat.mod_mod] at heq
      rw [← heq] at hv
      exact ⟨hv, fun _ => heq.symm⟩
    · rintro ⟨hv, heq⟩
      rw [heq hshort]
      exact ⟨hv, (Nat.mod_eq_of_lt hy).symm, rfl, rfl⟩
  · simp only [if_neg hshort]
    have hread : (if format = .number then ofValid d.year d.month d.day
        else ofValid (d.year % 2 ^ 16) (d.month % 2 ^ 8) (d.day % 2 ^ 8)) =
          ofValid d.year d.month d.day := by
      rw [Nat.mod_eq_of_lt hy, Nat.mod_eq_of_lt (show d.month < 2 ^ 8 by omega),
        Nat.mod_eq_of_lt (show d.day < 2 ^ 8 by omega), ite_self]
    rw [hread, ofValid_eq_some_iff, DateTime.InCalendar]
    constructor
    · rintro ⟨hv, -⟩
      exact ⟨hv, fun h => absurd h hshort⟩
    · rintro ⟨hv, -⟩
      exact ⟨hv, (Nat.mod_eq_of_lt hy).symm, rfl, rfl⟩

/-! ### What texts denote -/

/-- Numbers that are read as they are written: they fit the types of the components, or what is
left of them is no date. -/
def Kept (format : Format) (year month day : Nat) : Prop :=
  if format = .number then year < 2 ^ 16 ∨ validate year month day = false
  else (year < 2 ^ 16 ∧ month < 2 ^ 8 ∧ day < 2 ^ 8) ∨
    validate (year % 2 ^ 16) (month % 2 ^ 8) (day % 2 ^ 8) = false

/-- A text that is accepted denotes the numbers that are written in it if and only if these are
kept. -/
theorem parse_denotes_iff (s : List UInt8) (format : Format) (base : Nat) :
    (∀ d, parse s format base = some d →
      s = [] ∨ written s format base = some (d.year, d.month, d.day)) ↔
    s = [] ∨ ∀ year month day, written s format base = some (year, month, day) →
      Kept format year month day := by
  by_cases hs : s = []
  · exact ⟨fun _ => .inl hs, fun _ _ _ => .inl hs⟩
  have hempty : s.isEmpty = false := List.isEmpty_eq_false_iff.mpr hs
  simp only [hs, false_or, parse, hempty, Bool.false_eq_true, if_false, Option.bind_eq_bind]
  cases hw : written s format base with
  | none => simp
  | some ymd =>
    obtain ⟨y, m, day⟩ := ymd
    simp only [Option.bind_some, Option.some.injEq, Prod.mk.injEq, and_imp]
    rw [show (∀ year month day', y = year → m = month → day = day' → Kept format year month day') ↔
      Kept format y m day from ⟨fun h => h y m day rfl rfl rfl,
        fun h _ _ _ e1 e2 e3 => e1 ▸ e2 ▸ e3 ▸ h⟩, Kept]
    split
    · rw [Bool.eq_false_iff]
      constructor
      · intro h
        by_contra hc
        rw [not_or, not_not] at hc
        have hread := h ⟨y % 2 ^ 16, m, day, Nat.mod_lt _ (by decide),
          (bounds_of_validate hc.2).1, (bounds_of_validate hc.2).2⟩
          (ofValid_eq_some_iff.mpr ⟨hc.2, rfl, rfl, rfl⟩)
        have hyear := hread.1
        simp only at hyear
        omega
      · intro h d hd
        obtain ⟨hv, hy, hm, hday⟩ := ofValid_eq_some_iff.mp hd
        have hlt := h.resolve_right fun hn => hn hv
        rw [Nat.mod_eq_of_lt hlt] at hy
        exact ⟨hy.symm, hm.symm, hday.symm⟩
    · rw [Bool.eq_false_iff]
      constructor
      · intro h
        by_contra hc
        rw [not_or, not_not] at hc
        obtain ⟨hbig, hv⟩ := hc
        obtain ⟨e1, e2, e3⟩ := h ⟨y % 2 ^ 16 % 2 ^ 16, m % 2 ^ 8, day % 2 ^ 8,
          Nat.mod_lt _ (by decide), (bounds_of_validate hv).1, (bounds_of_validate hv).2⟩
          (ofValid_eq_some_iff.mpr ⟨hv, rfl, rfl, rfl⟩)
        simp only at e1 e2 e3
        omega
      · intro h d hd
        obtain ⟨hv, hy, hm, hday⟩ := ofValid_eq_some_iff.mp hd
        obtain ⟨h1, h2, h3⟩ := h.resolve_right fun hn => hn hv
        rw [Nat.mod_eq_of_lt h1, Nat.mod_eq_of_lt h1] at hy
        rw [Nat.mod_eq_of_lt h2] at hm
        rw [Nat.mod_eq_of_lt h3] at hday
        exact ⟨hy.symm, hm.symm, hday.symm⟩

end Date

namespace Time

/-- `Time::FormatPrecision` -/
inductive FormatPrecision
  | minute | second | millisecond | number
  deriving DecidableEq, Repr

/-- `toString` with a precision, in 24 hours. -/
protected def toString (t : Time) (precision : FormatPrecision) : List UInt8 :=
  let seconds := fmtDec 2 t.hour ++ 0x3a :: (fmtDec 2 t.minute ++ 0x3a :: fmtDec 2 t.second)
  let number := fmtDec 2 t.hour ++ fmtDec 2 t.minute ++ fmtDec 2 t.second
  if !t.isValid then invalidStr
  else match precision with
    | .second => seconds
    | .minute => fmtDec 2 t.hour ++ 0x3a :: fmtDec 2 t.minute
    | .millisecond => if 0 < t.millisecond then seconds ++ 0x2e :: fmtDec 3 t.millisecond else seconds
    | .number => if 0 < t.millisecond then number ++ 0x2e :: fmtDec 3 t.millisecond else number

/-- `parse` with the precision of seconds. -/
def parseSecond (s : List UInt8) : Option Time :=
  match split [0x3a, 0x2e] s with
  | [hour, minute, second] => do
    let hour ← stoi hour
    let minute ← stoi minute
    let second ← stoi second
    if validate hour minute second 0 then ofNumbers hour minute second 0 else none
  | _ => none

/-- `parse` with the precision of minutes. -/
def parseMinute (s : List UInt8) : Option Time :=
  match split [0x3a, 0x2e] s with
  | [hour, minute] => do
    let hour ← stoi hour
    let minute ← stoi minute
    if validate hour minute 0 0 then ofNumbers hour minute 0 0 else none
  | _ => none

/-- `parse` with a precision, in 24 hours. -/
def parse (s : List UInt8) (precision : FormatPrecision) : Option Time :=
  if s.isEmpty then some null
  else match precision with
    | .second => parseSecond s
    | .minute => parseMinute s
    | .millisecond => parseMillisecond s
    | .number => parseNumber s

/-- The components that are written with a precision. -/
def restrict (t : Time) : FormatPrecision → Time
  | .minute => ⟨t.hour, t.minute, 0, 0, t.hour_lt, t.minute_lt, null.second_lt, null.millisecond_lt⟩
  | .second => ⟨t.hour, t.minute, t.second, 0, t.hour_lt, t.minute_lt, t.second_lt, null.millisecond_lt⟩
  | .millisecond => t
  | .number => t

/-! ### Times are read again -/

theorem toString_isEmpty {t : Time} (ht : t.isValid = true) (precision : FormatPrecision) :
    (t.toString precision).isEmpty = false := by
  have hhour : fmtDec 2 t.hour ≠ [] := List.isEmpty_eq_false_iff.mp (fmtDec_isEmpty (by decide) _)
  simp only [Time.toString, ht, Bool.not_true, Bool.false_eq_true, if_false]
  cases precision with
  | minute => simp
  | second => simp
  | millisecond =>
    simp only
    split <;> simp
  | number =>
    simp only
    split <;> simp [hhour]

theorem clock_delimiters : ∀ c ∈ [(0x3a : UInt8), 0x2e], isDigit c = false :=
  List.forall_mem_cons.mpr ⟨by decide, List.forall_mem_singleton.mpr (by decide)⟩

/-- Numbers that validate make the time that has them. -/
theorem ofNumbers_if (t : Time) : (if validate t.hour t.minute t.second t.millisecond then
    ofNumbers t.hour t.minute t.second t.millisecond else none) =
      if t.isValid then some t else none := by
  rw [DateTime.time_validate_eq]
  split
  next h => rw [DateTime.ofNumbers_eq (by rw [DateTime.time_validate_eq, h])]
  next => rfl

theorem parseMinute_toString {t : Time} (ht : t.isValid = true) :
    parseMinute (t.toString .minute) =
      if (t.restrict .minute).isValid then some (t.restrict .minute) else none := by
  have hh := t.hour_lt
  have hm := t.minute_lt
  have hs : split [0x3a, 0x2e] (t.toString .minute) = [fmtDec 2 t.hour, fmtDec 2 t.minute] := by
    simp only [Time.toString, ht, Bool.not_true, Bool.false_eq_true, if_false]
    rw [split_append_cons (not_delimiter clock_delimiters) (by decide),
      split_singleton (not_delimiter clock_delimiters)]
  rw [parseMinute, hs, ← ofNumbers_if]
  simp only
  rw [stoi_fmtDec (by omega) (by omega), stoi_fmtDec (by omega) (by omega)]
  rfl

theorem parseSecond_toString {t : Time} (ht : t.isValid = true) :
    parseSecond (t.toString .second) =
      if (t.restrict .second).isValid then some (t.restrict .second) else none := by
  have hh := t.hour_lt
  have hm := t.minute_lt
  have hsec := t.second_lt
  have hs : split [0x3a, 0x2e] (t.toString .second) =
      [fmtDec 2 t.hour, fmtDec 2 t.minute, fmtDec 2 t.second] := by
    simp only [Time.toString, ht, Bool.not_true, Bool.false_eq_true, if_false]
    rw [split_append_cons (not_delimiter clock_delimiters) (by decide),
      split_append_cons (not_delimiter clock_delimiters) (by decide),
      split_singleton (not_delimiter clock_delimiters)]
  rw [parseSecond, hs, ← ofNumbers_if]
  simp only
  rw [stoi_fmtDec (by omega) (by omega), stoi_fmtDec (by omega) (by omega),
    stoi_fmtDec (by omega) (by omega)]
  rfl

theorem toString_millisecond {t : Time} (ht : t.isValid = true) :
    t.toString .millisecond = DateTime.isoTime t := by
  simp only [Time.toString, ht, Bool.not_true, Bool.false_eq_true, if_false, DateTime.isoTime]
  split <;> simp

theorem toString_number {t : Time} (ht : t.isValid = true) :
    t.toString .number = fmtDec 6 t.seconds ++ t.fraction := by
  have hh := t.hour_lt
  have hm := t.minute_lt
  have hs := t.second_lt
  have hseconds : t.seconds < 10 ^ 6 := by
    simp only [seconds]
    omega
  have hserialize : t.toString .number = t.serialize := by
    simp only [Time.toString, serialize, List.append_assoc]
  rw [hserialize, serialize_eq ht, fmtDec, padded_of_lt (by decide) hseconds]

theorem set_seconds {t : Time} (h : t.millisecond = 0) : set (t.seconds * 1000) = some t := by
  have hh := t.hour_lt
  have hm := t.minute_lt
  have hs := t.second_lt
  have hhour : t.seconds * 1000 / 10000000 = t.hour := by
    simp only [seconds]
    omega
  have hminute : (t.seconds * 1000 - t.hour * 10000000) / 100000 = t.minute := by
    simp only [seconds]
    omega
  have hsecond : (t.seconds * 1000 - t.hour * 10000000 - t.minute * 100000) / 1000 = t.second := by
    simp only [seconds]
    omega
  rw [set]
  simp only [hhour, hminute, hsecond, Nat.mul_mod_left]
  rw [← h, DateTime.ofBounds_eq]

/-- A number with milliseconds has two parts, of which the code reads a third one. -/
theorem parseNumber_toString {t : Time} (ht : t.isValid = true) :
    parseNumber (t.toString .number) = if t.millisecond = 0 then some t else none := by
  have hseconds : t.seconds < 2 ^ 31 := by
    have hh := t.hour_lt
    have hm := t.minute_lt
    have hs := t.second_lt
    simp only [seconds]
    omega
  rw [parseNumber, toString_isEmpty ht, toString_number ht, fraction, if_neg Bool.false_ne_true]
  by_cases h : 0 < t.millisecond
  · rw [if_pos h, split_append_cons (not_delimiter clock_delimiters) (by decide),
      split_singleton (not_delimiter clock_delimiters), if_neg (by omega)]
    simp only [List.headD_cons, stoi_fmtDec (by decide : 0 < 6) hseconds,
      Option.bind_eq_bind, Option.bind_some, List.length_cons, List.length_nil]
    split
    · rfl
    · cases set _ <;> rfl
  · have h0 : t.millisecond = 0 := by omega
    rw [if_neg h, List.append_nil, split_singleton (not_delimiter clock_delimiters), if_pos h0]
    simp only [List.headD_cons, stoi_fmtDec (by decide : 0 < 6) hseconds,
      Option.bind_eq_bind, Option.bind_some, List.length_cons, List.length_nil, Int.toNat_natCast,
      set_seconds h0]
    rw [if_neg (by omega)]
    rfl

/-- A time is read again with a precision if and only if what is written is not midnight, and
there are no milliseconds in a number. -/
theorem parse_toString_iff {t : Time} (ht : t.isValid = true) (precision : FormatPrecision) :
    parse (t.toString precision) precision = some (t.restrict precision) ↔
      (t.restrict precision).isValid = true ∧ (precision = .number → t.millisecond = 0) := by
  have hempty := toString_isEmpty ht precision
  simp only [parse, hempty, Bool.false_eq_true, if_false]
  cases precision with
  | minute =>
    simp only [parseMinute_toString ht]
    simp
  | second =>
    simp only [parseSecond_toString ht]
    simp
  | millisecond =>
    simp only [toString_millisecond ht, DateTime.parseMillisecond_isoTime, restrict,
      DateTime.time_validate_eq, ht]
    simp
  | number =>
    simp only [parseNumber_toString ht, restrict, ht]
    simp

end Time

/-! ### All formats -/

/-- **When texts keep dates and times.**  A date comes back from its text if and only if it is one
of the calendar, and of this century in a short format.  A time comes back with the components
that are written if and only if these are not midnight, and a number has no milliseconds.  A text
of a date denotes the numbers that are written in it if and only if these fit their types, or what
is left of them is no date. -/
theorem textFormats_exact_iff (d : Date) (format : Date.Format) (t : Time)
    (precision : Time.FormatPrecision) (s : List UInt8) (baseShortYear : Nat) :
    (d.isValid = true →
      (Date.parse (d.toString format) format 2000 = some d ↔
        DateTime.InCalendar d ∧ (format.isShort = true → 2000 ≤ d.year ∧ d.year ≤ 2099))) ∧
    (t.isValid = true →
      (Time.parse (t.toString precision) precision = some (t.restrict precision) ↔
        (t.restrict precision).isValid = true ∧ (precision = .number → t.millisecond = 0))) ∧
    ((∀ d', Date.parse s format baseShortYear = some d' →
        s = [] ∨ Date.written s format baseShortYear = some (d'.year, d'.month, d'.day)) ↔
      s = [] ∨ ∀ year month day, Date.written s format baseShortYear = some (year, month, day) →
        Date.Kept format year month day) := by
  refine ⟨fun hd => ?_, fun ht => Time.parse_toString_iff ht precision,
    Date.parse_denotes_iff s format baseShortYear⟩
  have hcentury : (2000 + d.year % 100) % 2 ^ 16 = d.year ↔ 2000 ≤ d.year ∧ d.year ≤ 2099 := by
    omega
  rw [Date.parse_toString_iff hd, hcentury]

/-- The leap day of 2024. -/
def leapDay : Date := (DateTime.leapNoon 0).date

/-- Half a second behind noon. -/
def halfPastNoon : Time :=
  { DateTime.halfSecond with hour := 12, hour_lt := (DateTime.leapNoon 0).time.hour_lt }

/-- Half a minute behind midnight. -/
def halfPastMidnight : Time := { Time.null with second := 30, second_lt := by decide }

theorem textFormats_exact_sample :
    Date.parse (leapDay.toString .usShortDot) .usShortDot 2000 = some leapDay ∧
      Time.parse (halfPastNoon.toString .second) .second = some (halfPastNoon.restrict .second) := by
  obtain ⟨hdate, htime, -⟩ := textFormats_exact_iff leapDay .usShortDot halfPastNoon .second [] 0
  exact ⟨(hdate (by decide)).mpr ⟨by decide, fun _ => ⟨by decide, by decide⟩⟩,
    (htime (by decide)).mpr ⟨by decide, fun h => by cases h⟩⟩

/-- **A month is reduced and times are refused**: `2024-257-01` is read as the first of january,
half a minute past midnight is not read with minutes, and half a second past noon not as a
number. -/
theorem month_reduced_times_refused :
    (Date.written [0x32, 0x30, 0x32, 0x34, 0x2d, 0x32, 0x35, 0x37, 0x2d, 0x30, 0x31] .iso 2000 =
        some (2024, 257, 1) ∧
      Date.parse [0x32, 0x30, 0x32, 0x34, 0x2d, 0x32, 0x35, 0x37, 0x2d, 0x30, 0x31] .iso 2000 =
        some ⟨2024, 1, 1, by decide, by decide, by decide⟩) ∧
      Time.parse (halfPastMidnight.toString .minute) .minute = none ∧
      Time.parse (halfPastNoon.toString .number) .number = none := by
  refine ⟨⟨by decide +kernel, by decide +kernel⟩, ?_, ?_⟩
  · simp only [Time.parse, Time.toString_isEmpty (show halfPastMidnight.isValid = true by decide),
      Time.parseMinute_toString (show halfPastMidnight.isValid = true by decide)]
    decide
  · simp only [Time.parse, Time.toString_isEmpty (show halfPastNoon.isValid = true by decide),
      Time.parseNumber_toString (show halfPastNoon.isValid = true by decide)]
    decide

end Hatn.Common
