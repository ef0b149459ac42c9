import Hatn.Common.DateTimeEpoch

/-!
# Dates with times as numbers

A date with a time is stored as one number of 64 bits: the milliseconds since 1970 above the low
byte, and the timezone in quarters of an hour in seven bits of it.  The eighth bit of the low byte
marks the one number that would be zero, which stands for no date.

Packing and unpacking are inverse to one another (`unpack_pack`).  What is unpacked goes through
`fromEpochMs`, which refuses milliseconds in front of 1970, so a date with a time comes back if
and only if it has no milliseconds, or both its local time and its moment are in 1970 or later.
-/

namespace Hatn.Common.DateTime

/-- `pack`: shifted milliseconds leave the low byte free, so that the bits of the timezone are
added. -/
def pack (millis tzMinutes : Int) : Int :=
  if millis = 0 ∧ tzMinutes = 0 then 2 ^ 7
  else
    let tzUnits := castTo true .w8 (tzMinutes.tdiv 15)
    let tzPart := castTo false .w8 tzUnits % 2 ^ 7
    castTo true .w64 (millis * 2 ^ 8) + tzPart

/-- `unpack`: the shift to the right keeps the sign, and so does the sign of the seven bits. -/
def unpack (packed : Int) : Option (Int × Int) :=
  if packed = 0 then none
  else
    let millis := packed / 2 ^ 8
    let rawTz := packed % 2 ^ 7
    let rawTz := if 2 ^ 6 ≤ rawTz then rawTz + 2 ^ 7 else rawTz
    let tzUnits := castTo true .w8 rawTz
    some (millis, castTo true .w16 (tzUnits * 15))

def packDatetime (d : DateTime) : Option Int := d.toEpochMs.map fun millis => pack millis d.tz

def unpackDatetime (n : Int) : Option DateTime := do
  let unpacked ← unpack n
  fromEpochMs unpacked.1 unpacked.2

/-- `toNumber`; `none` is an exception. -/
def toNumber (d : DateTime) : Option Int := if !d.isValid then some 0 else packDatetime d

/-- `fromNumber`, where zero is a new object. -/
def fromNumber (defaultTz num : Int) : Option DateTime :=
  if num = 0 then some ⟨Date.null, Time.null, defaultTz⟩ else unpackDatetime num

/-! ### Packing and unpacking -/

theorem timezone_quarters {tz : Int} (h : isTimezoneValid tz = true) :
    ∃ q : Int, tz = 15 * q ∧ -48 ≤ q ∧ q ≤ 56 ∧ tz.tdiv 15 = q := by
  have hb := timezone_bounds h
  have ht := tdiv_tmod_bounds tz (show (0 : Int) < 15 by decide)
  rw [isTimezoneValid, Bool.and_eq_true, beq_iff_eq] at h
  exact ⟨tz.tdiv 15, by omega, by omega, by omega, rfl⟩

/-- The number of milliseconds and quarters of an hour. -/
theorem pack_eq {millis q : Int} (hms : millis.natAbs < 2 ^ 55) (hq : -48 ≤ q) (hq' : q ≤ 56)
    (hne : ¬ (millis = 0 ∧ q = 0)) : pack millis (15 * q) = millis * 2 ^ 8 + q % 2 ^ 7 := by
  have hq8 : castTo true .w8 ((15 * q).tdiv 15) = q := by
    rw [Int.mul_tdiv_cancel_left q (by decide)]
    exact castTo_of_natAbs_lt (by omega)
  have h64 : castTo true .w64 (millis * 2 ^ 8) = millis * 2 ^ 8 :=
    castTo_of_inRange (by simp only [InRange, if_true, Width.bits]; norm_num; omega)
  have hmod : castTo false .w8 q % 2 ^ 7 = q % 2 ^ 7 := by
    simp only [castTo, Bool.false_eq_true, if_false, Width.bits]
    norm_num
  rw [pack, if_neg (by omega)]
  simp only [hq8, h64, hmod]

/-- **What is packed is unpacked again.** -/
theorem unpack_pack {millis tz : Int} (hms : millis.natAbs < 2 ^ 55)
    (htz : isTimezoneValid tz = true) : unpack (pack millis tz) = some (millis, tz) := by
  obtain ⟨q, rfl, hq, hq', -⟩ := timezone_quarters htz
  by_cases h0 : millis = 0 ∧ q = 0
  · obtain ⟨rfl, rfl⟩ := h0
    decide
  · rw [pack_eq hms hq hq' h0, unpack, if_neg (by omega)]
    have hdiv : (millis * 2 ^ 8 + q % 2 ^ 7) / 2 ^ 8 = millis := by omega
    have hmod : (millis * 2 ^ 8 + q % 2 ^ 7) % 2 ^ 7 = q % 2 ^ 7 := by omega
    have hunits : castTo true .w8 (if 2 ^ 6 ≤ q % 2 ^ 7 then q % 2 ^ 7 + 2 ^ 7 else q % 2 ^ 7) = q := by
      have hcast : ∀ n : Int, n = q ∨ n = q + 2 ^ 8 → castTo true .w8 n = q := by
        rintro n (rfl | rfl)
        · exact castTo_of_natAbs_lt (by omega)
        · simp only [castTo, if_true, Width.bits]
          rw [show (q + 2 ^ 8 : Int) = q + ((2 ^ 8 : Nat) : Int) by norm_num, Int.add_bmod_right]
          exact Int.bmod_eq_of_le (by norm_num; omega) (by norm_num; omega)
      refine hcast _ ?_
      split <;> omega
    have htz16 : castTo true .w16 (q * 15) = 15 * q := by
      rw [Int.mul_comm]
      exact castTo_of_inRange (by simp only [InRange, if_true, Width.bits]; norm_num; omega)
    simp only [hdiv, hmod, hunits, htz16]

/-- No number of a date with a time is that of no date. -/
theorem pack_ne_zero {millis tz : Int} (hms : millis.natAbs < 2 ^ 55)
    (htz : isTimezoneValid tz = true) : pack millis tz ≠ 0 := by
  intro h
  have hunpack := unpack_pack hms htz
  rw [h, unpack, if_pos rfl] at hunpack
  cases hunpack

theorem pack_inj {millis tz millis' tz' : Int} (hms : millis.natAbs < 2 ^ 55)
    (htz : isTimezoneValid tz = true) (hms' : millis'.natAbs < 2 ^ 55)
    (htz' : isTimezoneValid tz' = true) (h : pack millis tz = pack millis' tz') :
    millis = millis' ∧ tz = tz' := by
  have hunpack := unpack_pack hms htz
  rw [h, unpack_pack hms' htz', Option.some.injEq, Prod.mk.injEq] at hunpack
  exact ⟨hunpack.1.symm, hunpack.2.symm⟩

/-! ### Dates with times -/

/-- The moments of the calendar are far within 55 bits. -/
theorem rounded_bounds {d : DateTime} {n : Int} (hd : d.isValid = true) (hn : d.localMs = some n) :
    (rounded n - d.tz * 60000).natAbs < 2 ^ 55 := by
  obtain ⟨-, htv, htz⟩ := isValid_parts hd
  obtain ⟨hdays, -⟩ := (exists_localMs_iff n d.tz).mp ⟨d, rfl, htv, hn⟩
  have hb := timezone_bounds htz
  have hfirst : firstDay = -208188 := by decide
  have hlast : lastDay = 2932896 := by decide
  rw [rounded]
  split <;> omega

theorem millisecond_eq {d : DateTime} {n : Int} (hn : d.localMs = some n) :
    (d.time.millisecond : Int) = n % 1000 := by
  obtain ⟨-, hday⟩ := localMs_eq_some_iff.mp hn
  have hu := d.time.millisecond_lt
  simp only [Time.msOfDay] at hday
  push_cast at hday
  omega

/-- What comes back of the number of a date with a time. -/
theorem fromNumber_toNumber {d : DateTime} {n : Int} (defaultTz : Int) (hd : d.isValid = true)
    (hn : d.localMs = some n) : (d.toNumber.bind (fromNumber defaultTz)) =
      fromEpochMs (rounded n - d.tz * 60000) d.tz := by
  obtain ⟨-, -, htz⟩ := isValid_parts hd
  have hms := rounded_bounds hd hn
  rw [toNumber, hd, packDatetime, toEpochMs_eq hd, hn]
  simp only [Bool.not_true, Bool.false_eq_true, if_false, Option.map_some, Option.bind_some]
  rw [fromNumber, if_neg (pack_ne_zero hms htz), unpackDatetime, unpack_pack hms htz]
  rfl

/-- A date with a time comes back from its number. -/
theorem fromNumber_toNumber_iff {d : DateTime} (defaultTz : Int) (hd : d.isValid = true) :
    d.toNumber.bind (fromNumber defaultTz) = some d ↔ ∃ n, d.localMs = some n ∧
      (d.time.millisecond = 0 ∨ 0 ≤ n ∧ 0 ≤ n - d.tz * 60000) := by
  obtain ⟨-, htv, htz⟩ := isValid_parts hd
  cases hn : d.localMs with
  | none =>
    rw [toNumber, hd, packDatetime, toEpochMs_eq hd, hn]
    simp
  | some n =>
    have hms := millisecond_eq hn
    rw [fromNumber_toNumber defaultTz hd hn, fromEpochMs_eq_some_iff, hn, Option.some.injEq]
    constructor
    · rintro ⟨hsign, -, -, -, hlocal⟩
      refine ⟨n, rfl, ?_⟩
      rw [rounded] at hsign hlocal
      split at hlocal <;> omega
    · rintro ⟨n', hn', h⟩
      obtain rfl : n = n' := Option.some.inj hn'
      rw [rounded_of (by omega)]
      exact ⟨by omega, htz, rfl, htv, by omega⟩

/-- **When numbers give dates with times back.**  Packing is undone by unpacking, and no two pairs
have one number or the number zero; a date with a time comes back if and only if the calendar
knows it, and it has no milliseconds or is not in front of 1970, in its own timezone and in
UTC. -/
theorem packed_exact_iff (millis tz millis' tz' defaultTz : Int) (d : DateTime) :
    (millis.natAbs < 2 ^ 55 → isTimezoneValid tz = true →
      unpack (pack millis tz) = some (millis, tz) ∧ pack millis tz ≠ 0) ∧
    (millis.natAbs < 2 ^ 55 → isTimezoneValid tz = true →
      millis'.natAbs < 2 ^ 55 → isTimezoneValid tz' = true → (millis, tz) ≠ (millis', tz') →
      pack millis tz ≠ pack millis' tz') ∧
    (d.isValid = true →
      (d.toNumber.bind (fromNumber defaultTz) = some d ↔ ∃ n, d.localMs = some n ∧
        (d.time.millisecond = 0 ∨ 0 ≤ n ∧ 0 ≤ n - d.tz * 60000))) := by
  refine ⟨fun hms htz => ⟨unpack_pack hms htz, pack_ne_zero hms htz⟩, ?_,
    fun hd => fromNumber_toNumber_iff defaultTz hd⟩
  intro hms htz hms' htz' hne heq
  obtain ⟨rfl, rfl⟩ := pack_inj hms htz hms' htz' heq
  exact hne rfl

/-- The first hours of 1970 with half a second, two hours east of the meridian. -/
def firstMorning : DateTime :=
  ⟨Date.epochDay, { halfSecond with hour := 1, hour_lt := by decide }, 120⟩

/-- The last hour of 1969 with half a second, two hours west of the meridian: the moment is in
1970. -/
def lastEvening : DateTime :=
  ⟨⟨1969, 12, 31, by decide, by decide, by decide⟩,
    { halfSecond with hour := 23, hour_lt := lastHour.time.hour_lt }, -120⟩

theorem packed_exact_sample :
    unpack (pack (-3599500) 120) = some (-3599500, 120) ∧ pack 0 0 ≠ pack 0 15 ∧
      lastHour.toNumber.bind (fromNumber 0) = some lastHour := by
  obtain ⟨hpack, -, hback⟩ := packed_exact_iff (-3599500) 120 0 0 0 lastHour
  obtain ⟨-, hdistinct, -⟩ := packed_exact_iff 0 0 0 15 0 lastHour
  refine ⟨(hpack (by decide) (by decide)).1,
    hdistinct (by decide) (by decide) (by decide) (by decide) (by decide),
    (hback (by decide)).mpr ⟨82800000, lastHour_localMs, ?_⟩⟩
  exact .inl rfl

/-- **Milliseconds around 1970 are refused or moved**: the one throws, the other comes back a
second later. -/
theorem milliseconds_lost : firstMorning.isValid = true ∧
    firstMorning.toNumber.bind (fromNumber 0) = none ∧ lastEvening.isValid = true ∧
    (∃ r, lastEvening.toNumber.bind (fromNumber 0) = some r ∧ r.time.second = 1) ∧
    lastEvening.time.second = 0 := by
  refine ⟨by decide, by decide, by decide, ?_, by decide⟩
  exact ⟨⟨lastEvening.date, ⟨23, 0, 1, 500, by decide, by decide, by decide, by decide⟩, -120⟩,
    by decide, rfl⟩

/-! ### Which numbers are accepted -/

/-- The milliseconds and the timezone of a number. -/
theorem unpack_eq {num : Int} (h : num ≠ 0) : unpack num = some (num / 256,
    (if 64 ≤ num % 128 then num % 128 - 128 else num % 128) * 15) := by
  have h8 : castTo true .w8 (if 2 ^ 6 ≤ num % 2 ^ 7 then num % 2 ^ 7 + 2 ^ 7 else num % 2 ^ 7) =
      if 64 ≤ num % 128 then num % 128 - 128 else num % 128 := by
    norm_num
    split
    · simp only [castTo, if_true, Width.bits]
      rw [show num % 128 + 128 = num % 128 - 128 + ((2 ^ 8 : Nat) : Int) by norm_num; ring,
        Int.add_bmod_right]
      exact Int.bmod_eq_of_le (by norm_num; omega) (by norm_num; omega)
    · exact castTo_of_natAbs_lt (by omega)
  have h16 : ∀ q : Int, -64 ≤ q → q < 64 → castTo true .w16 (q * 15) = q * 15 := by
    intro q hq hq'
    exact castTo_of_inRange (by simp only [InRange, if_true, Width.bits]; norm_num; omega)
  rw [unpack, if_neg h]
  simp only [h8]
  rw [h16 _ (by split <;> omega) (by split <;> omega)]
  rfl

theorem fromEpochMs_isSome_iff (v tz : Int) : (fromEpochMs v tz).isSome ↔
    (0 ≤ v ∨ v % 1000 = 0) ∧ isTimezoneValid tz = true ∧ Shown (v + tz * 60000) := by
  rw [Option.isSome_iff_exists, ← exists_localMs_iff _ tz]
  constructor
  · rintro ⟨r, hr⟩
    obtain ⟨hsign, htz, hrtz, htv, hlocal⟩ := fromEpochMs_eq_some_iff.mp hr
    exact ⟨hsign, htz, r, hrtz, htv, hlocal⟩
  · rintro ⟨hsign, htz, r, hrtz, htv, hlocal⟩
    exact ⟨r, fromEpochMs_eq_some_iff.mpr ⟨hsign, htz, hrtz, htv, hlocal⟩⟩

/-- **`accepts` tells for which numbers `fromNumber` returns**, with the days of the calendar. -/
theorem fromNumber_isSome (defaultTz num : Int) : (fromNumber defaultTz num).isSome =
    accepts (fun seconds => (makeDate (seconds / 86400)).isSome) num := by
  by_cases h0 : num = 0
  · rw [fromNumber, if_pos h0, accepts, if_pos h0]
    rfl
  · have hb := tdiv_tmod_bounds (num / 256) (show (0 : Int) < 1000 by decide)
    rw [fromNumber, if_neg h0, unpackDatetime, unpack_eq h0, accepts, if_neg h0, Bool.eq_iff_iff]
    simp only [Option.bind_eq_bind, Option.bind_some, Bool.and_eq_true, Bool.or_eq_true,
      decide_eq_true_eq, bne_iff_ne]
    rw [fromEpochMs_isSome_iff, makeDate_isSome_iff, Shown]
    generalize (if 64 ≤ num % 128 then num % 128 - 128 else num % 128) * 15 = tz
    constructor
    · rintro ⟨hsign, htz, hdays, hnull⟩
      exact ⟨⟨⟨by omega, by omega⟩, by omega⟩, htz⟩
    · rintro ⟨⟨⟨hdays, hms⟩, hnull⟩, htz⟩
      exact ⟨by omega, htz, by omega, by omega⟩

end Hatn.Common.DateTime
