import Hatn.Common.DateTime
import Hatn.Common.MachineInt
import Mathlib.Tactic.Ring

/-!
# Arithmetic on times of the day

`addHours`, `addMinutes`, `addSeconds` and `addMilliseconds` each add to a component of a time
and carry what is too much into the next larger one: the quotient first, then a single step,
since the rest of a division has the sign of the number.  `add_modular` says that all of them
go on by their unit on the milliseconds of the day, modulo a day, and that they are undone by
the opposite number.

A component is stored in 8 or 16 bits.  The time carries the bounds of its components, so the
casts are exact where a time can be built at all.
-/

namespace Hatn.Common.Time

/-- The milliseconds since midnight. -/
def msOfDay (t : Time) : Nat := ((t.hour * 60 + t.minute) * 60 + t.second) * 1000 + t.millisecond

theorem msOfDay_lt (t : Time) : t.msOfDay < 86400000 := by
  have hh := t.hour_lt
  have hm := t.minute_lt
  have hs := t.second_lt
  have hu := t.millisecond_lt
  simp only [msOfDay]
  omega

theorem msOfDay_inj {a b : Time} (h : a.msOfDay = b.msOfDay) : a = b := by
  obtain ⟨h1, m1, s1, u1, _, _, _, _⟩ := a
  obtain ⟨h2, m2, s2, u2, _, _, _, _⟩ := b
  simp only [msOfDay] at h
  have e4 : u1 = u2 := by omega
  have e3 : s1 = s2 := by omega
  have e2 : m1 = m2 := by omega
  have e1 : h1 = h2 := by omega
  subst e1 e2 e3 e4
  rfl

/-! ### Storing a component -/

def withHour (t : Time) (hour : Int) (h : 0 ≤ hour ∧ hour < 24) : Time :=
  { t with hour := hour.toNat, hour_lt := by omega }

def withMinute (t : Time) (minute : Int) (h : 0 ≤ minute ∧ minute < 60) : Time :=
  { t with minute := minute.toNat, minute_lt := by omega }

def withSecond (t : Time) (second : Int) (h : 0 ≤ second ∧ second < 60) : Time :=
  { t with second := second.toNat, second_lt := by omega }

def withMillisecond (t : Time) (ms : Int) (h : 0 ≤ ms ∧ ms < 1000) : Time :=
  { t with millisecond := ms.toNat, millisecond_lt := by omega }

@[simp] theorem withMinute_second (t : Time) {minute : Int} (h : 0 ≤ minute ∧ minute < 60) :
    (t.withMinute minute h).second = t.second := rfl

@[simp] theorem withMinute_millisecond (t : Time) {minute : Int} (h : 0 ≤ minute ∧ minute < 60) :
    (t.withMinute minute h).millisecond = t.millisecond := rfl

@[simp] theorem withSecond_millisecond (t : Time) {second : Int} (h : 0 ≤ second ∧ second < 60) :
    (t.withSecond second h).millisecond = t.millisecond := rfl

theorem msOfDay_withHour (t : Time) {hour : Int} (h : 0 ≤ hour ∧ hour < 24) :
    ((t.withHour hour h).msOfDay : Int) = t.msOfDay + (hour - t.hour) * 3600000 := by
  simp only [msOfDay, withHour]
  omega

theorem msOfDay_withMinute (t : Time) {minute : Int} (h : 0 ≤ minute ∧ minute < 60) :
    ((t.withMinute minute h).msOfDay : Int) = t.msOfDay + (minute - t.minute) * 60000 := by
  simp only [msOfDay, withMinute]
  omega

theorem msOfDay_withSecond (t : Time) {second : Int} (h : 0 ≤ second ∧ second < 60) :
    ((t.withSecond second h).msOfDay : Int) = t.msOfDay + (second - t.second) * 1000 := by
  simp only [msOfDay, withSecond]
  omega

theorem msOfDay_withMillisecond (t : Time) {ms : Int} (h : 0 ≤ ms ∧ ms < 1000) :
    ((t.withMillisecond ms h).msOfDay : Int) = t.msOfDay + (ms - t.millisecond) := by
  simp only [msOfDay, withMillisecond]
  omega

/-! ### The four operations -/

theorem hour_sum_bounds (n : Int) : -24 < n.tmod 24 ∧ n.tmod 24 < 24 :=
  ⟨(tdiv_tmod_bounds n (by decide)).2.1, (tdiv_tmod_bounds n (by decide)).2.2.1⟩

def addHours (t : Time) (value : Int) : Time :=
  let hour := (toInt (t.hour + value)).tmod 24
  if h : hour < 0 then
    t.withHour (hour + 24) (by have hb := hour_sum_bounds (toInt (t.hour + value)); omega)
  else t.withHour hour (by have hb := hour_sum_bounds (toInt (t.hour + value)); omega)

def addMinutes (t : Time) (value : Int) : Time :=
  let u := if 60 ≤ value.natAbs then t.addHours (value.tdiv 60) else t
  let minute := t.minute + value.tmod 60
  if h : minute < 0 then
    (u.addHours (-1)).withMinute (minute + 60)
      (by have hb := tdiv_tmod_bounds value (show (0 : Int) < 60 by decide); omega)
  else if h' : 60 ≤ minute then
    (u.addHours 1).withMinute (minute - 60)
      (by
        have hb := tdiv_tmod_bounds value (show (0 : Int) < 60 by decide)
        have hm := t.minute_lt
        omega)
  else u.withMinute minute ⟨by omega, by omega⟩

def addSeconds (t : Time) (value : Int) : Time :=
  let u := if 60 ≤ value.natAbs then t.addMinutes (value.tdiv 60) else t
  let second := t.second + value.tmod 60
  if h : second < 0 then
    (u.addMinutes (-1)).withSecond (second + 60)
      (by have hb := tdiv_tmod_bounds value (show (0 : Int) < 60 by decide); omega)
  else if h' : 60 ≤ second then
    (u.addMinutes 1).withSecond (second - 60)
      (by
        have hb := tdiv_tmod_bounds value (show (0 : Int) < 60 by decide)
        have hs := t.second_lt
        omega)
  else u.withSecond second ⟨by omega, by omega⟩

def addMilliseconds (t : Time) (value : Int) : Time :=
  let s := value.tdiv 1000
  let u := if 0 < s.natAbs then t.addSeconds s else t
  let millisecond := t.millisecond + value.tmod 1000
  if h : millisecond < 0 then
    (u.addSeconds (-1)).withMillisecond (millisecond + 1000)
      (by have hb := tdiv_tmod_bounds value (show (0 : Int) < 1000 by decide); omega)
  else if h' : 1000 ≤ millisecond then
    (u.addSeconds 1).withMillisecond (millisecond - 1000)
      (by
        have hb := tdiv_tmod_bounds value (show (0 : Int) < 1000 by decide)
        have hu := t.millisecond_lt
        omega)
  else u.withMillisecond millisecond ⟨by omega, by omega⟩

/-! ### What the operations do -/

/-- The time `u` is `ms` milliseconds ahead of `t`, in the same day. -/
def Ahead (t : Time) (ms : Int) (u : Time) : Prop := (u.msOfDay : Int) = (t.msOfDay + ms) % 86400000

theorem Ahead.refl (t : Time) : Ahead t 0 t := by
  have h := t.msOfDay_lt
  rw [Ahead]
  omega

theorem Ahead.trans {t u w : Time} {a b : Int} (h : Ahead t a u) (h' : Ahead u b w) :
    Ahead t (a + b) w := by
  rw [Ahead] at h h' ⊢
  rw [h', h, Int.emod_add_emod, Int.add_assoc]

theorem Ahead.of_eq {t u : Time} {a : Int} (h : (u.msOfDay : Int) = t.msOfDay + a) :
    Ahead t a u := by
  have hu := u.msOfDay_lt
  rw [Ahead, ← h]
  omega

theorem Ahead.unique {t u w : Time} {a : Int} (h : Ahead t a u) (h' : Ahead t a w) : u = w := by
  rw [Ahead] at h h'
  exact msOfDay_inj (by omega)

/-- The sum of the hour and a number of hours is an `int`. -/
theorem addHours_ahead {t : Time} {v : Int} (h : v.natAbs ≤ 2 ^ 30) :
    Ahead t (v * 3600000) (t.addHours v) := by
  have hh := t.hour_lt
  have hsum : toInt (t.hour + v) = t.hour + v :=
    Int.bmod_eq_of_le (by norm_num; omega) (by norm_num; omega)
  have hb := tdiv_tmod_bounds (t.hour + v) (show (0 : Int) < 24 by decide)
  -- whole days are left out
  have hdays : ∀ hour : Int, (0 ≤ hour ∧ hour < 24) → (∃ k, hour = t.hour + v + 24 * k) →
      ∀ hr, Ahead t (v * 3600000) (t.withHour hour hr) := by
    rintro hour hrange ⟨k, hk⟩ hr
    have hw := msOfDay_withHour t hr
    have hlt := (t.withHour hour hr).msOfDay_lt
    rw [Ahead]
    omega
  rw [addHours]
  simp only [hsum]
  split
  · exact hdays _ (by omega) ⟨1 - (t.hour + v).tdiv 24, by omega⟩ _
  · exact hdays _ (by omega) ⟨-(t.hour + v).tdiv 24, by omega⟩ _

theorem addHours_minute (t : Time) (v : Int) : (t.addHours v).minute = t.minute := by
  rw [addHours]
  split <;> rfl

theorem addHours_second (t : Time) (v : Int) : (t.addHours v).second = t.second := by
  rw [addHours]
  split <;> rfl

theorem addHours_millisecond (t : Time) (v : Int) :
    (t.addHours v).millisecond = t.millisecond := by
  rw [addHours]
  split <;> rfl

/-- The whole units of a number of smaller ones, which the code leaves out when there are none. -/
theorem ahead_whole {t : Time} {add : Time → Int → Time} {unit q : Int} {whole : Prop}
    [Decidable whole] (hadd : Ahead t (q * unit) (add t q)) (hwhole : ¬ whole → q = 0) :
    Ahead t (q * unit) (if whole then add t q else t) := by
  split
  next => exact hadd
  next h =>
    rw [hwhole h, Int.zero_mul]
    exact Ahead.refl t

/-- **One carry.**  The whole units are added, then `k` of them are taken from the component
that the rest went to. -/
theorem ahead_carry {t u u' w : Time} {c v base unit k : Int}
    (hu : Ahead t (v.tdiv base * (base * unit)) u) (hstep : Ahead u (k * (base * unit)) u')
    (hw : (w.msOfDay : Int) = u'.msOfDay + (c + v.tmod base - k * base - c) * unit) :
    Ahead t (v * unit) w := by
  have hall := (hu.trans hstep).trans (Ahead.of_eq hw)
  have hv := Int.mul_tdiv_add_tmod v base
  have hsum : v.tdiv base * (base * unit) + k * (base * unit) +
      (c + v.tmod base - k * base - c) * unit = v * unit := by
    calc _ = (base * v.tdiv base + v.tmod base) * unit := by ring
      _ = v * unit := by rw [hv]
  rwa [hsum] at hall

theorem ahead_none (t : Time) (unit : Int) : Ahead t (0 * unit) t := by
  rw [Int.zero_mul]
  exact Ahead.refl t

theorem addMinutes_ahead {t : Time} {v : Int} (h : v.natAbs ≤ 2 ^ 30) :
    Ahead t (v * 60000) (t.addMinutes v) := by
  have hb := tdiv_tmod_bounds v (show (0 : Int) < 60 by decide)
  have hu : Ahead t (v.tdiv 60 * (60 * 60000))
      (if 60 ≤ v.natAbs then t.addHours (v.tdiv 60) else t) :=
    ahead_whole (addHours_ahead (by omega)) (by omega)
  have hm : (if 60 ≤ v.natAbs then t.addHours (v.tdiv 60) else t).minute = t.minute := by
    split
    · exact addHours_minute t _
    · rfl
  rw [addMinutes]
  generalize (if 60 ≤ v.natAbs then t.addHours (v.tdiv 60) else t) = u at hu hm ⊢
  split
  · refine ahead_carry hu (addHours_ahead (v := -1) (by decide)) (c := t.minute) ?_
    rw [msOfDay_withMinute, addHours_minute, hm]
    omega
  · split
    · refine ahead_carry hu (addHours_ahead (v := 1) (by decide)) (c := t.minute) ?_
      rw [msOfDay_withMinute, addHours_minute, hm]
      omega
    · refine ahead_carry hu (ahead_none u _) (c := t.minute) ?_
      rw [msOfDay_withMinute, hm]
      omega

theorem addMinutes_second (t : Time) (v : Int) : (t.addMinutes v).second = t.second := by
  have hu : (if 60 ≤ v.natAbs then t.addHours (v.tdiv 60) else t).second = t.second := by
    split
    · exact addHours_second t _
    · rfl
  rw [addMinutes]
  generalize (if 60 ≤ v.natAbs then t.addHours (v.tdiv 60) else t) = u at hu ⊢
  split
  · rw [withMinute_second, addHours_second, hu]
  · split
    · rw [withMinute_second, addHours_second, hu]
    · rw [withMinute_second, hu]

theorem addMinutes_millisecond (t : Time) (v : Int) :
    (t.addMinutes v).millisecond = t.millisecond := by
  have hu : (if 60 ≤ v.natAbs then t.addHours (v.tdiv 60) else t).millisecond = t.millisecond := by
    split
    · exact addHours_millisecond t _
    · rfl
  rw [addMinutes]
  generalize (if 60 ≤ v.natAbs then t.addHours (v.tdiv 60) else t) = u at hu ⊢
  split
  · rw [withMinute_millisecond, addHours_millisecond, hu]
  · split
    · rw [withMinute_millisecond, addHours_millisecond, hu]
    · rw [withMinute_millisecond, hu]

theorem addSeconds_ahead {t : Time} {v : Int} (h : v.natAbs ≤ 2 ^ 30) :
    Ahead t (v * 1000) (t.addSeconds v) := by
  have hb := tdiv_tmod_bounds v (show (0 : Int) < 60 by decide)
  have hu : Ahead t (v.tdiv 60 * (60 * 1000))
      (if 60 ≤ v.natAbs then t.addMinutes (v.tdiv 60) else t) :=
    ahead_whole (addMinutes_ahead (by omega)) (by omega)
  have hs : (if 60 ≤ v.natAbs then t.addMinutes (v.tdiv 60) else t).second = t.second := by
    split
    · exact addMinutes_second t _
    · rfl
  rw [addSeconds]
  generalize (if 60 ≤ v.natAbs then t.addMinutes (v.tdiv 60) else t) = u at hu hs ⊢
  split
  · refine ahead_carry hu (addMinutes_ahead (v := -1) (by decide)) (c := t.second) ?_
    rw [msOfDay_withSecond, addMinutes_second, hs]
    omega
  · split
    · refine ahead_carry hu (addMinutes_ahead (v := 1) (by decide)) (c := t.second) ?_
      rw [msOfDay_withSecond, addMinutes_second, hs]
      omega
    · refine ahead_carry hu (ahead_none u _) (c := t.second) ?_
      rw [msOfDay_withSecond, hs]
      omega

theorem addSeconds_millisecond (t : Time) (v : Int) :
    (t.addSeconds v).millisecond = t.millisecond := by
  have hu : (if 60 ≤ v.natAbs then t.addMinutes (v.tdiv 60) else t).millisecond =
      t.millisecond := by
    split
    · exact addMinutes_millisecond t _
    · rfl
  rw [addSeconds]
  generalize (if 60 ≤ v.natAbs then t.addMinutes (v.tdiv 60) else t) = u at hu ⊢
  split
  · rw [withSecond_millisecond, addMinutes_millisecond, hu]
  · split
    · rw [withSecond_millisecond, addMinutes_millisecond, hu]
    · rw [withSecond_millisecond, hu]

theorem addMilliseconds_ahead {t : Time} {v : Int} (h : v.natAbs ≤ 2 ^ 30) :
    Ahead t (v * 1) (t.addMilliseconds v) := by
  have hb := tdiv_tmod_bounds v (show (0 : Int) < 1000 by decide)
  have hu : Ahead t (v.tdiv 1000 * (1000 * 1))
      (if 0 < (v.tdiv 1000).natAbs then t.addSeconds (v.tdiv 1000) else t) :=
    ahead_whole (addSeconds_ahead (by omega)) (by omega)
  have hms : (if 0 < (v.tdiv 1000).natAbs then t.addSeconds (v.tdiv 1000) else t).millisecond =
      t.millisecond := by
    split
    · exact addSeconds_millisecond t _
    · rfl
  rw [addMilliseconds]
  generalize (if 0 < (v.tdiv 1000).natAbs then t.addSeconds (v.tdiv 1000) else t) = u at hu hms ⊢
  split
  · refine ahead_carry hu (addSeconds_ahead (v := -1) (by decide)) (c := t.millisecond) ?_
    rw [msOfDay_withMillisecond, addSeconds_millisecond, hms]
    omega
  · split
    · refine ahead_carry hu (addSeconds_ahead (v := 1) (by decide)) (c := t.millisecond) ?_
      rw [msOfDay_withMillisecond, addSeconds_millisecond, hms]
      omega
    · refine ahead_carry hu (ahead_none u _) (c := t.millisecond) ?_
      rw [msOfDay_withMillisecond, hms]
      omega

/-! ### All four -/

/-- The units that times are moved by. -/
inductive ClockUnit
  | hours | minutes | seconds | milliseconds
  deriving DecidableEq, Repr

/-- The milliseconds of a unit. -/
def ClockUnit.ms : ClockUnit → Int
  | hours => 3600000
  | minutes => 60000
  | seconds => 1000
  | milliseconds => 1

/-- The operation of a unit. -/
def add (t : Time) : ClockUnit → Int → Time
  | .hours => t.addHours
  | .minutes => t.addMinutes
  | .seconds => t.addSeconds
  | .milliseconds => t.addMilliseconds

theorem add_ahead (t : Time) (unit : ClockUnit) {v : Int} (h : v.natAbs ≤ 2 ^ 30) :
    Ahead t (v * unit.ms) (t.add unit v) := by
  cases unit with
  | hours => exact addHours_ahead h
  | minutes => exact addMinutes_ahead h
  | seconds => exact addSeconds_ahead h
  | milliseconds => exact addMilliseconds_ahead h

/-- **Times are moved modulo a day**, with all components within their bounds, and moved back
by the opposite number. -/
theorem add_modular (t : Time) (unit : ClockUnit) (v : Int) (h : v.natAbs ≤ 2 ^ 30) :
    ((t.add unit v).msOfDay : Int) = (t.msOfDay + v * unit.ms) % 86400000 ∧
      ((t.add unit v).hour < 24 ∧ (t.add unit v).minute < 60 ∧ (t.add unit v).second < 60 ∧
        (t.add unit v).millisecond < 1000) ∧
      (t.add unit v).add unit (-v) = t := by
  have hthere := add_ahead t unit h
  refine ⟨hthere, ⟨(t.add unit v).hour_lt, (t.add unit v).minute_lt, (t.add unit v).second_lt,
    (t.add unit v).millisecond_lt⟩, ?_⟩
  have hback := hthere.trans (add_ahead (t.add unit v) unit (v := -v) (by omega))
  rw [show v * unit.ms + -v * unit.ms = 0 by ring] at hback
  exact hback.unique (Ahead.refl t)

/-- A minute before one in the morning, two hours and a minute back. -/
theorem add_modular_sample :
    ((add ⟨0, 59, 0, 0, by decide, by decide, by decide, by decide⟩ .minutes (-121)).msOfDay : Int) =
      (3540000 + (-121) * 60000) % 86400000 :=
  (add_modular _ .minutes (-121) (by decide)).1

end Hatn.Common.Time
