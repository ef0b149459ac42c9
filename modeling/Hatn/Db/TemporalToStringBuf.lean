import Hatn.Common.DateTime
import Hatn.Db.FieldToStringBuf

/-!
# The key forms of dates and times

A `DateTime` is written as its milliseconds since 1970 with at least ten hex
digits, a `Date` and a `DateRange` as their numbers with at least eight decimal
digits.  Ten hex digits end on 2004-11-03, in the middle of the calendar: from
then on eleven are written, and the longer form no longer sorts behind the
shorter ones.  Negative numbers get a sign in front and sort backwards.

The file says exactly which pairs of values are written in their order,

`m < n  →  m ≤ n / b ^ widthGap b w m n`

for numbers written in base `b` with at least `w` digits: the smaller number may
not exceed the larger one cut to its digits.  Times have a fixed form and are
always written in their order.
-/

namespace Hatn.Db

open Hatn.Order Hatn.Common

/-! ### The forms -/

/-- `{:0wx}` of a signed number: the sign counts as one of the `w` characters. -/
def fmtHexInt (w : Nat) (n : Int) : Key :=
  if n < 0 then 0x2d :: fmtHex (w - 1) (-n).toNat else fmtHex w n.toNat

/-- `operator ()` for a `DateTime`; `none` where the calendar throws. -/
def dateTimeToStringBuf (d : DateTime) : Option Key := d.toEpochMs.map (fmtHexInt 10)

/-- `operator ()` for a `Time`. -/
def timeToStringBuf (t : Time) : Option Key := some t.serialize

/-- `operator ()` for a `Date`. -/
def dateToStringBuf (d : Date) : Option Key := some d.serialize

/-- `operator ()` for a `DateRange`. -/
def dateRangeToStringBuf (r : DateRange) : Option Key := some r.serialize

/-- Two values have forms, which sort as the values and are equal for equal values only. -/
def OrderedForms {α : Type} (form : α → Option Key) (lt : α → α → Prop) (a b : α) : Prop :=
  ∃ ka kb, form a = some ka ∧ form b = some kb ∧ (ka < kb ↔ lt a b) ∧ (kb < ka ↔ lt b a) ∧
    (ka = kb → a = b)

/-! ### Pairs that are written in their order -/

/-- The smaller of two numbers does not exceed the larger one cut to its digits. -/
def KeepsOrder (b w m n : Nat) : Prop :=
  (m < n → m ≤ n / b ^ widthGap b w m n) ∧ (n < m → n ≤ m / b ^ widthGap b w n m)

/-- The larger of two numbers, cut to the digits of the smaller one, is still below it. -/
def ReversesOrder (b w m n : Nat) : Prop :=
  (m < n → n / b ^ widthGap b w m n < m) ∧ (n < m → m / b ^ widthGap b w n m < n)

/-- The condition on two signed numbers in hex with at least ten characters. -/
def KeepsOrderInt (x y : Int) : Prop :=
  (0 ≤ x → 0 ≤ y → KeepsOrder 16 10 x.toNat y.toNat) ∧
  (x < 0 → y < 0 → ReversesOrder 16 9 (-x).toNat (-y).toNat)

/-- The condition on two dates with times: the calendar knows both, they are the
same or denote distinct milliseconds, and these are written in their order. -/
def KeepsOrderEpoch (a b : DateTime) : Prop :=
  ∃ x y, a.toEpochMs = some x ∧ b.toEpochMs = some y ∧ (x = y → a = b) ∧ KeepsOrderInt x y

theorem numeralForm_lt {b : Nat} (hb : 1 < b) (hb' : b ≤ 16) (w m n : Nat) :
    (padded b w m).map digitChar < (padded b w n).map digitChar ↔
      padded b w m < padded b w n := by
  have hd : ∀ k, ∀ d ∈ padded b w k, d < 16 := fun k d h =>
    lt_of_lt_of_le (padded_lt_base (by omega) w k d h) hb'
  exact map_digitChar_lt (hd m) (hd n)

theorem numeralForm_inj {b : Nat} (hb : 1 < b) (hb' : b ≤ 16) {w m n : Nat}
    (h : (padded b w m).map digitChar = (padded b w n).map digitChar) : m = n := by
  have hd : ∀ k, ∀ d ∈ padded b w k, d < 16 := fun k d h =>
    lt_of_lt_of_le (padded_lt_base (by omega) w k d h) hb'
  exact padded_inj hb (map_digitChar_inj (hd m) (hd n) h)

/-- **Numbers are written in their order** exactly when the smaller one does not
exceed the larger one cut to its digits. -/
theorem numeralForm_ordered_iff {b : Nat} (hb : 1 < b) (hb' : b ≤ 16) (w m n : Nat) :
    (((padded b w m).map digitChar < (padded b w n).map digitChar ↔ m < n) ∧
      ((padded b w n).map digitChar < (padded b w m).map digitChar ↔ n < m)) ↔
    KeepsOrder b w m n := by
  rw [numeralForm_lt hb hb', numeralForm_lt hb hb']
  rcases lt_trichotomy m n with h | h | h
  · rw [padded_lt_padded hb h, padded_gt_padded hb h]
    simp only [KeepsOrder, h, h.not_gt, iff_true, iff_false, forall_true_left, false_imp_iff,
      and_true]
    omega
  · subst h
    simp [KeepsOrder]
  · rw [padded_lt_padded hb h, padded_gt_padded hb h]
    simp only [KeepsOrder, h, h.not_gt, iff_true, iff_false, forall_true_left, false_imp_iff,
      true_and]
    omega

/-- The same for numbers that are to sort backwards. -/
theorem numeralForm_reversed_iff {b : Nat} (hb : 1 < b) (hb' : b ≤ 16) (w m n : Nat) :
    (((padded b w m).map digitChar < (padded b w n).map digitChar ↔ n < m) ∧
      ((padded b w n).map digitChar < (padded b w m).map digitChar ↔ m < n)) ↔
    ReversesOrder b w m n := by
  rw [numeralForm_lt hb hb', numeralForm_lt hb hb']
  rcases lt_trichotomy m n with h | h | h
  · rw [padded_lt_padded hb h, padded_gt_padded hb h]
    simp only [ReversesOrder, h, h.not_gt, iff_true, iff_false, forall_true_left, false_imp_iff,
      and_true]
    omega
  · subst h
    simp [ReversesOrder]
  · rw [padded_lt_padded hb h, padded_gt_padded hb h]
    simp only [ReversesOrder, h, h.not_gt, iff_true, iff_false, forall_true_left, false_imp_iff,
      true_and]
    omega

theorem fmtHexInt_inj {x y : Int} (h : fmtHexInt 10 x = fmtHexInt 10 y) : x = y := by
  have sign : ∀ n : Nat, ∀ l : Key, fmtHex 10 n ≠ 0x2d :: l := by
    intro n l he
    have hd := padded_lt_base (by omega : 0 < 16) 10 n
    rw [fmtHex] at he
    cases hp : padded 16 10 n with
    | nil => rw [hp] at he; simp at he
    | cons d r =>
      have h16 : d < 16 := hd d (by rw [hp]; simp)
      rw [hp, List.map_cons, List.cons.injEq] at he
      have hc := congrArg UInt8.toNat he.1
      rw [digitChar_toNat h16] at hc
      have : (0x2d : UInt8).toNat = 45 := rfl
      split at hc <;> omega
  unfold fmtHexInt at h
  split at h <;> split at h
  · have := fmtHex_inj (List.cons.inj h).2
    omega
  · exact absurd h.symm (sign _ _)
  · exact absurd h (sign _ _)
  · have := fmtHex_inj h
    omega

/-- **Signed numbers** in hex with at least ten characters. -/
theorem fmtHexInt_ordered_iff (x y : Int) :
    ((fmtHexInt 10 x < fmtHexInt 10 y ↔ x < y) ∧ (fmtHexInt 10 y < fmtHexInt 10 x ↔ y < x)) ↔
    KeepsOrderInt x y := by
  -- the sign is below all digits
  have sign : ∀ m n : Nat, 0x2d :: fmtHex 9 m < fmtHex 10 n := by
    intro m n
    have hd := padded_lt_base (by omega : 0 < 16) 10 n
    have hl := padded_length 16 10 n
    rw [fmtHex, fmtHex]
    cases hp : padded 16 10 n with
    | nil => rw [hp] at hl; simp at hl; omega
    | cons d r =>
      have h16 : d < 16 := hd d (by rw [hp]; simp)
      rw [List.map_cons, List.cons_lt_cons_iff, UInt8.lt_iff_toNat_lt, digitChar_toNat h16]
      have : (0x2d : UInt8).toNat = 45 := rfl
      exact Or.inl (by split <;> omega)
  unfold fmtHexInt KeepsOrderInt
  by_cases hx : x < 0
  · by_cases hy : y < 0
    · have key := numeralForm_reversed_iff (by omega : 1 < 16) (by omega) 9 (-x).toNat (-y).toNat
      simp only [hx, hy, if_true, List.cons_lt_cons_iff, lt_irrefl, true_and, false_or,
        not_le.mpr hx, false_imp_iff, forall_true_left]
      rw [← key, fmtHex, fmtHex, show (-y).toNat < (-x).toNat ↔ x < y by omega,
        show (-x).toNat < (-y).toNat ↔ y < x by omega]
    · have h1 : x < y := by omega
      simp only [hx, hy, if_true, if_false, h1, h1.not_gt, sign, (sign _ _).not_gt,
        true_and, false_imp_iff, not_le.mpr hx, imp_true_iff]
  · by_cases hy : y < 0
    · have h1 : y < x := by omega
      simp only [hx, hy, if_true, if_false, h1, h1.not_gt, sign, (sign _ _).not_gt,
        true_and, false_imp_iff, not_le.mpr hy, imp_true_iff]
    · have key := numeralForm_ordered_iff (by omega : 1 < 16) (by omega) 10 x.toNat y.toNat
      simp only [hx, hy, if_false, false_imp_iff, and_true, not_lt.mp hx, not_lt.mp hy,
        forall_true_left]
      rw [← key, fmtHex, fmtHex, show x.toNat < y.toNat ↔ x < y by omega,
        show y.toNat < x.toNat ↔ y < x by omega]

/-! ### The four types -/

theorem dateTime_lt_iff {a b : DateTime} {x y : Int} (ha : a.toEpochMs = some x)
    (hb : b.toEpochMs = some y) : a.lt b = some true ↔ x < y ∨ x = y ∧ a.tz < b.tz := by
  have h : a.lt b = if x < y then some true else if x = y then some (a.tz < b.tz)
      else some false := by
    simp only [DateTime.lt, ha, hb, Option.bind_eq_bind, Option.bind_some]
    rfl
  rw [h]
  split_ifs with h1 h2
  · simp [h1]
  · simp [h2]
  · simp [h1, h2]

theorem keepsOrderInt_self (x : Int) : KeepsOrderInt x x := by simp [KeepsOrderInt, KeepsOrder,
  ReversesOrder]

theorem dateTime_ordered_iff (a b : DateTime) :
    OrderedForms dateTimeToStringBuf (fun a b => a.lt b = some true) a b ↔
      KeepsOrderEpoch a b := by
  constructor
  · rintro ⟨ka, kb, ha, hb, hab, hba, he⟩
    obtain ⟨x, hx, rfl⟩ := Option.map_eq_some_iff.mp ha
    obtain ⟨y, hy, rfl⟩ := Option.map_eq_some_iff.mp hb
    have hab' := hab.trans (dateTime_lt_iff hx hy)
    have hba' := hba.trans (dateTime_lt_iff hy hx)
    refine ⟨x, y, hx, hy, fun h => he (by rw [h]), ?_⟩
    by_cases hxy : x = y
    · rw [hxy]
      exact keepsOrderInt_self y
    · refine (fmtHexInt_ordered_iff x y).mp ⟨?_, ?_⟩
      · simpa [hxy] using hab'
      · simpa [Ne.symm hxy] using hba'
  · rintro ⟨x, y, hx, hy, he, hk⟩
    refine ⟨fmtHexInt 10 x, fmtHexInt 10 y, by rw [dateTimeToStringBuf, hx]; rfl,
      by rw [dateTimeToStringBuf, hy]; rfl, ?_, ?_, fun h => he (fmtHexInt_inj h)⟩
    · refine ((fmtHexInt_ordered_iff x y).mpr hk).1.trans
        (Iff.trans ⟨Or.inl, fun h => h.resolve_right fun ⟨h1, h2⟩ => ?_⟩
          (dateTime_lt_iff hx hy).symm)
      rw [he h1] at h2
      exact lt_irrefl _ h2
    · refine ((fmtHexInt_ordered_iff x y).mpr hk).2.trans
        (Iff.trans ⟨Or.inl, fun h => h.resolve_right fun ⟨h1, h2⟩ => ?_⟩
          (dateTime_lt_iff hy hx).symm)
      rw [he h1.symm] at h2
      exact lt_irrefl _ h2

/-- Two values whose forms are decimal numbers of at least eight digits. -/
theorem decimal_ordered_iff {α : Type} {form : α → Option Key} {number : α → Nat} {a b : α}
    (ha : form a = some (fmtDec 8 (number a))) (hb : form b = some (fmtDec 8 (number b)))
    (hinj : number a = number b → a = b) :
    OrderedForms form (fun a b => number a < number b) a b ↔
      KeepsOrder 10 8 (number a) (number b) := by
  have key := numeralForm_ordered_iff (by omega : 1 < 10) (by omega) 8 (number a) (number b)
  rw [← key]
  constructor
  · rintro ⟨ka, kb, ha', hb', hab, hba, -⟩
    rw [ha, Option.some.injEq] at ha'
    rw [hb, Option.some.injEq] at hb'
    subst ha' hb'
    exact ⟨hab, hba⟩
  · intro h
    exact ⟨_, _, ha, hb, h.1, h.2, fun he => hinj (numeralForm_inj (by omega) (by omega) he)⟩

theorem date_ordered_iff {a b : Date} (ha : a.isValid = true) (hb : b.isValid = true) :
    OrderedForms dateToStringBuf (fun a b => a.lt b = true) a b ↔
      KeepsOrder 10 8 a.toNumber b.toNumber := by
  have hlt : (fun a b : Date => a.lt b = true) = fun a b => a.toNumber < b.toNumber := by
    funext a b
    simp [Date.lt]
  rw [hlt]
  exact decimal_ordered_iff (by rw [dateToStringBuf, Date.serialize_eq ha])
    (by rw [dateToStringBuf, Date.serialize_eq hb]) Date.toNumber_inj

theorem dateRange_ordered_iff (a b : DateRange) :
    OrderedForms dateRangeToStringBuf (fun a b => a.lt b = true) a b ↔
      KeepsOrder 10 8 a.value b.value := by
  have hlt : (fun a b : DateRange => a.lt b = true) = fun a b => a.value < b.value := by
    funext a b
    simp [DateRange.lt]
  rw [hlt]
  exact decimal_ordered_iff rfl rfl (fun h => by cases a; cases b; simp_all)

/-- Times have a form of their own, without exceptions. -/
theorem time_ordered {a b : Time} (ha : a.isValid = true) (hb : b.isValid = true) :
    OrderedForms timeToStringBuf (fun a b => a.lt b = true) a b := by
  refine ⟨_, _, rfl, rfl, ?_, ?_, fun h => ?_⟩
  · simpa [Time.lt] using Time.serialize_lt ha hb
  · simpa [Time.lt] using Time.serialize_lt hb ha
  · have h1 := (Time.serialize_lt ha hb).not.mp h.not_lt
    have h2 := (Time.serialize_lt hb ha).not.mp h.not_gt
    exact Time.toNumber_inj (by omega)

/-- Numbers that fit the width are written in their order. -/
theorem keepsOrder_of_lt {b w m n : Nat} (hb : 1 < b) (hm : m < b ^ w) (hn : n < b ^ w) :
    KeepsOrder b w m n := by
  have gap : ∀ k l : Nat, l < b ^ w → widthGap b w k l = 0 := by
    intro k l hl
    have := (digitCount_le_iff hb).mpr hl
    unfold widthGap
    omega
  refine ⟨fun h => ?_, fun h => ?_⟩
  · rw [gap _ _ hn, Nat.pow_zero, Nat.div_one]
    exact h.le
  · rw [gap _ _ hm, Nat.pow_zero, Nat.div_one]
    exact h.le

/-- Up to 2004-11-03 dates with times are written in the order of their milliseconds. -/
theorem keepsOrderInt_of_lt {x y : Int} (hx : 0 ≤ x ∧ x < 2 ^ 40) (hy : 0 ≤ y ∧ y < 2 ^ 40) :
    KeepsOrderInt x y :=
  ⟨fun _ _ => keepsOrder_of_lt (by omega) (by omega) (by omega), fun h _ => by omega⟩

/-- The field types with a calendar. -/
inductive TemporalType
  | dateTime | date | time | dateRange
  deriving DecidableEq, Repr

namespace TemporalType

def Value : TemporalType → Type
  | dateTime => DateTime
  | date => Date
  | time => Time
  | dateRange => DateRange

def isValid : (t : TemporalType) → t.Value → Bool
  | dateTime => DateTime.isValid
  | date => Date.isValid
  | time => Time.isValid
  | dateRange => DateRange.isValid

def toStringBuf : (t : TemporalType) → t.Value → Option Key
  | dateTime => dateTimeToStringBuf
  | date => dateToStringBuf
  | time => timeToStringBuf
  | dateRange => dateRangeToStringBuf

/-- `operator <` of the type. -/
def Lt : (t : TemporalType) → t.Value → t.Value → Prop
  | dateTime => fun a b => a.lt b = some true
  | date => fun a b => a.lt b = true
  | time => fun a b => a.lt b = true
  | dateRange => fun a b => a.lt b = true

/-- The numbers that two values are written by are written in their order. -/
def KeepsOrder : (t : TemporalType) → t.Value → t.Value → Prop
  | dateTime => KeepsOrderEpoch
  | date => fun a b => Db.KeepsOrder 10 8 a.toNumber b.toNumber
  | time => fun _ _ => True
  | dateRange => fun a b => Db.KeepsOrder 10 8 a.value b.value

end TemporalType

/-- **The forms of dates and times.**  Two valid values have forms that sort as the
values and tell them apart exactly when their numbers are written in their order;
two times always do. -/
theorem temporalForm_ordered_iff (t : TemporalType) (a b : t.Value) (ha : t.isValid a = true)
    (hb : t.isValid b = true) :
    OrderedForms t.toStringBuf t.Lt a b ↔ t.KeepsOrder a b := by
  cases t with
  | dateTime => exact dateTime_ordered_iff a b
  | date => exact date_ordered_iff ha hb
  | time => exact iff_of_true (time_ordered ha hb) trivial
  | dateRange => exact dateRange_ordered_iff a b

/-! ### The two sides of 2004-11-03 -/

/-- 2004-11-03 19:53:47.775, the last millisecond with ten hex digits. -/
def lastTenDigits : DateTime :=
  ⟨⟨2004, 11, 3, by decide, by decide, by decide⟩,
    ⟨19, 53, 47, 775, by decide, by decide, by decide, by decide⟩, 0⟩

/-- One millisecond later. -/
def firstElevenDigits : DateTime :=
  ⟨⟨2004, 11, 3, by decide, by decide, by decide⟩,
    ⟨19, 53, 47, 776, by decide, by decide, by decide, by decide⟩, 0⟩

theorem temporalForm_ordered_sample :
    OrderedForms dateToStringBuf (fun a b => a.lt b = true)
      lastTenDigits.date ⟨2024, 2, 29, by decide, by decide, by decide⟩ :=
  (temporalForm_ordered_iff .date lastTenDigits.date _ (by decide) (by decide)).mpr
    (keepsOrder_of_lt (by omega) (by decide) (by decide))

theorem lastTenDigits_epoch : lastTenDigits.toEpochMs = some (2 ^ 40 - 1) := by decide

theorem firstElevenDigits_epoch : firstElevenDigits.toEpochMs = some (2 ^ 40) := by decide

/-- **The form of a later moment sorts first**: the two valid values around the
end of the ten digits. -/
theorem dateTime_forms_swap :
    lastTenDigits.isValid = true ∧ firstElevenDigits.isValid = true ∧
    ¬ OrderedForms (TemporalType.toStringBuf .dateTime) (TemporalType.Lt .dateTime)
      lastTenDigits firstElevenDigits := by
  refine ⟨by decide, by decide, fun h => ?_⟩
  obtain ⟨x, y, hx, hy, -, hk, -⟩ := (dateTime_ordered_iff _ _).mp h
  rw [lastTenDigits_epoch, Option.some.injEq] at hx
  rw [firstElevenDigits_epoch, Option.some.injEq] at hy
  subst hx hy
  have h10 : digitCount 16 (2 ^ 40 - 1) ≤ 10 :=
    (digitCount_le_iff (by omega)).mpr (by norm_num)
  have h11 : ¬ digitCount 16 (2 ^ 40) ≤ 10 := fun hle =>
    absurd ((digitCount_le_iff (by omega)).mp hle) (by norm_num)
  have hgap : 0 < widthGap 16 10 (2 ^ 40 - 1) (2 ^ 40) := by unfold widthGap; omega
  have hle := (hk (by norm_num) (by norm_num)).1 (by norm_num)
  have hpow : 16 ^ 1 ≤ 16 ^ widthGap 16 10 (2 ^ 40 - 1) (2 ^ 40) :=
    Nat.pow_le_pow_right (by omega) hgap
  have hdiv : 2 ^ 40 / 16 ^ widthGap 16 10 (2 ^ 40 - 1) (2 ^ 40) ≤ 2 ^ 40 / 16 ^ 1 :=
    Nat.div_le_div_left hpow (by norm_num)
  exact absurd (hle.trans hdiv) (by norm_num)

end Hatn.Db
