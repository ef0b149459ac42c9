import Hatn.Common.MachineInt

/-!
# Comparing integers of different types

`ScalarCompare` compares a field with a value of another integer type.  Where one type is signed
and the other is not, the signed side is cast to its unsigned type: `less` asks before whether it
is negative, `equal` does not (`scalarCompare_iff`).
-/

namespace Hatn.Dataunit

open Common

/-- An integer type without `bool`. -/
structure IntType where
  signed : Bool
  width : Width
  deriving DecidableEq

/-- A value of an integer type. -/
structure IntValue where
  type : IntType
  value : Int
  inRange : InRange type.signed type.width value

namespace IntType

/-- Integer promotion: types that are narrower than `int` become `int`. -/
def promoted (t : IntType) : IntType := if t.width.bits < 32 then ⟨true, .w32⟩ else t

/-- The wider of two types. -/
def wider (l r : IntType) : IntType := if l.width.bits < r.width.bits then r else l

/-- The type that both sides of a comparison are converted to; of types of different signs the
signed one must have more bits. -/
def common (l r : IntType) : IntType :=
  let l := l.promoted
  let r := r.promoted
  if l.signed = r.signed then wider l r
  else if l.width.bits = r.width.bits then ⟨false, l.width⟩
  else wider l r

end IntType

namespace IntValue

/-- The built-in `<` -/
def builtinLess (l r : IntValue) : Bool :=
  let t := IntType.common l.type r.type
  castTo t.signed t.width l.value < castTo t.signed t.width r.value

/-- The built-in `==` -/
def builtinEqual (l r : IntValue) : Bool :=
  let t := IntType.common l.type r.type
  castTo t.signed t.width l.value = castTo t.signed t.width r.value

theorem castTo_inRange (signed : Bool) (w : Width) (n : Int) :
    InRange signed w (castTo signed w n) := by
  cases signed with
  | false =>
    have hpos : (0 : Int) < 2 ^ w.bits := by positivity
    exact ⟨Int.emod_nonneg n hpos.ne', Int.emod_lt_of_pos n hpos⟩
  | true =>
    cases w <;> simp only [InRange, castTo, if_true, Width.bits, Int.bmod_def] <;> norm_num <;>
      omega

/-- `static_cast` to `std::make_unsigned_t` -/
def makeUnsigned (v : IntValue) : IntValue where
  type := ⟨false, v.type.width⟩
  value := castTo false v.type.width v.value
  inRange := castTo_inRange _ _ _

/-- `ScalarCompare::less` -/
def less (l r : IntValue) : Bool :=
  match l.type.signed, r.type.signed with
  | true, false => if l.value < 0 then true else builtinLess l.makeUnsigned r
  | false, true => if r.value < 0 then false else builtinLess l r.makeUnsigned
  | _, _ => builtinLess l r

/-- `ScalarCompare::equal` -/
def equal (l r : IntValue) : Bool :=
  match l.type.signed, r.type.signed with
  | true, false => builtinEqual l.makeUnsigned r
  | false, true => builtinEqual l r.makeUnsigned
  | _, _ => builtinEqual l r

/-! ### Types of one sign -/

/-- A type of one sign that both are converted to has the values of both. -/
theorem inRange_common {l r : IntType} (h : l.signed = r.signed) {n : Int}
    (hn : InRange l.signed l.width n) :
    InRange (IntType.common l r).signed (IntType.common l r).width n := by
  obtain ⟨s, w⟩ := l
  obtain ⟨s', w'⟩ := r
  subst h
  cases s <;> cases w <;> cases w' <;>
    simp only [IntType.common, IntType.promoted, IntType.wider, InRange, Width.bits] at hn ⊢ <;>
    norm_num at hn ⊢ <;> omega

theorem common_comm {l r : IntType} (h : l.signed = r.signed) :
    IntType.common l r = IntType.common r l := by
  obtain ⟨s, w⟩ := l
  obtain ⟨s', w'⟩ := r
  subst h
  cases s <;> cases w <;> cases w' <;> rfl

variable {l r : IntValue}

theorem castTo_common (h : l.type.signed = r.type.signed) :
    let t := IntType.common l.type r.type
    castTo t.signed t.width l.value = l.value ∧ castTo t.signed t.width r.value = r.value := by
  refine ⟨castTo_of_inRange (inRange_common h l.inRange), ?_⟩
  rw [common_comm h]
  exact castTo_of_inRange (inRange_common h.symm r.inRange)

theorem builtinLess_iff (h : l.type.signed = r.type.signed) :
    builtinLess l r = true ↔ l.value < r.value := by
  obtain ⟨hl, hr⟩ := castTo_common h
  rw [builtinLess, decide_eq_true_eq, hl, hr]

theorem builtinEqual_iff (h : l.type.signed = r.type.signed) :
    builtinEqual l r = true ↔ l.value = r.value := by
  obtain ⟨hl, hr⟩ := castTo_common h
  rw [builtinEqual, decide_eq_true_eq, hl, hr]

/-! ### Types of different signs -/

theorem nonneg_of_unsigned (h : l.type.signed = false) : 0 ≤ l.value := by
  have hl := l.inRange
  rw [h] at hl
  exact hl.1

/-- A negative value becomes the one above it by two to the power of its bits. -/
theorem makeUnsigned_value (h : l.type.signed = true) : l.makeUnsigned.value =
    if l.value < 0 then l.value + 2 ^ l.type.width.bits else l.value := by
  have hl := l.inRange
  rw [h] at hl
  obtain ⟨hlow, hhigh⟩ := hl
  show l.value % 2 ^ l.type.width.bits = _
  cases hw : l.type.width <;> rw [hw] at hlow hhigh <;>
    simp only [Width.bits] at hlow hhigh ⊢ <;> norm_num at hlow hhigh ⊢ <;> split <;> omega

theorem less_of_signed (hl : l.type.signed = true) (hr : r.type.signed = false) :
    less l r = true ↔ l.value < r.value := by
  have hpos := nonneg_of_unsigned hr
  have hvalue := makeUnsigned_value hl
  simp only [less, hl, hr]
  split
  next hneg => exact iff_of_true rfl (by omega)
  next hneg =>
    rw [if_neg hneg] at hvalue
    rw [builtinLess_iff hr.symm, hvalue]

theorem less_of_unsigned (hl : l.type.signed = false) (hr : r.type.signed = true) :
    less l r = true ↔ l.value < r.value := by
  have hpos := nonneg_of_unsigned hl
  have hvalue := makeUnsigned_value hr
  simp only [less, hl, hr]
  split
  next hneg => exact iff_of_false Bool.false_ne_true (by omega)
  next hneg =>
    rw [if_neg hneg] at hvalue
    rw [builtinLess_iff hl, hvalue]

/-- **`less` is right** for all types. -/
theorem less_iff (l r : IntValue) : less l r = true ↔ l.value < r.value := by
  cases hl : l.type.signed with
  | true =>
    cases hr : r.type.signed with
    | true =>
      simp only [less, hl, hr]
      exact builtinLess_iff (hl.trans hr.symm)
    | false => exact less_of_signed hl hr
  | false =>
    cases hr : r.type.signed with
    | true => exact less_of_unsigned hl hr
    | false =>
      simp only [less, hl, hr]
      exact builtinLess_iff (hl.trans hr.symm)

/-- A negative value of a signed type becomes the unsigned value of the other side. -/
def Wraps (l r : IntValue) : Prop :=
  l.type.signed = true ∧ r.type.signed = false ∧ l.value < 0 ∧
    l.value + 2 ^ l.type.width.bits = r.value

instance (l r : IntValue) : Decidable (Wraps l r) := inferInstanceAs (Decidable (_ ∧ _))

theorem equal_of_signed (hl : l.type.signed = true) (hr : r.type.signed = false) :
    equal l r = true ↔ l.value = r.value ∨ Wraps l r := by
  have hpos := nonneg_of_unsigned hr
  simp only [equal, hl, hr]
  rw [builtinEqual_iff hr.symm, makeUnsigned_value hl, Wraps]
  split
  next hneg =>
    simp only [hl, hr, hneg, true_and]
    exact ⟨.inr, fun h => h.resolve_left (by omega)⟩
  next hneg => simp only [hneg, false_and, and_false, or_false]

theorem equal_of_unsigned (hl : l.type.signed = false) (hr : r.type.signed = true) :
    equal l r = true ↔ l.value = r.value ∨ Wraps r l := by
  have hpos := nonneg_of_unsigned hl
  simp only [equal, hl, hr]
  rw [builtinEqual_iff hl, makeUnsigned_value hr, Wraps]
  split
  next hneg =>
    simp only [hl, hr, hneg, true_and]
    exact ⟨fun h => .inr h.symm, fun h => (h.resolve_left (by omega)).symm⟩
  next hneg => simp only [hneg, false_and, and_false, or_false]

theorem equal_iff (l r : IntValue) :
    equal l r = true ↔ l.value = r.value ∨ Wraps l r ∨ Wraps r l := by
  cases hl : l.type.signed with
  | true =>
    cases hr : r.type.signed with
    | true =>
      simp only [equal, hl, hr, Wraps, Bool.true_eq_false, false_and, and_false, or_false]
      exact builtinEqual_iff (hl.trans hr.symm)
    | false =>
      rw [equal_of_signed hl hr]
      simp only [Wraps, hl, hr, Bool.false_eq_true, false_and, or_false]
  | false =>
    cases hr : r.type.signed with
    | true =>
      rw [equal_of_unsigned hl hr]
      simp only [Wraps, hl, hr, Bool.false_eq_true, false_and, false_or]
    | false =>
      simp only [equal, hl, hr, Wraps, Bool.false_eq_true, false_and, or_false]
      exact builtinEqual_iff (hl.trans hr.symm)

/-- Two values are compared as the integers that they are. -/
structure Compared (l r : IntValue) : Prop where
  less : less l r = true ↔ l.value < r.value
  equal : equal l r = true ↔ l.value = r.value
  not_both : ¬ (IntValue.less l r = true ∧ IntValue.equal l r = true)
  exactly_one : [IntValue.less l r, IntValue.equal l r, IntValue.less r l].count true = 1

/-- **Comparing integers**: two values of any types are compared as integers, if and only if neither
is a negative value that becomes the other in the unsigned type of its width. -/
theorem scalarCompare_iff (l r : IntValue) : Compared l r ↔ ¬ Wraps l r ∧ ¬ Wraps r l := by
  have hequal := equal_iff l r
  have hne : ∀ {a b : IntValue}, Wraps a b → a.value ≠ b.value := by
    rintro a b ⟨-, hb, hneg, -⟩
    have hpos := nonneg_of_unsigned hb
    omega
  constructor
  · intro h
    rw [h.equal] at hequal
    exact ⟨fun hw => hne hw (hequal.mpr (.inr (.inl hw))),
      fun hw => hne hw (hequal.mpr (.inr (.inr hw))).symm⟩
  · rintro ⟨hl, hr⟩
    have hequal : equal l r = true ↔ l.value = r.value :=
      hequal.trans (or_iff_left fun h => h.elim hl hr)
    refine ⟨less_iff l r, hequal, fun h => ?_, ?_⟩
    · exact ((less_iff l r).mp h.1).ne (hequal.mp h.2)
    · have hl : less l r = decide (l.value < r.value) := by
        rw [Bool.eq_iff_iff, decide_eq_true_eq, less_iff]
      have he : equal l r = decide (l.value = r.value) := by
        rw [Bool.eq_iff_iff, decide_eq_true_eq, hequal]
      have hg : less r l = decide (r.value < l.value) := by
        rw [Bool.eq_iff_iff, decide_eq_true_eq, less_iff]
      rw [hl, he, hg]
      obtain h | h | h := lt_trichotomy l.value r.value
      · rw [decide_eq_true h, decide_eq_false h.ne, decide_eq_false h.not_gt]
        rfl
      · rw [h, decide_eq_true rfl, decide_eq_false (lt_irrefl _)]
        rfl
      · rw [decide_eq_false h.not_gt, decide_eq_false h.ne', decide_eq_true h]
        rfl

/-- The `int8_t` -1 and the `uint64_t` 255. -/
def minusOne : IntValue := ⟨⟨true, .w8⟩, -1, by decide⟩

def ones : IntValue := ⟨⟨false, .w64⟩, 255, by decide⟩

/-- -1 is less than 255 and equal to it. -/
theorem minusOne_not_compared : less minusOne ones = true ∧ equal minusOne ones = true ∧
    ¬ Compared minusOne ones := by
  have hless : less minusOne ones = true := by decide
  have hequal : equal minusOne ones = true := by decide
  exact ⟨hless, hequal, fun h => h.not_both ⟨hless, hequal⟩⟩

end IntValue

end Hatn.Dataunit
