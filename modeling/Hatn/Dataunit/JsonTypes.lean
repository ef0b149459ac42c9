import Hatn.Common.Base64
import Hatn.Common.DateTimeText
import Hatn.Dataunit.JsonObjects

/-!
# The types of fields in JSON

What `Fieldwriter` and `formatJSON` make of a value, and what `FieldReader` makes of that
again.  A value is restored if it is `Lasting`; of the types here, some values of `TYPE_BOOL`
and of `TYPE_DATETIME` are not.
-/

namespace Hatn.Dataunit.Json

open Hatn.Common Hatn.Json

inductive ValueType
  | bool
  | int (signed : Bool) (w : Width)
  | string
  | bytes
  | dateTime
  deriving DecidableEq

/-! ### Readers -/

def stringType : PlainType where
  read
    | .string s => some fun _ => .bytes s
    | _ => none
  zero := .bytes []
  dropsFlag _ := false
  accepts := ⟨.string [], rfl⟩

/-- A text in base64 is decoded into the buffer of the field. -/
def bytesType : PlainType where
  read
    | .string s => some fun
      | .bytes buf => .bytes (Base64.fromEncoded s buf)
      | v => v
    | _ => none
  zero := .bytes []
  dropsFlag _ := false
  accepts := ⟨.string [], rfl⟩

/-- The date and time that every timezone for new objects can be read with. -/
def someDateTime : DateTime := ⟨Date.epochDay, Time.null, 60⟩

theorem parseIsoString_someDateTime (defaultTz : Int) :
    DateTime.parseIsoString defaultTz someDateTime.toIsoString = some someDateTime :=
  (DateTime.parseIsoString_toIsoString_eq_iff rfl).mpr ⟨by decide, fun h => absurd h (by decide), by decide⟩

/-- `defaultTz` is the timezone of new objects, `m_defaultTz`. -/
def dateTimeType (defaultTz : Int) : PlainType where
  read
    | .string s => (DateTime.parseIsoString defaultTz s).map fun d _ => .dateTime d
    | _ => none
  zero := .dateTime ⟨Date.null, Time.null, 0⟩
  dropsFlag _ := false
  accepts := ⟨.string someDateTime.toIsoString, by simp only [parseIsoString_someDateTime]; rfl⟩

namespace ValueType

def plain (defaultTz : Int) : ValueType → PlainType
  | bool => intType false .w8
  | int signed w => intType signed w
  | string => stringType
  | bytes => bytesType
  | dateTime => dateTimeType defaultTz

/-! ### Writers -/

/-- `Fieldwriter::write` and `formatJSON`; `RawBase64` writes a string. -/
def write : ValueType → PlainValue → Option Scalar
  | bool, .num n => some (.bool (n != 0))
  | int _ _, .num n => some (.integer n)
  | string, .bytes l => some (.string l)
  | bytes, .bytes l => some (.string (Base64.encode l))
  | dateTime, .dateTime d => some (.string d.toIsoString)
  | _, _ => none

/-- The values of the types; a `TYPE_BOOL` is a number of 8 bits. -/
def Holds : ValueType → PlainValue → Prop
  | bool, .num n => InRange false .w8 n
  | int signed w, .num n => InRange signed w n
  | string, .bytes _ => True
  | bytes, .bytes _ => True
  | dateTime, .dateTime d => DateTime.isTimezoneValid d.tz = true
  | _, _ => False

/-- The values that stay what they are: of a `TYPE_BOOL` the truth values, and the dates that
are in the calendar and have a timezone that is read again. -/
def Lasting (defaultTz : Int) : ValueType → PlainValue → Prop
  | bool, .num n => n = 0 ∨ n = 1
  | dateTime, .dateTime d =>
    DateTime.InCalendar d.date ∧ (d.tz = 0 → defaultTz = 0) ∧ (0 ≤ d.tz ∨ 60 ∣ d.tz)
  | _, _ => True

/-! ### What is read again -/

theorem write_isSome {t : ValueType} {v : PlainValue} (h : t.Holds v) : (t.write v).isSome = true := by
  cases t <;> cases v <;> first | exact False.elim h | rfl

/-- **A value is read again if and only if it is lasting**, into a buffer that is empty where
the value is that of bytes. -/
theorem read_write_iff {defaultTz : Int} {t : ValueType} {v w : PlainValue} {a : Scalar}
    (hv : t.Holds v) (ha : t.write v = some a) (hw : t = bytes → w = .bytes []) :
    (∃ g, (t.plain defaultTz).read a = some g ∧ g w = v) ↔ t.Lasting defaultTz v := by
  cases t with
  | bool =>
    cases v with
    | num n =>
      injection ha with ha
      subst ha
      have e : PlainValue.num (if (n != 0) = true then 1 else 0) = .num n ↔ n = 0 ∨ n = 1 := by
        rw [PlainValue.num.injEq]
        by_cases h : n = 0
        · simp [h]
        · rw [if_pos (bne_iff_ne.mpr h)]
          omega
      refine Iff.trans ?_ e
      constructor
      · rintro ⟨g, hg, e⟩
        injection hg with hg
        rw [← hg] at e
        exact e
      · intro e
        exact ⟨_, rfl, e⟩
    | _ => exact hv.elim
  | int signed w =>
    cases v with
    | num n =>
      injection ha with ha
      subst ha
      simp only [plain, intType, Lasting, iff_true]
      exact ⟨_, rfl, by rw [castTo_of_inRange hv]⟩
    | _ => exact hv.elim
  | string =>
    cases v with
    | bytes l =>
      injection ha with ha
      subst ha
      exact iff_of_true ⟨_, rfl, rfl⟩ trivial
    | _ => exact hv.elim
  | bytes =>
    cases v with
    | bytes l =>
      injection ha with ha
      subst ha
      rw [hw rfl]
      exact iff_of_true ⟨_, rfl, congrArg _ (Base64.fromEncoded_encode l)⟩ trivial
    | _ => exact hv.elim
  | dateTime =>
    cases v with
    | dateTime d =>
      injection ha with ha
      subst ha
      refine Iff.trans ?_ (DateTime.parseIsoString_toIsoString_eq_iff hv)
      simp only [plain, dateTimeType, Option.map_eq_some_iff]
      constructor
      · rintro ⟨g, ⟨d', hd, rfl⟩, e⟩
        injection e with e
        rw [hd, e]
      · intro hd
        exact ⟨_, ⟨d, hd, rfl⟩, rfl⟩
    | _ => exact hv.elim

end ValueType

end Hatn.Dataunit.Json
