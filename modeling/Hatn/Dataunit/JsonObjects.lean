import Hatn.Common.DateTime
import Hatn.Common.MachineInt
import Hatn.Dataunit.ObjectId
import Hatn.Json.Value
import Mathlib.Data.List.ModifyLast

/-!
# Units that are written and read as JSON

The fields of a unit have names here, and a plain type is known by what its reader makes of
a JSON value.  A unit object is the list of its fields, each with its flag and its content:
both stay when the unit is cleared, the content emptied.
-/

namespace Hatn.Dataunit.Json

open Hatn.Common Hatn.Json

/-! ### Types and schemas -/

/-- Contents of plain fields.  Floating point numbers are numbers by their bits. -/
inductive PlainValue
  | num (n : Int)
  | bytes (l : List UInt8)
  | dateTime (d : DateTime)
  | date (d : Date)
  | time (t : Time)
  | dateRange (r : DateRange)
  | oid (x : ObjectId)
  deriving DecidableEq

/-- A type whose values are no units: what `FieldReader` of the type does to the value of a
field for an event that it accepts, and the value that `fieldClear` leaves.  The reader of
object ids takes the flag of the field away when it refuses a string. -/
structure PlainType where
  read : Scalar → Option (PlainValue → PlainValue)
  zero : PlainValue
  dropsFlag : Scalar → Bool
  accepts : ∃ a, (read a).isSome

/-- The integer types.  `TYPE_BOOL` is an unsigned number of 8 bits. -/
def intType (signed : Bool) (w : Width) : PlainType where
  read
    | .bool b => some fun _ => .num (if b then 1 else 0)
    | .integer n => some fun _ => .num (castTo signed w n)
    | _ => none
  zero := .num 0
  dropsFlag _ := false
  accepts := ⟨.bool true, rfl⟩

mutual

inductive Field
  | mk (name : Name) (required : Bool) (kind : FieldKind)

/-- One value of a plain type, with a default value or without one, a subunit, repeated
values, repeated subunits, or a map. -/
inductive FieldKind
  | plain (t : PlainType) (default? : Option PlainValue)
  | subunit (fields : List Field)
  | array (t : PlainType)
  | units (fields : List Field)
  | map

end

namespace Field

def name : Field → Name
  | mk name _ _ => name

/-- `isRequired` -/
def required : Field → Bool
  | mk _ required _ => required

def kind : Field → FieldKind
  | mk _ _ kind => kind

end Field

/-- `fieldByName`, with the place of the field in the unit. -/
def fieldByName : List Field → Name → Option (Nat × Field)
  | [], _ => none
  | f :: fs, k => if f.name = k then some (0, f) else (fieldByName fs k).map fun p => (p.1 + 1, p.2)

theorem fieldByName_getElem? : ∀ {fs : List Field} {k : Name} {i : Nat} {f : Field},
    fieldByName fs k = some (i, f) → fs[i]? = some f ∧ f.name = k
  | [], _, _, _, h => nomatch h
  | g :: fs, k, i, f, h => by
    rw [fieldByName] at h
    split at h
    next e =>
      injection h with h
      injection h with hi hf
      subst hi hf
      exact ⟨rfl, e⟩
    next =>
      rw [Option.map_eq_some_iff] at h
      obtain ⟨⟨j, f'⟩, hj, e⟩ := h
      injection e with hi hf
      subst hi hf
      have := fieldByName_getElem? hj
      exact ⟨this.1, this.2⟩

mutual

/-- No two fields of a unit have the same name, here and in the units within. -/
def FieldKind.Distinct : FieldKind → Prop
  | .subunit fs => Distinct fs
  | .units fs => Distinct fs
  | _ => True

def Distinct : List Field → Prop
  | [] => True
  | .mk name _ kind :: fs => (∀ f ∈ fs, f.name ≠ name) ∧ kind.Distinct ∧ Distinct fs

end

theorem Distinct.kind : ∀ {fs : List Field}, Distinct fs → ∀ {f : Field}, f ∈ fs →
    f.kind.Distinct
  | .mk _ _ _ :: _, h, _, hf => by
    rcases List.mem_cons.mp hf with rfl | hf
    · exact h.2.1
    · exact Distinct.kind h.2.2 hf

/-- A field is found by its name. -/
theorem Distinct.fieldByName : ∀ {fs : List Field}, Distinct fs → ∀ {i : Nat} {f : Field},
    fs[i]? = some f → fieldByName fs f.name = some (i, f)
  | .mk name _ _ :: _, _, 0, f, hf => by
    injection hf with hf
    subst hf
    rw [Hatn.Dataunit.Json.fieldByName]
    exact if_pos rfl
  | .mk name _ _ :: fs, h, i + 1, f, hf => by
    have hne : name ≠ f.name := (h.1 f (List.mem_of_getElem? hf)).symm
    rw [Hatn.Dataunit.Json.fieldByName]
    exact (if_neg hne).trans (by rw [Distinct.fieldByName h.2.2 hf]; rfl)

/-! ### Objects -/

/-- The state of a field.  The content of a subunit is made when it is needed; an element of
repeated subunits has a flag of its own.  What a map holds is not looked at. -/
inductive FieldObject
  | plain (isSet : Bool) (value : PlainValue)
  | subunit (isSet : Bool) (value : Option (List FieldObject))
  | array (isSet : Bool) (elements : List PlainValue)
  | units (isSet : Bool) (elements : List (Bool × List FieldObject))
  | map (isSet : Bool)

/-- The fields of a unit in their order. -/
abbrev UnitObject := List FieldObject

namespace FieldObject

/-- `isSet` -/
def isSet : FieldObject → Bool
  | plain isSet _ => isSet
  | subunit isSet _ => isSet
  | array isSet _ => isSet
  | units isSet _ => isSet
  | map isSet => isSet

/-- `markSet` -/
def markSet (b : Bool) : FieldObject → FieldObject
  | plain _ v => plain b v
  | subunit _ u => subunit b u
  | array _ l => array b l
  | units _ l => units b l
  | map _ => map b

/-- `set`, with the value from the one before. -/
def setValue (g : PlainValue → PlainValue) : FieldObject → FieldObject
  | plain _ v => plain true (g v)
  | x => x

/-- `appendValue` -/
def appendValue (v : PlainValue) : FieldObject → FieldObject
  | array _ l => array true (l ++ [v])
  | x => x

/-- `createAndAppendValue`: the element has a value, but its flag is not set. -/
def createAndAppendValue (fresh : UnitObject) : FieldObject → FieldObject
  | units _ l => units true (l ++ [(false, fresh)])
  | x => x

/-- `mutableValue` of a subunit. -/
def mutableValue (fresh : UnitObject) : FieldObject → FieldObject
  | subunit _ u => subunit true (some (u.getD fresh))
  | x => x

/-- `mutableValue` of the element that was appended. -/
def mutableLast : FieldObject → FieldObject
  | units isSet l => units isSet (l.modifyLast fun e => (true, e.2))
  | x => x

/-- A change of the content of a subunit. -/
def modifyValue (g : UnitObject → UnitObject) : FieldObject → FieldObject
  | subunit isSet u => subunit isSet (u.map g)
  | x => x

/-- A change of the content of the element that was appended. -/
def modifyLast (g : UnitObject → UnitObject) : FieldObject → FieldObject
  | units isSet l => units isSet (l.modifyLast fun e => (e.1, g e.2))
  | x => x

end FieldObject

/-- A new field. -/
def FieldKind.construct : FieldKind → FieldObject
  | plain t default? => .plain false (default?.getD t.zero)
  | subunit _ => .subunit false none
  | array _ => .array false []
  | units _ => .units false []
  | map => .map false

/-- A new unit. -/
def construct (fs : List Field) : UnitObject := fs.map fun f => f.kind.construct

mutual

/-- `fieldClear`: a subunit is no longer set, the other fields keep their flags. -/
def FieldKind.clear : FieldKind → FieldObject → FieldObject
  | .plain t _, .plain isSet _ => .plain isSet t.zero
  | .subunit _, .subunit _ none => .subunit false none
  | .subunit fs, .subunit _ (some u) => .subunit false (some (clear fs u))
  | .array _, .array isSet _ => .array isSet []
  | .units _, .units isSet _ => .units isSet []
  | _, x => x

/-- `Unit::clear` -/
def clear : List Field → UnitObject → UnitObject
  | .mk _ _ kind :: fs, x :: xs => kind.clear x :: clear fs xs
  | _, xs => xs

end

mutual

/-- The field has the form of its kind. -/
def FieldKind.Fits : FieldKind → FieldObject → Prop
  | .plain _ _, .plain _ _ => True
  | .subunit _, .subunit _ none => True
  | .subunit fs, .subunit _ (some u) => Fits fs u
  | .array _, .array _ _ => True
  | .units fs, .units _ l => ∀ e ∈ l, Fits fs e.2
  | .map, .map _ => True
  | _, _ => False

/-- An object of the unit with these fields. -/
def Fits : List Field → UnitObject → Prop
  | [], [] => True
  | .mk _ _ kind :: fs, x :: xs => kind.Fits x ∧ Fits fs xs
  | _, _ => False

end

theorem FieldKind.construct_fits (k : FieldKind) : k.Fits k.construct := by
  cases k <;> simp [construct, FieldKind.Fits]

theorem construct_fits : ∀ fs : List Field, Fits fs (construct fs)
  | [] => trivial
  | .mk _ _ kind :: fs => ⟨kind.construct_fits, construct_fits fs⟩

end Hatn.Dataunit.Json
