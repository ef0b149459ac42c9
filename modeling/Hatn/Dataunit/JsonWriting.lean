import Hatn.Dataunit.JsonReading
import Hatn.Dataunit.JsonTypes

/-!
# Writing a unit as JSON

`toJSON` goes through the fields of a unit, leaves out those that are neither set nor have a
default value, and gives the others to the writer of rapidjson.  The writer and the reader of
rapidjson are a parameter.
-/

namespace Hatn.Dataunit.Json

open Hatn.Json

/-! ### Schemas of types -/

mutual

/-- The declaration of a field of a unit that has no map. -/
inductive FieldConf
  | mk (name : Name) (required : Bool) (type : TypeConf)

/-- A type, with a default value or without one, a subunit, and repeated fields of these.  Bytes
have no default value. -/
inductive TypeConf
  | plain (t : ValueType) (default? : Option PlainValue) (h : t = .bytes → default? = none)
  | subunit (fields : List FieldConf)
  | array (t : ValueType)
  | units (fields : List FieldConf)

end

/-- `hasDefaultValue` -/
def TypeConf.hasDefaultValue : TypeConf → Bool
  | plain _ default? _ => default?.isSome
  | _ => false

mutual

/-- What the readers see of the type of a field. -/
def TypeConf.kind (defaultTz : Int) : TypeConf → FieldKind
  | .plain t default? _ => .plain (t.plain defaultTz) default?
  | .subunit cs => .subunit (fields defaultTz cs)
  | .array t => .array (t.plain defaultTz)
  | .units cs => .units (fields defaultTz cs)

def fields (defaultTz : Int) : List FieldConf → List Field
  | [] => []
  | .mk name required type :: cs => .mk name required (type.kind defaultTz) :: fields defaultTz cs

end

/-! ### Writing -/

/-- `field.isSet() || field.hasDefaultValue()` -/
def TypeConf.written (type : TypeConf) (x : FieldObject) : Bool := x.isSet || type.hasDefaultValue

mutual

/-- `toJSON` of the field classes.  A subunit without a value is an empty object. -/
def TypeConf.toJSON : TypeConf → FieldObject → Option Value
  | .plain t _ _, .plain _ v => (t.write v).map .scalar
  | .subunit _, .subunit _ none => some (.object [])
  | .subunit cs, .subunit _ (some u) => (membersToJSON cs u).map .object
  | .array t, .array _ l => (l.mapM t.write).map fun as => .array (as.map .scalar)
  | .units cs, .units _ l =>
    (l.mapM fun e => membersToJSON cs e.2).map fun mss => .array (mss.map .object)
  | _, _ => none

/-- The fields that `toJSON` of a unit goes through; it ends at a required field that is not
set. -/
def membersToJSON : List FieldConf → UnitObject → Option (List (Name × Value))
  | .mk name required type :: cs, x :: xs =>
    if !type.written x then if required then none else membersToJSON cs xs
    else match type.toJSON x, membersToJSON cs xs with
      | some v, some ms => some ((name, v) :: ms)
      | _, _ => none
  | [], [] => some []
  | _, _ => none

end

/-- `toJSON` with a writer. -/
def toJSON (cs : List FieldConf) (u : UnitObject) : Option Value :=
  (membersToJSON cs u).map .object

/-- The library: what its writers, the compact and the pretty one, put into a stream for the
events of a value, and what its reader finds in a text. -/
structure Rapidjson where
  write : Bool → Value → List UInt8
  read : List UInt8 → Text

/-- The library reports what it has written. -/
def Rapidjson.Faithful (r : Rapidjson) (v : Value) : Prop := ∀ pretty, r.read (r.write pretty v) = .whole v

/-- `toJSONImpl`: whether it succeeds, and the buffer; the stream appends to it, and of a
failure nothing stays. -/
def toJSONImpl (r : Rapidjson) (cs : List FieldConf) (u : UnitObject) (buf : List UInt8)
    (prettyFormat : Bool) : Bool × List UInt8 :=
  match toJSON cs u with
  | some v => (true, buf ++ r.write prettyFormat v)
  | none => (false, buf)

/-! ### Written fields -/

section
variable {name : Name} {required : Bool} {type : TypeConf} {cs : List FieldConf} {x : FieldObject}
  {xs : UnitObject} {ms : List (Name × Value)}

/-- Objects have as many fields as are declared. -/
theorem membersToJSON_cons_eq_some : ∀ {u : UnitObject},
    membersToJSON (.mk name required type :: cs) u = some ms →
    ∃ x xs ms', u = x :: xs ∧ membersToJSON cs xs = some ms' ∧
      (type.written x = false ∧ ms = ms' ∨
        type.written x = true ∧ ∃ v, type.toJSON x = some v ∧ ms = (name, v) :: ms')
  | [], h => by
    rw [membersToJSON] at h
    · cases h
    all_goals simp
  | x :: xs, h => by
    rw [membersToJSON] at h
    cases hw : type.written x with
    | false =>
      simp only [hw, Bool.not_false, if_true] at h
      split at h
      · cases h
      · exact ⟨x, xs, ms, rfl, h, .inl ⟨hw, rfl⟩⟩
    | true =>
      simp only [hw, Bool.not_true, Bool.false_eq_true, if_false] at h
      split at h
      next v ms' hv hms =>
        injection h with h
        exact ⟨x, xs, ms', rfl, hms, .inr ⟨hw, v, hv, h.symm⟩⟩
      next => cases h

theorem membersToJSON_nil_eq_some {u : UnitObject} (h : membersToJSON [] u = some ms) :
    u = [] ∧ ms = [] := by
  cases u with
  | nil =>
    rw [membersToJSON] at h
    injection h with h
    exact ⟨rfl, h.symm⟩
  | cons x xs =>
    rw [membersToJSON] at h
    · cases h
    all_goals simp

end

theorem fields_append (defaultTz : Int) : ∀ cs cs' : List FieldConf,
    fields defaultTz (cs ++ cs') = fields defaultTz cs ++ fields defaultTz cs' := by
  intro cs
  induction cs with
  | nil => intro cs'; rfl
  | cons c cs ih =>
    obtain ⟨name, required, type⟩ := c
    intro cs'
    rw [List.cons_append, fields, ih, fields]
    rfl

@[simp] theorem fields_length (defaultTz : Int) (cs : List FieldConf) :
    (fields defaultTz cs).length = cs.length := by
  induction cs with
  | nil => rfl
  | cons c cs ih =>
    obtain ⟨name, required, type⟩ := c
    rw [fields, List.length_cons, ih, List.length_cons]

end Hatn.Dataunit.Json
