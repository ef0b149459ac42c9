import Hatn.Common.MachineInt
import Hatn.Dataunit.ObjectId

/-!
# Unit schemas and unit values

A unit is a list of fields.  A field holds one element, elements in one of the three
repeated modes, or a map, and the elements are scalars, byte arrays, object ids or
units again.  A value of a unit gives a state to each of its fields in order.
-/

namespace Hatn.Dataunit

open Hatn.Common

/-- `WireType` -/
inductive WireType
  | varInt | fixed64 | withLength | fixed32
  deriving DecidableEq, Repr

def WireType.num : WireType → Nat
  | varInt => 0
  | fixed64 => 1
  | withLength => 2
  | fixed32 => 5

/-- The types whose values are numbers.  `TYPE_BOOL` is an unsigned number of 8 bits,
an enumeration one of 32 bits, and the floating point types stand for their bits. -/
inductive ScalarType
  | varInt (signed : Bool) (w : Width)
  | zigZag (w : Width)
  | fixed32 (signed : Bool)
  | fixed64 (signed : Bool)
  | date
  | time
  | dateTime
  | dateRange
  deriving DecidableEq, Repr

def ScalarType.wireType : ScalarType → WireType
  | fixed32 _ => .fixed32
  | fixed64 _ => .fixed64
  | _ => .varInt

/-- The types of map keys and map values: integers of any type, strings, and the types
that the map items neither write nor read. -/
inductive MapType
  | int (signed : Bool) (w : Width)
  | string
  | other
  deriving DecidableEq, Repr

def MapType.wireType : MapType → WireType
  | string => .withLength
  | _ => .varInt

mutual

/-- The types of elements.  A fixed string has a `maxSize`, other byte arrays have 0. -/
inductive ElemType
  | scalar (t : ScalarType)
  | bytes (maxSize : Nat)
  | objectId
  | unit (fields : List Field)

inductive Field
  | mk (id : Nat) (required : Bool) (kind : FieldKind)

/-- What a field holds: one element, or repeated elements as a count with elements, as
elements with a tag each, or as bytes of packed scalars, or a map. -/
inductive FieldKind
  | single (t : ElemType)
  | counted (t : ElemType)
  | unpacked (t : ElemType)
  | packed (t : ScalarType)
  | map (key value : MapType)

end

namespace Field

def id : Field → Nat
  | mk id _ _ => id

def required : Field → Bool
  | mk _ required _ => required

def kind : Field → FieldKind
  | mk _ _ kind => kind

end Field

def ElemType.wireType : ElemType → WireType
  | scalar t => t.wireType
  | _ => .withLength

/-- `fieldWireType` -/
def FieldKind.wireType : FieldKind → WireType
  | single t => t.wireType
  | unpacked t => t.wireType
  | _ => .withLength

/-! ### Values -/

/-- Contents of fields that are no units. -/
inductive Datum
  | num (n : Int)
  | bytes (l : List UInt8)
  | oid (x : ObjectId)
  deriving DecidableEq

mutual

inductive Value
  | datum (d : Datum)
  | unit (fields : List FieldValue)

/-- The state of a field.  A repeated unit that was added but never set is `none`. -/
inductive FieldValue
  | unset
  | single (v : Value)
  | repeated (l : List (Option Value))
  | map (entries : List (Datum × Datum))

end

namespace FieldValue

/-- `fieldIsSet` -/
def isSet : FieldValue → Bool
  | unset => false
  | _ => true

def elements : FieldValue → List (Option Value)
  | repeated l => l
  | _ => []

def entries : FieldValue → List (Datum × Datum)
  | map l => l
  | _ => []

end FieldValue

def Datum.zero : Datum → Datum
  | num _ => num 0
  | bytes _ => bytes []
  | oid _ => oid ⟨0, 0, 0⟩

/-- `fieldClear`: the content goes, the field stays set unless it is a subunit. -/
def FieldValue.clear : FieldValue → FieldValue
  | unset => unset
  | single (.datum d) => single (.datum d.zero)
  | single (.unit _) => unset
  | repeated _ => repeated []
  | map _ => map []

/-- The fields of a new unit. -/
def freshFields (fs : List Field) : List FieldValue := fs.map (fun _ => .unset)

/-- A new element. -/
def ElemType.fresh : ElemType → Value
  | scalar _ => .datum (.num 0)
  | bytes _ => .datum (.bytes [])
  | objectId => .datum (.oid ⟨0, 0, 0⟩)
  | unit fs => .unit (freshFields fs)

def MapType.fresh : MapType → Datum
  | string => .bytes []
  | _ => .num 0

/-- `checkRequiredFields` -/
def requiredSet : List Field → List FieldValue → Bool
  | f :: fs, v :: vs => (!f.required || v.isSet) && requiredSet fs vs
  | _, _ => true

end Hatn.Dataunit
