import Hatn.Db.FieldPaths

/-!
# Applying an update to a unit

An update names a field by a path through subunits and elements of repeated subunits.
`resolveField` walks there: what it goes into is made where it is not there yet, and is marked as
set.  An index that is out of range ends the walk without an error.  `HandleField` applies the
operator to the field that is found.
-/

namespace Hatn.Db.Update

/-- What the templates of fields do with values that are no units, for all of their types. -/
structure ScalarTypes where
  /-- The types of fields, with their default values. -/
  FieldType : Type
  Value : Type
  /-- The values of requests. -/
  Operand : Type
  defaultValue : FieldType → Value
  /-- `std::is_convertible`: without it the field asserts. -/
  isConvertible : FieldType → Operand → Bool
  /-- `static_cast` to the type of the field, or the bytes that are loaded. -/
  cast : FieldType → Operand → Value
  isArithmetic : Operand → Bool
  /-- The sum, as a value of the field. -/
  add : FieldType → Value → Operand → Value
  /-- `ScalarCompare::equal`, or the comparison of bytes. -/
  equal : FieldType → Value → Operand → Bool

/-- `RepeatedFieldTmpl`: the flag and the elements. -/
@[ext] structure RepeatedField (α : Type) where
  isSet : Bool
  vector : List α

mutual

/-- A unit of a type, with its fields by their ids. -/
inductive UnitState (S : ScalarTypes) (τ : Type)
  | mk (type : τ) (fields : Int → Option (FieldState S τ))

inductive FieldState (S : ScalarTypes) (τ : Type)
  | scalar (type : S.FieldType) (isSet : Bool) (value : S.Value)
  | subunit (type : τ) (field : SubunitState S τ)
  | repeated (type : S.FieldType) (field : RepeatedField S.Value)
  | repeatedSubunit (type : τ) (field : RepeatedField (SubunitState S τ))
  | map (isSet : Bool) (entries : List (S.Value × S.Value))

/-- `SubunitT`: the value is made when it is needed. -/
inductive SubunitState (S : ScalarTypes) (τ : Type)
  | mk (isSet : Bool) (value : Option (UnitState S τ))

end

/-- The types of units, and how units are written and read. -/
structure UnitTypes (S : ScalarTypes) where
  UnitType : Type
  [decEq : DecidableEq UnitType]
  /-- A new unit of the type. -/
  construct : UnitType → UnitState S UnitType
  /-- `UnitSer::serialize`, unless it fails. -/
  serialize : UnitState S UnitType → Option (List UInt8)
  /-- `UnitSer::deserialize` into a unit: what becomes of it, and whether that succeeds. -/
  deserialize : UnitState S UnitType → List UInt8 → UnitState S UnitType × Bool

attribute [instance] UnitTypes.decEq

inductive DbError
  | updateFieldNotFound
  | updateInvalidSubunit
  deriving DecidableEq, Repr

/-- What a call leaves, with the error that it returns; `none` where an assertion fails. -/
abbrev Outcome (α : Type) := Option (α × Option DbError)

def Outcome.map {α β : Type} (g : α → β) (o : Outcome α) : Outcome β :=
  Option.map (fun r => (g r.1, r.2)) o

inductive Operator
  | set | unset | inc | push | pop | push_unique | replace_element | erase_element | inc_element
  deriving DecidableEq, Repr

/-- The operators that address an element. -/
def Operator.isElement : Operator → Bool
  | replace_element | erase_element | inc_element => true
  | _ => false

variable {S : ScalarTypes} (U : UnitTypes S)

/-- One value of a request: a pointer to a subunit may be null, the bytes of a subunit are those
of a request that was read. -/
inductive Element
  | scalar (v : S.Operand)
  | subunit (val : Option (UnitState S U.UnitType))
  | subunitBuf (val : List UInt8)

inductive Operand
  | one (e : Element U)
  | vector (l : List (Element U))

/-- `update::Field`, with what its `check` asserts. -/
structure UpdateField where
  path : FieldPath
  op : Operator
  value : Operand U
  path_ne : path ≠ []
  /-- `_id`, `created_at` and `updated_at` are not updated. -/
  updatable : (path.head path_ne).fieldId ∉ [100, 101, 102]
  indexed : op.isElement = true → 0 ≤ (path.getLast path_ne).idx

/-! ### Units and subunits -/

variable {U}

namespace UnitState

def type {τ : Type} : UnitState S τ → τ
  | mk type _ => type

def fieldById {τ : Type} : UnitState S τ → Int → Option (FieldState S τ)
  | mk _ fields, id => fields id

/-- The field of an id becomes another one. -/
def setField {τ : Type} : UnitState S τ → Int → FieldState S τ → UnitState S τ
  | mk type fields, id, field => mk type (Function.update fields id (some field))

end UnitState

namespace SubunitState

variable {τ : Type}

def isSet : SubunitState S τ → Bool
  | mk isSet _ => isSet

def value : SubunitState S τ → Option (UnitState S τ)
  | mk _ value => value

/-- The unit that `mutableValue` returns; `mark` is what it makes of the field. -/
def mutableValue (s : SubunitState S U.UnitType) (type : U.UnitType) : UnitState S U.UnitType :=
  s.value.getD (U.construct type)

/-- The field is marked as set, and this is its unit. -/
def mark (u : UnitState S τ) : SubunitState S τ := mk true (some u)

end SubunitState

/-! ### Elements of repeated fields -/

variable (U) in
/-- `RepeatedGetterSetter`: what the type of the elements decides. -/
structure RepeatedGetterSetter (α : Type) where
  /-- The element that `createAndAppendValue` adds. -/
  createValue : α
  /-- `setVal` and `bufSetValue`, and `parseSubunit` of bytes into the element. -/
  setVal : α → Element U → Outcome α
  incVal : α → S.Operand → Option α
  equals : α → S.Operand → Option Bool
  /-- `arraySubunit` with `serializeSubunitBytes`: the element behind it, and its bytes. -/
  serialized : α → Option (α × Option (List UInt8))

def scalars (type : S.FieldType) : RepeatedGetterSetter U S.Value where
  createValue := S.defaultValue type
  setVal _ e := match e with
    | .scalar v => if S.isConvertible type v then some (S.cast type v, none) else none
    | _ => none
  incVal x v := if S.isConvertible type v then some (S.add type x v) else none
  equals x v := if S.isConvertible type v then some (S.equal type x v) else none
  serialized _ := none

def parseSubunit (target : UnitState S U.UnitType) (val : List UInt8) :
    Outcome (SubunitState S U.UnitType) :=
  let parsed := U.deserialize target val
  some (.mark parsed.1, if parsed.2 then none else some .updateInvalidSubunit)

def subunits (type : U.UnitType) : RepeatedGetterSetter U (SubunitState S U.UnitType) where
  createValue := ⟨false, some (U.construct type)⟩
  setVal s e := match e with
    | .scalar _ => none
    -- a null pointer is not looked at, and the types have one name
    | .subunit val => val.bind fun u => if u.type = type then some (.mark u, none) else none
    | .subunitBuf val => parseSubunit (s.mutableValue type) val
  incVal _ _ := none
  equals _ _ := none
  serialized s := some (.mark (s.mutableValue type), U.serialize (s.mutableValue type))

/-! ### Repeated fields -/

namespace RepeatedField

variable {α : Type} (A : RepeatedGetterSetter U α)

def arraySize (f : RepeatedField α) : Nat := f.vector.length

def arrayResize (f : RepeatedField α) (size : Nat) : RepeatedField α :=
  if f.vector.length < size then
    ⟨true, f.vector ++ List.replicate (size - f.vector.length) A.createValue⟩
  else if size = f.vector.length then f
  else ⟨true, f.vector.take size⟩

def arrayErase (f : RepeatedField α) (idx : Nat) : RepeatedField α :=
  { f with vector := f.vector.eraseIdx idx }

/-- `arrayAppend`, and `appendSubunitBufElement` for bytes of a subunit. -/
def arrayAppend (f : RepeatedField α) (e : Element U) : Outcome (RepeatedField α) :=
  (A.setVal A.createValue e).map fun x => ⟨true, f.vector ++ [x]⟩

/-- `arraySet`, and `parseSubunit` for bytes of a subunit. -/
def arraySet (f : RepeatedField α) (idx : Nat) (e : Element U) : Outcome (RepeatedField α) :=
  match f.vector[idx]? with
  | none => some (f, none)
  | some x => (A.setVal x e).map fun x => { f with vector := f.vector.set idx x }

def arrayInc (f : RepeatedField α) (idx : Nat) (v : S.Operand) : Outcome (RepeatedField α) :=
  match f.vector[idx]? with
  | none => some (f, none)
  | some x => (A.incVal x v).map fun x => ({ f with vector := f.vector.set idx x }, none)

/-- The loop of `set` over the values and the elements. -/
def setElements : List (Element U) → List α → Outcome (List α)
  | e :: es, x :: xs => match A.setVal x e with
    | none => none
    | some (x, some ec) => some (x :: xs, some ec)
    | some (x, none) => (setElements es xs).map (x :: ·)
  | _, l => some (l, none)

/-- The loop of `push_unique` over the elements: is one equal? -/
def findEqual (v : S.Operand) : List α → Option Bool
  | [] => some false
  | x :: xs => (A.equals x v).bind fun equal => if equal then some true else findEqual v xs

/-- The loop of `pushUniqueSubunitBytes`: what becomes of the elements, and has one these bytes? -/
def findBytes (bytes : List UInt8) : List α → Outcome (List α × Bool)
  | [] => some (([], false), none)
  | x :: xs => match A.serialized x with
    | none => none
    | some (x, none) => some ((x :: xs, false), some .updateInvalidSubunit)
    | some (x, some elem) =>
      if elem = bytes then some ((x :: xs, true), none)
      else (findBytes bytes xs).map fun r => (x :: r.1, r.2)

/-- `pushUniqueSubunitBytes` -/
def pushUniqueSubunitBytes (f : RepeatedField α) (bytes : List UInt8) (e : Element U) :
    Outcome (RepeatedField α) :=
  match findBytes A bytes f.vector with
  | none => none
  | some ((l, _), some ec) => some ({ f with vector := l }, some ec)
  | some ((l, true), none) => some ({ f with vector := l }, none)
  | some ((l, false), none) => arrayAppend A { f with vector := l } e

def pushUnique (f : RepeatedField α) : Element U → Outcome (RepeatedField α)
  | .scalar v => (findEqual A v f.vector).bind fun found =>
    if found then some (f, none) else f.arrayAppend A (.scalar v)
  | .subunit val => match val.bind U.serialize with
    | none => some (f, some .updateInvalidSubunit)
    | some bytes => f.pushUniqueSubunitBytes A bytes (.subunit val)
  | .subunitBuf val => f.pushUniqueSubunitBytes A val (.subunitBuf val)

/-- What `HandleField` does with a repeated field. -/
def handle (op : Operator) (idx : Nat) (value : Operand U) (f : RepeatedField α) :
    Outcome (RepeatedField α) :=
  match op, value with
  | .replace_element, .one e => f.arraySet A idx e
  | .replace_element, .vector _ => some (f, none)
  | .erase_element, _ => some (if idx < f.arraySize then f.arrayErase idx else f, none)
  | .inc_element, .one (.scalar v) => if S.isArithmetic v then f.arrayInc A idx v else none
  | .inc_element, _ => none
  | .set, .vector l => (setElements A l (f.arrayResize A l.length).vector).map fun l' =>
    { f.arrayResize A l.length with vector := l' }
  | .set, .one _ => none
  | .unset, _ => some (⟨false, []⟩, none)
  | .inc, _ => none
  | .push, .one e => f.arrayAppend A e
  | .push, .vector _ => some (f, none)
  | .pop, _ => some (if 0 < f.arraySize then f.arrayResize A (f.arraySize - 1) else f, none)
  | .push_unique, .one e => f.pushUnique A e
  | .push_unique, .vector _ => some (f, none)

end RepeatedField

/-! ### Fields -/

namespace FieldState

/-- What `HandleField` does with a field that is not repeated: the operations of arrays assert. -/
def handleSingle {α : Type} (A : RepeatedGetterSetter U α) (op : Operator) (value : Operand U)
    (x : α) (mk : Bool → α → FieldState S U.UnitType) (field reset : FieldState S U.UnitType) :
    Outcome (FieldState S U.UnitType) :=
  match op, value with
  | .replace_element, _ | .erase_element, _ | .inc_element, _ =>
    some (field, some .updateFieldNotFound)
  | .set, .one e => (A.setVal x e).map (mk true)
  | .unset, _ => some (reset, none)
  | .inc, .one (.scalar v) =>
    if S.isArithmetic v then (A.incVal x v).map fun x => (mk true x, none) else none
  | .push, .vector _ | .push_unique, .vector _ => some (field, none)
  | .push_unique, .one (.subunit val) =>
    if (val.bind U.serialize).isNone then some (field, some .updateInvalidSubunit) else none
  | _, _ => none

/-- What `HandleField` does with a map: it is an array without the operations of arrays. -/
def handleMap (op : Operator) (value : Operand U) (field : FieldState S U.UnitType) :
    Outcome (FieldState S U.UnitType) :=
  match op, value with
  | .unset, _ => some (.map false [], none)
  | .replace_element, .vector _ | .push, .vector _ | .push_unique, .vector _ =>
    some (field, none)
  | .push_unique, .one (.subunit val) =>
    if (val.bind U.serialize).isNone then some (field, some .updateInvalidSubunit) else none
  | _, _ => none

/-- What `HandleField` does with the field that was found, `idx` being the index of the path. -/
def handle (op : Operator) (idx : Nat) (value : Operand U) :
    FieldState S U.UnitType → Outcome (FieldState S U.UnitType)
  | scalar type isSet x => handleSingle (scalars type) op value x (scalar type)
    (scalar type isSet x) (scalar type false (S.defaultValue type))
  | subunit type s => handleSingle (subunits type) op value s (fun _ => subunit type)
    (subunit type s) (subunit type ⟨false, none⟩)
  | repeated type f => (f.handle (scalars type) op idx value).map (repeated type)
  | repeatedSubunit type f => (f.handle (subunits type) op idx value).map (repeatedSubunit type)
  | map isSet entries => handleMap op value (map isSet entries)

end FieldState

/-! ### The walk -/

variable (U) in
/-- Where an item of a path leads that is not the last one. -/
inductive Descent
  | notFound
  /-- The field is an array of such units, and the index is out of its range. -/
  | outOfRange (type : U.UnitType)
  | into (type : U.UnitType) (s : SubunitState S U.UnitType)

/-- One turn of the loop of `resolveField`, at the field of the item. -/
def FieldState.descend (idx : Int) : Option (FieldState S U.UnitType) → Descent U
  | some (.subunit type s) => .into type s
  | some (.repeatedSubunit type f) =>
    if idx < 0 then .notFound
    else match f.vector[idx.toNat]? with
      | none => .outOfRange type
      | some s => .into type s
  -- there is no such field, or it is neither a subunit nor an array of subunits
  | _ => .notFound

namespace UnitState

def descend (u : UnitState S U.UnitType) (item : FieldPathElement) : Descent U :=
  FieldState.descend item.idx (u.fieldById item.fieldId)

/-- The subunit that an item leads into becomes another one. -/
def putSubunit {τ : Type} (u : UnitState S τ) (item : FieldPathElement) (s : SubunitState S τ) :
    UnitState S τ :=
  match u.fieldById item.fieldId with
  | some (.subunit type _) => u.setField item.fieldId (.subunit type s)
  | some (.repeatedSubunit type f) => u.setField item.fieldId
    (.repeatedSubunit type { f with vector := f.vector.set item.idx.toNat s })
  | _ => u

/-- `resolveField`, with what the caller makes of the field that it finds. -/
def resolveField : UnitState S U.UnitType → FieldPath →
    (FieldState S U.UnitType → Outcome (FieldState S U.UnitType)) →
    Outcome (UnitState S U.UnitType)
  | u, [], _ => some (u, none)
  | u, [item], k => match u.fieldById item.fieldId with
    | none => some (u, some .updateFieldNotFound)
    | some field => (k field).map (u.setField item.fieldId)
  | u, item :: next :: rest, k => match u.descend item with
    | .notFound => some (u, some .updateFieldNotFound)
    | .outOfRange _ => some (u, none)
    | .into type s => (resolveField (s.mutableValue type) (next :: rest) k).map fun v =>
      u.putSubunit item (.mark v)

end UnitState

/-- The index of the last item, as `size_t`. -/
def UpdateField.idx (f : UpdateField U) : Nat := (f.path.getLast f.path_ne).idx.toNat

/-- `HandleField` -/
def HandleField (u : UnitState S U.UnitType) (f : UpdateField U) :
    Outcome (UnitState S U.UnitType) :=
  u.resolveField f.path (FieldState.handle f.op f.idx f.value)

/-- `ApplyRequest` -/
def ApplyRequest : UnitState S U.UnitType → List (UpdateField U) → Outcome (UnitState S U.UnitType)
  | u, [] => some (u, none)
  | u, f :: fs => match HandleField u f with
    | none => none
    | some (u, some ec) => some (u, some ec)
    | some (u, none) => ApplyRequest u fs

end Hatn.Db.Update
