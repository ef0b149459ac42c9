import Hatn.Dataunit.Deserialize

/-!
# Unit objects

A unit object is parsed again and again.  It keeps a `clean` flag, and its fields keep
contents also while they are not set: byte arrays in two places, an unset time point with
the time zone it was made with.  The readers here work on objects; each parse begins with
a reset of an object that is not clean.
-/

namespace Hatn.Dataunit

open Hatn.Common Hatn.Wire Hatn.Wire.Parser

/-- `BytesTraits`: the bytes are in the shared array, if there is one. -/
@[ext] structure ByteStore where
  onstack : List UInt8
  shared : Option (List UInt8)

namespace ByteStore

def empty : ByteStore := ⟨[], none⟩

def buf (s : ByteStore) : List UInt8 := s.shared.getD s.onstack

def setBuf (s : ByteStore) (l : List UInt8) : ByteStore :=
  match s.shared with
  | some _ => { s with shared := some l }
  | none => { s with onstack := l }

/-- `BytesTraits::clear` and `BytesTraits::reset`: a shared array goes, else the other is
emptied. -/
def reset (s : ByteStore) : ByteStore :=
  match s.shared with
  | some _ => { s with shared := none }
  | none => { s with onstack := [] }

/-- `_BytesSer::load` -/
def load (toShared : Bool) (s : ByteStore) (l : List UInt8) : ByteStore :=
  if toShared then { s with shared := some l } else s.setBuf l

/-- While there is a shared array the other one is empty. -/
def Sound (s : ByteStore) : Prop := s.shared.isSome → s.onstack = []

theorem Sound.reset {s : ByteStore} (hs : s.Sound) : s.reset = empty := by
  obtain ⟨onstack, shared⟩ := s
  cases shared with
  | none => rfl
  | some l =>
    have : onstack = [] := hs rfl
    rw [this]
    rfl

theorem Sound.setBuf {s : ByteStore} (hs : s.Sound) (l : List UInt8) : (s.setBuf l).Sound := by
  obtain ⟨onstack, shared⟩ := s
  cases shared with
  | none => nofun
  | some _ => exact fun _ => hs rfl

/-- Loading follows an emptying of the array in use. -/
theorem Sound.load {s : ByteStore} (hs : s.Sound) (toShared : Bool) (l : List UInt8) :
    ((s.setBuf []).load toShared l).Sound := by
  cases toShared with
  | false => exact (hs.setBuf []).setBuf l
  | true =>
    obtain ⟨onstack, shared⟩ := s
    cases shared with
    | none => exact fun _ => rfl
    | some _ => exact fun _ => hs rfl

end ByteStore

/-- A time point that was read is its number; an invalid one has a time zone. -/
inductive TimePoint
  | null (tz : Int)
  | epoch (n : Int)
  deriving DecidableEq

/-- What a field of one element keeps. -/
inductive Content
  | num (n : Int)
  | dateTime (t : TimePoint)
  | bytes (s : ByteStore)
  | oid (x : ObjectId)

namespace Content

def clear : Content → Content
  | num _ => num 0
  | dateTime _ => dateTime (.null 0)
  | bytes s => bytes s.reset
  | oid _ => oid ⟨0, 0, 0⟩

def store : Content → ByteStore
  | bytes s => s
  | _ => .empty

end Content

mutual

inductive UnitObject
  | mk (clean : Bool) (fields : List FieldObject)

/-- The state of a field.  The value of a subunit is made when it is needed. -/
inductive FieldObject
  | plain (isSet : Bool) (value : Content)
  | subunit (isSet : Bool) (value : Option UnitObject)
  | repeated (isSet : Bool) (elements : List ElemObject)
  | map (isSet : Bool) (entries : List (Datum × Datum))

inductive ElemObject
  | content (c : Content)
  | unit (u : UnitObject)

end

namespace UnitObject

/-- `isClean` -/
def isClean : UnitObject → Bool
  | mk clean _ => clean

def fields : UnitObject → List FieldObject
  | mk _ fields => fields

end UnitObject

namespace FieldObject

/-- `fieldIsSet` -/
def isSet : FieldObject → Bool
  | plain isSet _ => isSet
  | subunit isSet _ => isSet
  | repeated isSet _ => isSet
  | map isSet _ => isSet

def content : FieldObject → Content
  | plain _ c => c
  | _ => .num 0

def value : FieldObject → Option UnitObject
  | subunit _ u => u
  | _ => none

def elements : FieldObject → List ElemObject
  | repeated _ l => l
  | _ => []

def entries : FieldObject → List (Datum × Datum)
  | map _ l => l
  | _ => []

/-- `fieldReset` -/
def reset : FieldObject → FieldObject
  | plain _ c => plain false c.clear
  | subunit _ _ => subunit false none
  | repeated _ _ => repeated false []
  | map _ _ => map false []

end FieldObject

mutual

/-- `visitors::clear` -/
def UnitObject.clear : UnitObject → UnitObject
  | .mk clean fields => .mk clean (clearFields fields)

def clearFields : List FieldObject → List FieldObject
  | [] => []
  | x :: xs => x.clear :: clearFields xs

/-- `fieldClear` -/
def FieldObject.clear : FieldObject → FieldObject
  | .plain isSet c => .plain isSet c.clear
  | .subunit _ none => .subunit false none
  | .subunit _ (some u) => .subunit false (some u.clear)
  | .repeated isSet _ => .repeated isSet []
  | .map isSet _ => .map isSet []

end

/-- `visitors::reset` -/
def UnitObject.reset (onlyNonClean : Bool) (u : UnitObject) : UnitObject :=
  .mk true (if !onlyNonClean || !u.isClean then u.fields.map FieldObject.reset else u.fields)

/-- `checkRequiredFields` -/
def requiredObjects : List Field → List FieldObject → Bool
  | f :: fs, x :: xs => (!f.required || x.isSet) && requiredObjects fs xs
  | _, _ => true

/-! ### New objects -/

/-- What parsing depends on besides the buffer: the time zone of new time points and
whether byte arrays are loaded into shared arrays (`isUseSharedBuffers`). -/
structure ObjectEnv extends Env where
  sharedBuffers : Bool
  defaultTz : Int

def ElemType.construct (defaultTz : Int) : ElemType → Content
  | .scalar .dateTime => .dateTime (.null defaultTz)
  | .scalar _ => .num 0
  | .bytes _ => .bytes .empty
  | .objectId => .oid ⟨0, 0, 0⟩
  | .unit _ => .num 0

def FieldKind.construct (defaultTz : Int) : FieldKind → FieldObject
  | .single (.unit _) => .subunit false none
  | .single t => .plain false (t.construct defaultTz)
  | .counted _ => .repeated false []
  | .unpacked _ => .repeated false []
  | .packed _ => .repeated false []
  | .map _ _ => .map false []

def constructFields (defaultTz : Int) (fs : List Field) : List FieldObject :=
  fs.map fun f => f.kind.construct defaultTz

/-- A new unit. -/
def UnitObject.construct (defaultTz : Int) (fs : List Field) : UnitObject :=
  .mk true (constructFields defaultTz fs)

/-! ### Parsing into objects -/

/-- `deserialize` of the fields of one element; `current` is the content before. -/
def ElemType.readContent (env : ObjectEnv) (buf : List UInt8) (current : Content) :
    ElemType → Reader Content
  | .scalar .dateTime => do
    let n ← readScalar env.toEnv buf .dateTime
    return .dateTime (.epoch n)
  | .scalar t => do
    let n ← readScalar env.toEnv buf t
    return .num n
  | .bytes maxSize => do
    let dataSize ← readUint32 buf
    let l ← takeBytes (env.inlineBuffers && maxSize == 0) maxSize buf dataSize
    return .bytes (if dataSize = 0 then current.store.setBuf []
      else (current.store.setBuf []).load (env.sharedBuffers && maxSize == 0) l)
  | .objectId => do
    let x ← readObjectId buf
    return .oid x
  | .unit _ => reject

/-- An entry of `fieldParsers`. -/
structure ObjectParser where
  id : Nat
  wireType : WireType
  fn : FieldObject → Reader FieldObject

/-- `fieldParser`: the field with this id, with its place in the unit. -/
def findObject (parsers : List ObjectParser) (id : Nat) :
    Option (UnitFieldParser (List FieldObject)) :=
  (parsers.zipIdx.find? (fun p => p.1.id == id)).map (fun p =>
    ⟨p.1.wireType, fun x => do
      let v ← p.1.fn (x.getD p.2 (.map false []))
      return x.set p.2 v⟩)

/-- `visitors::deserialize` into an object, up to `size`. -/
def parseObject (parsers : List ObjectParser) (fs : List Field) (buf : List UInt8) (fuel : Nat)
    (u : UnitObject) (size : Nat) : Reader UnitObject := do
  let xs ← deserializeFields (findObject parsers) (requiredObjects fs) buf fuel
    (u.reset true).fields size
  return .mk false xs

/-- `UnitSer::deserialize` into an object. -/
def readSubunit (parsers : List ObjectParser) (fs : List Field) (buf : List UInt8) (fuel : Nat)
    (u : UnitObject) : Reader UnitObject :=
  readUnit (parseObject parsers fs buf fuel u) (fun u => requiredObjects fs u.fields) buf u

/-- The elements behind their count. -/
def takeElements (element : Reader ElemObject) (buf : List UInt8) (count : Nat) :
    Reader FieldObject := do
  let o ← offset
  if buf.length < o then reject
  else if buf.length - o < count then reject
  else do
    let l ← times element count
    return .repeated true l

/-- Packed scalars as elements. -/
def numElements (x : FieldValue) : List ElemObject :=
  x.elements.filterMap fun
    | some (.datum (.num n)) => some (.content (.num n))
    | _ => none

mutual

/-- A new element of a repeated field. -/
def ElemType.readElement (env : ObjectEnv) (buf : List UInt8) (fuel : Nat) :
    ElemType → Reader ElemObject
  | .unit fs => do
    let u ← readSubunit (objectParsers env buf fuel fs) fs buf fuel
      (.construct env.defaultTz fs)
    return .unit u
  | .scalar t => do
    let c ← (ElemType.scalar t).readContent env buf ((ElemType.scalar t).construct env.defaultTz)
    return .content c
  | .bytes maxSize => do
    let c ← (ElemType.bytes maxSize).readContent env buf (.bytes .empty)
    return .content c
  | .objectId => do
    let c ← ElemType.objectId.readContent env buf (.oid ⟨0, 0, 0⟩)
    return .content c

/-- `deserialize` of the field classes. -/
def FieldKind.parse (env : ObjectEnv) (buf : List UInt8) (fuel : Nat) :
    FieldKind → FieldObject → Reader FieldObject
  | .single (.unit fs), x => do
    -- the value is made if there is none, and cleared in any case
    let current := x.value.getD (.construct env.defaultTz fs)
    let u ← readSubunit (objectParsers env buf fuel fs) fs buf fuel current.clear
    return .subunit true (some u)
  | .single (.scalar t), x => do
    let c ← (ElemType.scalar t).readContent env buf x.content
    return .plain true c
  | .single (.bytes maxSize), x => do
    let c ← (ElemType.bytes maxSize).readContent env buf x.content
    return .plain true c
  | .single .objectId, x => do
    let c ← ElemType.objectId.readContent env buf x.content
    return .plain true c
  | .counted t, _ => do
    let count ← readUint32 buf
    takeElements (t.readElement env buf fuel) buf count
  | .unpacked t, x => do
    let e ← t.readElement env buf fuel
    return .repeated true (x.elements ++ [e])
  | .packed t, _ => do
    let length ← readUint32 buf
    let l ← takePacked (readScalar env.toEnv buf t) buf fuel length
    return .repeated true (numElements l)
  | .map key value, x => do
    let e ← readUnit (deserializeFields (mapItemParser key value buf) (fun _ => true) buf fuel
      (key.fresh, value.fresh)) (fun _ => true) buf (key.fresh, value.fresh)
    return .map true (emplace e.1 e.2 x.entries)

def Field.objectParser (env : ObjectEnv) (buf : List UInt8) (fuel : Nat) : Field → ObjectParser
  | .mk id _ kind => ⟨id, kind.wireType, kind.parse env buf fuel⟩

def objectParsers (env : ObjectEnv) (buf : List UInt8) (fuel : Nat) :
    List Field → List ObjectParser
  | [] => []
  | f :: fs => f.objectParser env buf fuel :: objectParsers env buf fuel fs

end

end Hatn.Dataunit
