import Hatn.Dataunit.Stream
import Hatn.Dataunit.Schema
import Hatn.Common.DateTime
import Hatn.Wire.Loop

/-!
# Deserializing units

The readers of the wire format, from varints up to `visitors::deserialize`.  They work
on a solid buffer: the bytes `buf` of its container are fixed, the offset is the state
of the parser.  A reader logs

* the slices it reads or hands to a loader,
* the lengths it takes from the wire, with the offset behind them,
* the lengths of unknown fields, with the start of the field,
* the rounds of the field loop that do not return, with their offsets.

A reader fails when the source returns false (`rejected`) or throws (`thrown`).  The
source goes on where a loader reads outside of the container; here this is a failure of
its own, and so is the end of the fuel that bounds the loops.
-/

namespace Hatn.Dataunit

open Hatn.Common Hatn.Wire Hatn.Wire.Parser

/-- The readers that take a length from the wire.  `view` tells that the loader keeps a
view of the buffer and does not copy. -/
inductive LengthKind
  | bytes (view : Bool)
  | objectId
  | unit
  | packed
  deriving DecidableEq

inductive Event
  | slice (offset length : Nat)
  | declared (kind : LengthKind) (length offset : Nat)
  | skip (start length offset : Nat)
  | iteration (start stop : Nat)
  deriving DecidableEq

inductive Failure
  | rejected
  | thrown
  | outOfBounds
  | exhausted
  deriving DecidableEq

abbrev Reader := Parser Event Failure

/-- What the readers depend on: whether the buffer lends its bytes (`isUseInlineBuffers`)
and for which seconds since 1970 the calendar library has a date. -/
structure Env where
  inlineBuffers : Bool
  calendar : Int → Bool

/-- `return false` -/
def reject {α : Type} : Reader α := fail .rejected

/-- `incCurrentOffset`: its argument is an `int`, the offset a `size_t`. -/
def incCurrentOffset (increment : Int) : Reader Unit :=
  seek (fun o => (((o : Int) + toInt increment) % 2 ^ 64).toNat)

/-! ### Numbers -/

/-- The common part of the readers of varints. -/
def readVarInt (unpack : List UInt8 → Int → VarInt) (buf : List UInt8) : Reader VarInt := do
  let o ← offset
  let v := unpack (buf.drop o) ((buf.length : Int) - o)
  log (.slice o v.processedSize)
  if v.broken then reject
  else do
    incCurrentOffset v.processedSize
    return v

/-- `Stream<uint32_t>::unpackVarInt`, which reads 64 bits. -/
def readUint32 (buf : List UInt8) : Reader Nat := do
  let v ← readVarInt unpackVarInt64 buf
  return v.value % 2 ^ 32

/-- `VariableSer::deserialize` of a number without zigzag. -/
def readVariable (signed : Bool) (w : Width) (buf : List UInt8) : Reader Int := do
  let v ← readVarInt unpackVarInt64 buf
  return castTo signed w v.value

/-- `VariableSer::deserialize` with zigzag, which has 32 bits for all but 64 bit types. -/
def readZigZag (w : Width) (buf : List UInt8) : Reader Int :=
  if w = .w64 then do
    let v ← readVarInt unpackVarInt64 buf
    return (zigZagDecode (BitVec.ofNat 64 v.value)).toInt
  else do
    let v ← readVarInt unpackVarInt32 buf
    return castTo true w (zigZagDecode (BitVec.ofNat 32 v.value)).toInt

/-- `FixedSer::deserialize` -/
def readFixed (signed : Bool) (w : Width) (buf : List UInt8) : Reader Int := do
  let o ← offset
  incCurrentOffset (w.bits / 8 : Nat)
  let o' ← offset
  if buf.length < o' then reject
  else do
    log (.slice o (w.bits / 8))
    return castTo signed w (leNumber ((buf.drop o).take (w.bits / 8)))

/-- The readers of numbers.  Dates, times and ranges are kept as their numbers. -/
def readScalar (env : Env) (buf : List UInt8) : ScalarType → Reader Int
  | .varInt signed w => readVariable signed w buf
  | .zigZag w => readZigZag w buf
  | .fixed32 signed => readFixed signed .w32 buf
  | .fixed64 signed => readFixed signed .w64 buf
  | .date => do
    let n ← readVariable false .w32 buf
    if Date.accepts n.toNat then return n else reject
  | .time => do
    let n ← readVariable false .w64 buf
    if Time.accepts n.toNat then return n else reject
  | .dateTime => do
    let n ← readVariable true .w64 buf
    if DateTime.accepts env.calendar n then return n else fail .thrown
  | .dateRange => readVariable false .w32 buf

/-! ### Byte arrays and object ids -/

/-- `_BytesSer::load`, with an `int` as size.  A copy of a negative size throws. -/
def loadBytes (view : Bool) (buf : List UInt8) (ptr : Nat) (dataSize : Int) :
    Reader (List UInt8) := do
  log (.slice ptr (dataSize % 2 ^ 64).toNat)
  if 0 ≤ dataSize then return (buf.drop ptr).take dataSize.toNat
  else if view then return buf.drop ptr
  else fail .thrown

/-- `BytesSer::deserialize` behind the size. -/
def takeBytes (view : Bool) (maxSize : Nat) (buf : List UInt8) (dataSize : Nat) :
    Reader (List UInt8) := do
  let o ← offset
  log (.declared (.bytes view) dataSize o)
  if 0 < maxSize ∧ (maxSize : Int) < toInt dataSize then reject
  else if dataSize = 0 then return []
  else do
    incCurrentOffset dataSize
    let o' ← offset
    if buf.length < o' then reject
    else loadBytes view buf o (toInt dataSize)

/-- `BytesSer::deserialize` -/
def readBytes (view : Bool) (maxSize : Nat) (buf : List UInt8) : Reader (List UInt8) := do
  let dataSize ← readUint32 buf
  takeBytes view maxSize buf dataSize

/-- The loader of object ids, `parse`.  It reads its slice only when that has the length
of an object id. -/
def loadObjectId (buf : List UInt8) (ptr dataSize : Nat) : Reader ObjectId := do
  log (.slice ptr dataSize)
  if dataSize ≠ ObjectId.length then reject
  else if buf.length < ptr + dataSize then fail .outOfBounds
  else
    match ObjectId.parse ((buf.drop ptr).take dataSize) with
    | some x => return x
    | none => reject

/-- `AsBytesSer::deserialize` behind the size, with the loader of object ids. -/
def takeObjectId (buf : List UInt8) (dataSize : Nat) : Reader ObjectId := do
  let o ← offset
  log (.declared .objectId dataSize o)
  if (ObjectId.length : Int) < toInt dataSize then reject
  else if dataSize = 0 then reject
  else do
    incCurrentOffset dataSize
    loadObjectId buf o dataSize

def readObjectId (buf : List UInt8) : Reader ObjectId := do
  let dataSize ← readUint32 buf
  takeObjectId buf dataSize

/-! ### Units -/

/-- `UnitSer::deserialize` behind the size. -/
def takeUnit {α : Type} (inner : Nat → Reader α) (complete : α → Bool) (buf : List UInt8)
    (current : α) (dataSize : Nat) : Reader α := do
  let o ← offset
  log (.declared .unit dataSize o)
  if dataSize = 0 then
    if complete current then return current else reject
  else if buf.length < o + dataSize then reject
  else inner (o + dataSize)

/-- `UnitSer::deserialize` of a unit whose fields are `current`; `inner` parses the
fields of a new one up to an offset. -/
def readUnit {α : Type} (inner : Nat → Reader α) (complete : α → Bool) (buf : List UInt8)
    (current : α) : Reader α := do
  let dataSize ← readUint32 buf
  takeUnit inner complete buf current dataSize

/-- What `fieldParser` finds for a field of units whose fields are an `α`. -/
structure UnitFieldParser (α : Type) where
  wireType : WireType
  fn : α → Reader α

/-- Moving behind `increment` bytes, which have to be there. -/
def stepOver (buf : List UInt8) (increment : Int) : Reader Unit := do
  incCurrentOffset increment
  let o ← offset
  if buf.length < o then reject else return ()

/-- Stepping over the bytes of a field whose length is `v`. -/
def skipBytes (start : Nat) (buf : List UInt8) (v : VarInt) : Reader Unit :=
  if 28 < v.shift then reject
  else do
    let o ← offset
    log (.skip start v.value o)
    stepOver buf v.value

/-- Stepping over a field that the unit does not have. -/
def skipField (start fieldType : Nat) (buf : List UInt8) : Reader Unit :=
  if fieldType = WireType.withLength.num then do
    let v ← readVarInt unpackUnknown buf
    skipBytes start buf v
  else if fieldType = WireType.varInt.num then do
    let _ ← readVarInt unpackUnknown buf
    return ()
  else if fieldType = WireType.fixed32.num then stepOver buf 4
  else if fieldType = WireType.fixed64.num then stepOver buf 8
  else reject

/-- A round of the loop of `visitors::deserialize`. -/
def fieldStep {α : Type} (find : Nat → Option (UnitFieldParser α)) (buf : List UInt8) (x : α) :
    Reader α := do
  let start ← offset
  let tag ← readUint32 buf
  if tag = 0 then reject
  else
    match find (tag >>> 3) with
    | some parser =>
      if parser.wireType.num ≠ tag &&& 7 then reject else parser.fn x
    | none => do
      skipField start (tag &&& 7) buf
      return x

/-- A round with its entry in the log. -/
def fieldRound {α : Type} (find : Nat → Option (UnitFieldParser α)) (buf : List UInt8) (x : α) :
    Reader α := do
  let start ← offset
  let y ← fieldStep find buf x
  let stop ← offset
  log (.iteration start stop)
  return y

/-- `visitors::deserialize` of a unit with fields `fresh`, up to `size`. -/
def deserializeFields {α : Type} (find : Nat → Option (UnitFieldParser α)) (complete : α → Bool)
    (buf : List UInt8) (fuel : Nat) (fresh : α) (size : Nat) : Reader α := do
  let x ← untilOffset .exhausted size (fieldRound find buf) fuel fresh
  if complete x then return x else reject

/-! ### Map items -/

/-- `MapItemFieldHelper::deserialize` -/
def readMapDatum (buf : List UInt8) : MapType → Reader Datum
  | .int signed w => do
    let n ← readVariable signed w buf
    return .num n
  | .string => do
    let l ← readBytes false 0 buf
    return .bytes l
  | .other => reject

/-- `MapItemWrapper::fieldParser`: all that is no key is a value. -/
def mapItemParser (key value : MapType) (buf : List UInt8) (id : Nat) :
    Option (UnitFieldParser (Datum × Datum)) :=
  if id = 1 then
    some ⟨key.wireType, fun x => do let k ← readMapDatum buf key; return (k, x.2)⟩
  else
    some ⟨value.wireType, fun x => do let v ← readMapDatum buf value; return (x.1, v)⟩

/-- The order of map keys. -/
def Datum.lt : Datum → Datum → Bool
  | num a, num b => a < b
  | bytes a, bytes b => a < b
  | _, _ => false

/-- `emplace` of a sorted map: an entry stays when its key is there. -/
def emplace (k v : Datum) : List (Datum × Datum) → List (Datum × Datum)
  | [] => [(k, v)]
  | e :: l =>
    if e.1.lt k then e :: emplace k v l
    else if k.lt e.1 then (k, v) :: e :: l
    else e :: l

/-! ### Fields -/

/-- An entry of `fieldParsers`. -/
structure FieldParser where
  id : Nat
  wireType : WireType
  fn : FieldValue → Reader FieldValue

/-- `fieldParser`: the field with this id, with its place in the unit. -/
def findField (parsers : List FieldParser) (id : Nat) : Option (UnitFieldParser (List FieldValue)) :=
  (parsers.zipIdx.find? (fun p => p.1.id == id)).map (fun p =>
    ⟨p.1.wireType, fun x => do
      let v ← p.1.fn (x.getD p.2 .unset)
      return x.set p.2 v⟩)

/-- The elements behind their count.  Each of them takes a byte at least, so the count
is checked against the bytes that are left. -/
def takeCounted (element : Reader Value) (buf : List UInt8) (count : Nat) : Reader FieldValue := do
  let o ← offset
  if buf.length < o then reject
  else if buf.length - o < count then reject
  else do
    let l ← times element count
    return .repeated (l.map some)

def packedRound (element : Reader Int) (l : List (Option Value)) : Reader (List (Option Value)) := do
  let n ← element
  return l ++ [some (.datum (.num n))]

/-- The scalars behind the length of all of them. -/
def takePacked (element : Reader Int) (buf : List UInt8) (fuel length : Nat) :
    Reader FieldValue := do
  let o ← offset
  log (.declared .packed length o)
  if (buf.length : Int) - o < length then reject
  else do
    let l ← untilOffset .exhausted (o + length) (packedRound element) fuel []
    return .repeated l

/-- The subunit that a field has when it is parsed, cleared if it was there before. -/
def currentFields (fs : List Field) : Value → List FieldValue
  | .unit vs => vs
  | .datum _ => freshFields fs

def currentValue (t : ElemType) : FieldValue → Value
  | .single (.unit vs) => .unit (vs.map FieldValue.clear)
  | _ => t.fresh

mutual

/-- The readers of elements; `current` is the element before. -/
def ElemType.read (env : Env) (buf : List UInt8) (fuel : Nat) : ElemType → Value → Reader Value
  | .scalar t, _ => do
    let n ← readScalar env buf t
    return .datum (.num n)
  | .bytes maxSize, _ => do
    let l ← readBytes (env.inlineBuffers && maxSize == 0) maxSize buf
    return .datum (.bytes l)
  | .objectId, _ => do
    let x ← readObjectId buf
    return .datum (.oid x)
  | .unit fs, current => do
    let vs ← readUnit (deserializeFields (findField (fieldParsers env buf fuel fs)) (requiredSet fs)
      buf fuel (freshFields fs)) (requiredSet fs) buf (currentFields fs current)
    return .unit vs

/-- `deserialize` of the field classes. -/
def FieldKind.deserialize (env : Env) (buf : List UInt8) (fuel : Nat) :
    FieldKind → FieldValue → Reader FieldValue
  | .single t, x => do
    let v ← t.read env buf fuel (currentValue t x)
    return .single v
  | .counted t, _ => do
    let count ← readUint32 buf
    takeCounted (t.read env buf fuel t.fresh) buf count
  | .unpacked t, x => do
    let v ← t.read env buf fuel t.fresh
    return .repeated (x.elements ++ [some v])
  | .packed t, _ => do
    let length ← readUint32 buf
    takePacked (readScalar env buf t) buf fuel length
  | .map key value, x => do
    let e ← readUnit (deserializeFields (mapItemParser key value buf) (fun _ => true) buf fuel
      (key.fresh, value.fresh)) (fun _ => true) buf (key.fresh, value.fresh)
    return .map (emplace e.1 e.2 x.entries)

def Field.parser (env : Env) (buf : List UInt8) (fuel : Nat) : Field → FieldParser
  | .mk id _ kind => ⟨id, kind.wireType, kind.deserialize env buf fuel⟩

def fieldParsers (env : Env) (buf : List UInt8) (fuel : Nat) : List Field → List FieldParser
  | [] => []
  | f :: fs => f.parser env buf fuel :: fieldParsers env buf fuel fs

end

/-- `io::deserialize` of a new unit from a buffer. -/
def deserialize (env : Env) (fs : List Field) (buf : List UInt8) (fuel : Nat) :
    Reader (List FieldValue) :=
  deserializeFields (findField (fieldParsers env buf fuel fs)) (requiredSet fs) buf fuel
    (freshFields fs) buf.length

end Hatn.Dataunit
