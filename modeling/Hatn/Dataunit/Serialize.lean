import Hatn.Dataunit.Stream
import Hatn.Dataunit.Schema

/-!
# Serializing units to a solid buffer

The writers of the wire format, from varints up to `visitors::serialize`.  A solid
buffer has one container, to which the writers append, and a size of its own, which they
increase step by step; a writer that returns false is `none`.  A subunit reserves five
bytes for its size and fills them when it is written, packed scalars reserve five bytes
and are moved to the place behind the length that they need.
-/

namespace Hatn.Dataunit

open Hatn.Common

/-- A solid buffer: its main container and `m_size`. -/
@[ext] structure WireBufSolid where
  container : List UInt8
  size : Nat
  deriving DecidableEq

namespace WireBufSolid

def empty : WireBufSolid := ⟨[], 0⟩

/-- `incSize`: its argument is an `int`, the size a `size_t`. -/
def incSize (increment : Int) (w : WireBufSolid) : WireBufSolid :=
  { w with size := (((w.size : Int) + toInt increment) % 2 ^ 64).toNat }

/-- Bytes are appended to the container, and their number to the size. -/
def put (l : List UInt8) (w : WireBufSolid) : WireBufSolid :=
  incSize l.length { w with container := w.container ++ l }

/-- Bytes of the container are overwritten from `at_` on. -/
def patch (at_ : Nat) (l : List UInt8) (w : WireBufSolid) : WireBufSolid :=
  { w with container := w.container.take at_ ++ l ++ w.container.drop (at_ + l.length) }

end WireBufSolid

/-! ### Bytes of single values -/

/-- `Stream<uint32_t>::packVarInt` -/
def packUint32 (n : Nat) : List UInt8 := packVarInt64 (n % 2 ^ 32)

/-- `FixedSer::serialize` and `VariableSer::serialize` -/
def scalarBytes : ScalarType → Int → List UInt8
  | .varInt _ _, n => packVarInt64 (n % 2 ^ 64).toNat
  | .zigZag w, n =>
    if w = .w64 then packVarInt64 (zigZagEncode (BitVec.ofInt 64 n)).toNat
    else packVarInt32 (zigZagEncode (BitVec.ofInt 32 n)).toNat
  | .fixed32 _, n => leBytes 4 (n % 2 ^ 32).toNat
  | .fixed64 _, n => leBytes 8 (n % 2 ^ 64).toNat
  | .date, n => packUint32 n.toNat
  | .time, n => packVarInt64 (n % 2 ^ 64).toNat
  | .dateTime, n => packVarInt64 (n % 2 ^ 64).toNat
  | .dateRange, n => packUint32 n.toNat

/-- The tag that `appendFieldTag` and the repeated fields write. -/
def tagBytes (id : Nat) (type : WireType) : List UInt8 := packUint32 ((id <<< 3) ||| type.num)

/-! ### Writers -/

/-- `BytesSer::serialize`: the size and, unless it is zero, the data. -/
def writeBytes (l : List UInt8) (w : WireBufSolid) : WireBufSolid :=
  if l.length = 0 then w.put (packUint32 l.length)
  else (w.put (packUint32 l.length)).put l

/-- `UnitSer::serialize`: `fields` writes the fields of the unit. -/
def writeUnit (fields : WireBufSolid → Option WireBufSolid) (w : WireBufSolid) :
    Option WireBufSolid := do
  let prevSize := w.size
  let start : WireBufSolid := w.put (List.replicate 5 0)
  let end_ ← fields start
  let size := toInt ((end_.size : Int) - start.size)
  if size < 0 then none
  else return end_.patch prevSize (packSize size.toNat)

/-- `RepeatedFieldProtoBufPackedTmpl::serialize`: `scalars` writes the elements. -/
def writePacked (scalars : WireBufSolid → Option WireBufSolid) (w : WireBufSolid) :
    Option WireBufSolid := do
  let headerCursor := w.container.length
  let prevSize := w.size
  let end_ ← scalars (w.put (List.replicate 5 0))
  let length := (((end_.size : Int) - prevSize - 5) % 2 ^ 64).toNat
  let header := if length % 2 ^ 32 = 0 then [] else packVarInt32 (length % 2 ^ 32)
  -- the elements move down to the header and the rest of the reserved bytes goes
  return WireBufSolid.incSize (-(5 - header.length : Nat))
    { end_ with container := end_.container.take headerCursor ++ header ++
        end_.container.drop (headerCursor + 5) }

/-- Writers one after the other. -/
def writeAll {α : Type} (write : α → WireBufSolid → Option WireBufSolid) :
    List α → WireBufSolid → Option WireBufSolid
  | [], w => some w
  | a :: l, w => do
    let w' ← write a w
    writeAll write l w'

/-- `MapItemFieldHelper::serialize` -/
def writeMapDatum : MapType → Datum → WireBufSolid → Option WireBufSolid
  | .int signed w, .num n, b => some (b.put (scalarBytes (.varInt signed w) n))
  | .string, .bytes l, b => some (writeBytes l b)
  | _, _, _ => none

/-- The item of a map: its key and its value are the fields 1 and 2 of a unit. -/
def writeMapItem (key value : MapType) (e : Datum × Datum) : WireBufSolid → Option WireBufSolid :=
  writeUnit fun w => do
    let w ← writeMapDatum key e.1 (w.put (tagBytes 1 key.wireType))
    writeMapDatum value e.2 (w.put (tagBytes 2 value.wireType))

mutual

/-- `serialize` of an element. -/
def ElemType.write : ElemType → Value → WireBufSolid → Option WireBufSolid
  | .scalar t, .datum (.num n), w => some (w.put (scalarBytes t n))
  | .bytes _, .datum (.bytes l), w => some (writeBytes l w)
  | .objectId, .datum (.oid x), w => some ((w.put (packUint32 ObjectId.length)).put x.serialize)
  | .unit fs, .unit vs, w => writeUnit (serializeFields fs vs) w
  | _, _, _ => none

/-- `serialize` of the field classes, with the tags that `visitors::serialize` or the
fields themselves write.  A repeated unit that is not set writes nothing. -/
def FieldKind.serialize (id : Nat) : FieldKind → FieldValue → WireBufSolid → Option WireBufSolid
  | .single t, .single v, w => t.write v (w.put (tagBytes id t.wireType))
  | .counted t, .repeated l, w =>
    writeAll (fun (v : Option Value) w =>
        match v with
        | some v => t.write v w
        | none => some w)
      l ((w.put (tagBytes id .withLength)).put (packUint32 l.length))
  | .unpacked t, .repeated l, w =>
    writeAll (fun (v : Option Value) w =>
        match v with
        | some v => t.write v (w.put (tagBytes id t.wireType))
        | none => some (w.put (tagBytes id t.wireType)))
      l w
  | .packed t, .repeated l, w =>
    writePacked (writeAll (fun (v : Option Value) w =>
        match v with
        | some (.datum (.num n)) => some (w.put (scalarBytes t n))
        | _ => none)
      l) (w.put (tagBytes id .withLength))
  | .map key value, .map l, w =>
    writeAll (fun e w => writeMapItem key value e (w.put (tagBytes id .withLength))) l w
  | _, _, _ => none

def Field.serialize : Field → FieldValue → WireBufSolid → Option WireBufSolid
  | .mk _ required _, .unset, w => if required then none else some w
  | .mk id _ kind, v, w => kind.serialize id v w

/-- The loop of `visitors::serialize` over the fields of a unit. -/
def serializeFields : List Field → List FieldValue → WireBufSolid → Option WireBufSolid
  | f :: fs, v :: vs, w => do
    let w' ← f.serialize v w
    serializeFields fs vs w'
  | _, _, w => some w

end

/-- `io::serialize` of a unit: the buffer and the size returned, which is an `int`. -/
def serialize (fs : List Field) (vs : List FieldValue) : Option (WireBufSolid × Int) := do
  let w ← serializeFields fs vs .empty
  return (w, toInt w.size)

end Hatn.Dataunit
