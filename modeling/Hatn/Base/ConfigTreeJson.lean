import Hatn.Base.ConfigTreeMerge

/-!
# Configuration trees in JSON

A tree is written as calls of a JSON writer.  It is made again by the calls that a JSON reader makes
of the text: each context of a stack points to a node of the tree that is made, and a call changes
the node of the context on top, pushes a context or pops one.

Between the writer and the reader there is the text, of which the reader reports the calls.
-/

namespace Hatn.Base

open Tables

/-- A call of the writer, or of `ReaderHandler`.  The text of an integer is the same for `Int`,
`Uint`, `Int64` and `Uint64`. -/
inductive JsonEvent
  | null
  | bool (b : Bool)
  | number (n : Int)
  | double (bits : UInt64)
  | string (s : String)
  | startObject
  | key (s : String)
  | endObject
  | startArray
  | endArray

/-! ### Writing -/

/-- A string as the writer takes it from `c_str`. -/
def cStr (s : String) : String := String.ofList (s.toList.takeWhile (· ≠ '\x00'))

/-- A number as its type. -/
def ConfigNumber.value (n : ConfigNumber) : Int := n.type.cast n.stored

def ConfigScalar.event : ConfigScalar → JsonEvent
  | int n => .number n.value
  | double bits => .double bits
  | bool b => .bool b
  | string s => .string (cStr s)

def ConfigArray.events : ConfigArray → List JsonEvent
  | ints l => l.map fun n => .number n.toInt
  | doubles l => l.map .double
  | bools l => l.map .bool
  | strings l => l.map fun s => .string (cStr s)

namespace ConfigTreeValue

def writeTree : ConfigTreeValue → List JsonEvent
  | unset none => [.null]
  | unset (some v) => [v.event]
  | scalar _ v => [v.event]
  | array _ a => .startArray :: a.events ++ [.endArray]
  | trees _ ⟨size, item⟩ =>
    .startArray :: ((List.finRange size).flatMap fun i => writeTree (item i)) ++ [.endArray]
  | map _ ⟨keys, entry⟩ =>
    .startObject :: ((ordered keys).flatMap fun k => .key (cStr k.1) :: writeTree (entry k)) ++
      [.endObject]

def doSerialize (source : ConfigTreeValue) (root : List String) : List JsonEvent :=
  if root ≠ [] ∧ source.isSetAt root = false then writeTree fresh
  else writeTree (doGet root source).current

end ConfigTreeValue

/-! ### Numbers -/

/-- The type of a number that the reader reports. -/
def reportedType (n : Int) : NumericType :=
  if 0 ≤ n then
    if n < 2 ^ 32 then .uint32 else .uint64
  else if -2 ^ 31 ≤ n then .int32 else .int64

theorem toNat_toUInt64 (x : Int64) : (x.toUInt64.toNat : Int) = x.toInt % 2 ^ 64 := by
  have h : x.toInt = (x.toUInt64.toNat : Int).bmod (2 ^ 64) := BitVec.toInt_eq_toNat_bmod x.toBitVec
  have hlt : x.toUInt64.toNat < 2 ^ 64 := x.toUInt64.toNat_lt
  have hmod : (x.toUInt64.toNat : Int).bmod (2 ^ 64) % 2 ^ 64 = x.toUInt64.toNat % 2 ^ 64 :=
    Int.bmod_emod
  rw [h, hmod]
  omega

theorem ofInt_emod (x : Int64) : Int64.ofInt (x.toInt % 2 ^ 64) = x := by
  rw [Int64.ofInt_eq_iff_bmod_eq_toInt]
  exact (Int.emod_bmod _ (2 ^ 64)).trans x.toInt_bmod_size

/-- A number that fits its type is itself as it. -/
theorem cast_ofInt {n : Int} (h : -2 ^ 63 ≤ n) (h' : n < 2 ^ 64) :
    (reportedType n).cast (Int64.ofInt n) = n := by
  have hnat : ((Int64.ofInt n).toUInt64.toNat : Int) = n % 2 ^ 64 := by
    rw [toNat_toUInt64, Int64.toInt_ofInt]
    exact Int.bmod_emod
  rw [reportedType]
  split_ifs with h0 h32 h31
  · rw [NumericType.cast, UInt64.toNat_toUInt32, Int.natCast_emod, hnat]
    omega
  · rw [NumericType.cast, hnat]
    omega
  · rw [NumericType.cast, Int64.toInt_toInt32, Int64.toInt_ofInt_of_le h (by omega)]
    exact Int.bmod_eq_of_le (by omega) (by omega)
  · exact Int64.toInt_ofInt_of_le h (by omega)

theorem reportedType_fits (n : Int) :
    Int64.ofInt ((reportedType n).cast (Int64.ofInt n)) = Int64.ofInt n := by
  by_cases h : -2 ^ 63 ≤ n ∧ n < 2 ^ 64
  · rw [cast_ofInt h.1 h.2]
  rw [reportedType]
  split_ifs with h0 h32 h31
  · omega
  · rw [NumericType.cast, toNat_toUInt64, ofInt_emod]
  · omega
  · exact Int64.ofInt_toInt _

/-- A number as `Int`, `Uint`, `Int64` or `Uint64` sets it. -/
def ConfigNumber.reported (n : Int) : ConfigNumber :=
  ⟨reportedType n, Int64.ofInt n, reportedType_fits n⟩

theorem cast_bounds (n : Int64) (type : NumericType) :
    -2 ^ 63 ≤ type.cast n ∧ type.cast n < 2 ^ 64 := by
  cases type with
  | int8 => exact ⟨(by decide : (-2 ^ 63 : Int) ≤ -2 ^ 7).trans n.toInt8.le_toInt,
      n.toInt8.toInt_lt.trans (by decide)⟩
  | int16 => exact ⟨(by decide : (-2 ^ 63 : Int) ≤ -2 ^ 15).trans n.toInt16.le_toInt,
      n.toInt16.toInt_lt.trans (by decide)⟩
  | int32 => exact ⟨(by decide : (-2 ^ 63 : Int) ≤ -2 ^ 31).trans n.toInt32.le_toInt,
      n.toInt32.toInt_lt.trans (by decide)⟩
  | int64 => exact ⟨n.le_toInt, n.toInt_lt.trans (by decide)⟩
  | uint8 =>
    have h := n.toUInt64.toUInt8.toNat_lt
    rw [NumericType.cast]
    omega
  | uint16 =>
    have h := n.toUInt64.toUInt16.toNat_lt
    rw [NumericType.cast]
    omega
  | uint32 =>
    have h := n.toUInt64.toUInt32.toNat_lt
    rw [NumericType.cast]
    omega
  | uint64 =>
    have h := n.toUInt64.toNat_lt
    rw [NumericType.cast]
    omega

/-- **The value of a number** is the same when the reader reports it. -/
theorem value_reported (n : ConfigNumber) : (ConfigNumber.reported n.value).value = n.value :=
  have h := cast_bounds n.stored n.type
  cast_ofInt h.1 h.2

/-! ### Parsing -/

/-- `toArray` of the type of a value -/
def ConfigScalar.toArray : ConfigScalar → ConfigArray
  | int _ => .ints []
  | double _ => .doubles []
  | bool _ => .bools []
  | string _ => .strings []

/-- `append`, if the types are the same -/
def ConfigArray.append : ConfigArray → ConfigScalar → Option ConfigArray
  | ints l, .int n => some (ints (l ++ [n.stored]))
  | doubles l, .double bits => some (doubles (l ++ [bits]))
  | bools l, .bool b => some (bools (l ++ [b]))
  | strings l, .string s => some (strings (l ++ [s]))
  | _, _ => none

inductive ParserError
  | outOfRange
  | stackEmpty
  | keyNotWithinObject
  | mismatchedTypes
  | invalidStateForArrayOfArrays
  | endOfArrayNotWithinArray
  | tree (e : ConfigTreeError)
  /-- A node that is no more is used: what happens then is undefined. -/
  | freed
  deriving DecidableEq

/-- A context points to the node at a place, unless the node is freed already; `map` is the pointer
to the map of the node, if it is not null. -/
structure Context where
  tree : Option (List Edge)
  map : Bool
  inArray : Bool

structure Parser where
  rootTree : ConfigTreeValue
  stack : List Context

namespace ConfigTreeValue

/-- A node that is put at the end of an array of nodes, which is made if nothing is set; with the
index of the node. -/
def appendTree (t c : ConfigTreeValue) : Except ParserError (ConfigTreeValue × Nat) :=
  let t := if t.isSet then t else trees t.default_ (Items.ofList [])
  match t.asTrees with
  | .error error => .error (.tree error)
  | .ok items => .ok (trees t.default_ (Items.ofList (items.toList ++ [c])), items.size)

/-- A value that is put at the end of an array, which is made if nothing is set. -/
def appendValue (t : ConfigTreeValue) (v : ConfigScalar) : Except ParserError ConfigTreeValue :=
  match if t.isSet then t else array t.default_ v.toArray with
  | array d a =>
    match a.append v with
    | none => .error .mismatchedTypes
    | some a => .ok (array d a)
  | _ => .error .mismatchedTypes

end ConfigTreeValue

namespace Parser

open ConfigTreeValue

def context (p : Parser) : Except ParserError (Context × List Context) :=
  match p.stack with
  | [] => .error .outOfRange
  | ctx :: stack => .ok (ctx, stack)

/-- The node that a context points to, with its place. -/
def node (p : Parser) (ctx : Context) : Except ParserError (List Edge × ConfigTreeValue) :=
  match ctx.tree with
  | none => .error .freed
  | some place =>
    match p.rootTree.at_ place with
    | none => .error .freed
    | some t => .ok (place, t)

def startObject (p : Parser) : Except ParserError Parser := do
  let (ctx, stack) ← p.context
  let (place, t) ← p.node ctx
  if !ctx.inArray then
    return ⟨replaceAt t.toMap place p.rootTree, { ctx with map := true } :: stack⟩
  let (t, i) ← t.appendTree fresh.toMap
  return ⟨replaceAt t place p.rootTree, ⟨some (place ++ [.index i]), true, false⟩ :: ctx :: stack⟩

/-- `EndObject` and `Null` -/
def pop (p : Parser) : Except ParserError Parser :=
  match p.stack with
  | [] => .error .stackEmpty
  | _ :: stack => .ok { p with stack }

def key (p : Parser) (s : String) : Except ParserError Parser := do
  let (ctx, stack) ← p.context
  if !ctx.map then throw .keyNotWithinObject
  match ← p.node ctx with
  | (place, map d m) =>
    match m.find s with
    | none =>
      return ⟨replaceAt (map d (m.insert s fresh)) place p.rootTree,
        ⟨some (place ++ [.key s]), false, false⟩ :: ctx :: stack⟩
    | some _ =>
      -- nothing is emplaced, and the new node is freed
      return { p with stack := ⟨none, false, false⟩ :: ctx :: stack }
  | _ => throw .freed

def setValue (p : Parser) (v : ConfigScalar) : Except ParserError Parser := do
  let (ctx, stack) ← p.context
  let (place, t) ← p.node ctx
  if !ctx.inArray then return ⟨replaceAt (scalar t.default_ v) place p.rootTree, stack⟩
  let t ← t.appendValue v
  return { p with rootTree := replaceAt t place p.rootTree }

def startArray (p : Parser) : Except ParserError Parser := do
  let (ctx, stack) ← p.context
  let (place, t) ← p.node ctx
  if !ctx.inArray then
    if t.isSet then throw .invalidStateForArrayOfArrays
    return { p with stack := { ctx with inArray := true } :: stack }
  let (t, i) ← t.appendTree fresh
  return ⟨replaceAt t place p.rootTree, ⟨some (place ++ [.index i]), false, true⟩ :: ctx :: stack⟩

def endArray (p : Parser) : Except ParserError Parser := do
  let (ctx, stack) ← p.context
  if !ctx.inArray then throw .endOfArrayNotWithinArray
  return { p with stack }

/-- A call of the reader. -/
def handle (p : Parser) : JsonEvent → Except ParserError Parser
  | .null => p.pop
  | .bool b => p.setValue (.bool b)
  | .number n => p.setValue (.int (.reported n))
  | .double bits => p.setValue (.double bits)
  | .string s => p.setValue (.string s)
  | .startObject => p.startObject
  | .key s => p.key s
  | .endObject => p.pop
  | .startArray => p.startArray
  | .endArray => p.endArray

def run (p : Parser) (events : List JsonEvent) : Except ParserError Parser :=
  events.foldlM handle p

end Parser

namespace ConfigTreeValue

inductive JsonError
  | parse (e : ParserError)
  | merge (e : ConfigTreeError)

/-- `doParse` of what the reader reports, and the error. -/
def doParse (target : ConfigTreeValue) (events : List JsonEvent) (root : List String) :
    ConfigTreeValue × Option JsonError :=
  match Parser.run ⟨fresh, [⟨some [], false, false⟩]⟩ events with
  | .error e => (target, some (.parse e))
  | .ok p =>
    let r := target.mergeAt .merge root p.rootTree
    (r.1, r.2.map .merge)

/-- `copy`; what the reader reports of the text that the writer made is a parameter. -/
def copy (reported : List JsonEvent → List JsonEvent) (target source : ConfigTreeValue)
    (sourceRoot targetRoot : List String) : ConfigTreeValue × Option JsonError :=
  target.doParse (reported (source.doSerialize sourceRoot)) targetRoot

end ConfigTreeValue

end Hatn.Base
