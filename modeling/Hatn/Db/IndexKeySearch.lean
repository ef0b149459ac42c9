import Hatn.Db.Query
import Hatn.Db.Relations
import Hatn.Search.Visits

/-!
# The search over index keys

`nextKeyField` takes the conditions of a query one by one.  It iterates the keys in the
range of a condition, and for each value of the field that it meets there, goes on to the
next condition with the cursor behind that value; behind the last condition, it calls the
callback.  The search is translated as `Visits`: what it does behind a callback that stops
is a part of it.
-/

namespace Hatn.Db

open Query Search

/-- An entry of an index column family. -/
structure Entry where
  key : Key
  value : List UInt8
  deriving DecidableEq

namespace IndexKeySearch

/-! ### Keys -/

/-- `FieldsOffset` -/
def fieldsOffset : Nat := 2 + 8

/-- The position of the `n`-th separator, counted from one. -/
def separatorAt : Key → Nat → Option Nat
  | [], _ => none
  | c :: k, n =>
    if c = separatorChar then
      if n = 1 then some 0 else (separatorAt k (n - 1)).map (· + 1)
    else (separatorAt k n).map (· + 1)

/-- `IndexKey::keyPrefix` -/
def keyPrefix (key : Key) (topic : List UInt8) (pos : Nat) : Key :=
  match separatorAt (key.drop (fieldsOffset + topic.length)) pos with
  | some i => key.take (fieldsOffset + topic.length + i)
  | none => []

/-- `ttlMarkOffset` -/
def ttlMarkOffset (data : List UInt8) : Nat :=
  if data.getLast? = some 0 then 1 else if data.length < 5 then 0 else 5

/-- `timestampFromIndexValue`: four bytes, as a signed number. -/
def timestampFromIndexValue (value : List UInt8) : Int :=
  let extraSize := 4 + ttlMarkOffset value
  if value.length < extraSize then 0
  else ((Common.leNumber ((value.drop (value.length - extraSize)).take 4) : Nat) : Int).bmod (2 ^ 32)

/-! ### Bounds -/

/-- `valueVisitor` for a scalar. -/
def scalarToBuf {α : Type} (form : α → Key) (buf : Key) (s : Scalar α) (sep : UInt8) : Key :=
  match s with
  | .value v => buf ++ form v ++ [sep]
  | .null => buf ++ [sep]
  | .last => buf.dropLast ++ [separatorCharPlus]
  | .first => buf ++ [0]

/-- The last symbol is incremented. -/
def incrementLast : Key → Key
  | [] => []
  | [c] => [c + 1]
  | c :: k => c :: incrementLast k

/-- `valueVisitor` for the lower endpoint of an interval. -/
def fromToBuf {α : Type} (form : α → Key) (buf : Key) (i : Query.Interval α) (sep : UInt8) : Key :=
  (match i.from_.type with
    | .last => buf.dropLast ++ [separatorCharPlus]
    | .first => buf ++ [0]
    | _ => buf ++ form i.from_.value) ++ [sep]

/-- `valueVisitor` for the upper endpoint of an interval. -/
def toToBuf {α : Type} (form : α → Key) (buf : Key) (i : Query.Interval α) (sep : UInt8) : Key :=
  (match i.to_.type with
    | .last => buf.dropLast ++ [separatorCharPlus]
    | .first => buf ++ [0]
    | .next => buf ++ incrementLast (form i.from_.value)
    | _ => buf ++ form i.to_.value) ++ [sep]

/-- `fieldValueToBuf` -/
def fieldValueToBuf (buf : Key) (f : Field) (sep : UInt8) : Key :=
  match f.value with
  | .scalar s => scalarToBuf f.column.form buf s sep
  | .interval i => fromToBuf f.column.form buf i sep
  | .vector _ => buf

/-- `toValueToBuf` -/
def toValueToBuf (buf : Key) (f : Field) (sep : UInt8) : Key :=
  match f.value with
  | .scalar s => scalarToBuf f.column.form buf s sep
  | .interval i => toToBuf f.column.form buf i sep
  | .vector _ => buf

def isFirst (f : Field) : Bool :=
  match f.value with
  | .scalar .first => true
  | _ => false

def isLast (f : Field) : Bool :=
  match f.value with
  | .scalar .last => true
  | _ => false

/-- Both ends of the interval are of the type. -/
def isOnly (f : Field) (type : IntervalType) : Bool :=
  match f.value with
  | .interval i => i.from_.type = type ∧ i.to_.type = type
  | _ => false

/-- `Open`, `Last` and `Next` end an interval before the separator. -/
def toSeparator (f : Field) : UInt8 :=
  match f.value with
  | .interval i =>
    if i.to_.type = .open_ ∨ i.to_.type = .last ∨ i.to_.type = .next then separatorChar
    else separatorCharPlus
  | _ => separatorChar

def fromSeparator (f : Field) : UInt8 :=
  match f.value with
  | .interval i => if i.from_.type = .open_ then separatorCharPlus else separatorChar
  | _ => separatorCharPlus

/-- The bounds of an iteration: `from_` and `to_` are handed on to the next field, the
iterator is kept between `lower` and `upper`. -/
structure Bounds where
  from_ : Key
  to_ : Key
  lower : Key
  upper : Key

/-- A range with the same bounds for both. -/
def Bounds.range (from_ to_ : Key) : Bounds := ⟨from_, to_, from_, to_⟩

/-- How a condition is iterated. -/
structure Plan where
  bounds : Bounds
  forward : Bool
  /-- `seekExactPrefix` -/
  exact : Bool
  /-- Behind the last field, only the first key found is taken. -/
  single : Bool

/-- The switch of `iterateFieldVariant`. -/
def plan (f : Field) (prefix_ prevFrom prevTo : Key) : Plan :=
  let buf := prefix_ ++ [separatorChar]
  let forward : Bool := f.order = .asc
  match f.op with
  | .gt => ⟨.range (fieldValueToBuf buf f separatorCharPlus) prevTo, forward, false, false⟩
  | .gte =>
    if isFirst f then ⟨.range prevFrom prevTo, forward, false, false⟩
    else ⟨.range (fieldValueToBuf buf f separatorChar) prevTo, forward, false, false⟩
  | .lt =>
    let to_ := fieldValueToBuf buf f separatorChar
    ⟨⟨prevFrom, to_, prevFrom ++ [dbNullChar], to_⟩, forward, false, false⟩
  | .lte =>
    let to_ := if isLast f then prevTo else fieldValueToBuf buf f separatorCharPlus
    ⟨⟨prevFrom, to_, prevFrom ++ [dbNullChar], to_⟩, forward, false, false⟩
  | .eq =>
    if isFirst f ∨ isLast f then ⟨.range prevFrom prevTo, isFirst f, true, true⟩
    else
      ⟨.range (fieldValueToBuf buf f separatorChar) (fieldValueToBuf buf f separatorCharPlus),
        forward, true, false⟩
  | .in_ =>
    if isOnly f .first ∨ isOnly f .last then
      ⟨.range prevFrom prevTo, isOnly f .first, true, true⟩
    else
      ⟨.range (fieldValueToBuf buf f (fromSeparator f)) (toValueToBuf buf f (toSeparator f)),
        forward, false, false⟩
  | .neq => ⟨.range [] [], forward, false, false⟩
  | .nin => ⟨.range [] [], forward, false, false⟩

/-! ### The search -/

/-- What a search looks at: the entries of a partition in the order of their keys, the
topic and the index, the current time point and the time points to leave out. -/
structure Source where
  entries : List Entry
  topic : List UInt8
  indexId : ModelId
  now : Nat
  timePoints : List (Query.Interval Nat)

namespace Source

/-- The key prefix of a new cursor. -/
def start (src : Source) : Key := src.topic ++ [separatorChar] ++ src.indexId.chars

def indexRangeFrom (src : Source) : Key := src.start ++ [separatorChar]

def indexRangeTo (src : Source) : Key := src.start ++ [separatorCharPlus]

/-- An entry is passed over when it is expired, or at the first field filtered. -/
def isFiltered (src : Source) (pos : Nat) (e : Entry) : Bool :=
  TtlMark.isExpired e.value src.now ||
    (pos = 1 && filterTimePoint src.timePoints (timestampFromIndexValue e.value))

end Source

/-- `appendPrefix` -/
def appendPrefix (prefix_ p : Key) : Key :=
  if prefix_.length < p.length then prefix_ ++ p.drop prefix_.length else prefix_

def Bounds.contains (b : Bounds) (e : Entry) : Bool := b.lower ≤ e.key ∧ e.key < b.upper

/-- The bounds of the seek behind the key prefix. -/
def Bounds.seekBehind (b : Bounds) (forward : Bool) (prefix_ : Key) : Bounds :=
  if forward then
    let from_ := prefix_ ++ [separatorCharPlus]
    { b with from_ := from_, lower := from_ }
  else
    let to_ := prefix_ ++ [separatorChar]
    { b with to_ := to_, upper := to_ }

/-- The iteration over the entries that are left, in its direction, with the cursor's key
prefix of `offset` symbols in front.  `inner` is the search in the next fields; behind the
last field there is none.  The result is the key prefix the cursor is left with. -/
def iterate (src : Source) (pos offset : Nat) (forward exact single : Bool)
    (inner : Option (Key → Key → Key → Visits Entry Key)) :
    List Entry → Bounds → Key → Visits Entry Key
  | [], _, prefix_ => .done prefix_
  | e :: es, b, prefix_ =>
    if !b.contains e || src.isFiltered pos e then
      iterate src pos offset forward exact single inner es b prefix_
    else
      let prefix_ := appendPrefix prefix_ (keyPrefix e.key src.topic pos)
      match inner with
      | none => do
        let go ← Visits.call e
        if !go then return prefix_
        if single then return prefix_.take offset
        iterate src pos offset forward exact single inner es b (prefix_.take offset)
      | some next => do
        let prefix_ ← next prefix_ b.from_ b.to_
        if exact then return prefix_.take offset
        match es.find? b.contains with
        | none => return prefix_.take offset
        | some e' =>
          if keyPrefix e'.key src.topic pos = prefix_ then
            iterate src pos offset forward exact single inner es (b.seekBehind forward prefix_)
              (prefix_.take offset)
          else iterate src pos offset forward exact single inner es b (prefix_.take offset)

/-- `iterateFieldVariant`, at the `pos`-th field. -/
def iterateFieldVariant (src : Source) (pos : Nat)
    (inner : Option (Key → Key → Key → Visits Entry Key)) (f : Field)
    (prevFrom prevTo prefix_ : Key) : Visits Entry Key :=
  let p := plan f prefix_ prevFrom prevTo
  iterate src pos prefix_.length p.forward p.exact p.single inner
    (if p.forward then src.entries else src.entries.reverse) p.bounds prefix_

/-- `nextKeyField` at the `pos`-th field, counted from one. -/
def nextKeyField (src : Source) : Nat → List Field → Key → Key → Key → Visits Entry Key
  | _, [], prefix_, _, _ => .done prefix_
  | pos, f :: fs, prefix_, prevFrom, prevTo =>
    let inner :=
      match fs with
      | [] => none
      | _ :: _ => some (nextKeyField src (pos + 1) fs)
    f.variants.foldlM (fun prefix_ v =>
      iterateFieldVariant src pos inner v prevFrom prevTo prefix_) prefix_

/-- The search in a topic of a partition. -/
def searchTopic (src : Source) (fields : List Field) : Visits Entry Key :=
  nextKeyField src 1 fields src.start src.indexRangeFrom src.indexRangeTo

end IndexKeySearch

end Hatn.Db
