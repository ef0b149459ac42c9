import Hatn.Db.FieldToStringBuf
import Mathlib.Data.List.Sort

/-!
# Conditions of an index query

A query has a condition for each of the first fields of an index.  `Field.Matches` says
which values satisfy a condition, as the operators are meant; `Field.variants` are the
conditions that the search makes of it, each of which is a single range of keys.
-/

namespace Hatn.Db

namespace Query

inductive Operator
  | eq | gt | gte | lt | lte | in_ | neq | nin
  deriving DecidableEq, Repr

inductive Order
  | asc | desc
  deriving DecidableEq, Repr

inductive IntervalType
  | closed | open_ | first | last | next
  deriving DecidableEq, Repr

structure Endpoint (α : Type) where
  value : α
  type : IntervalType

structure Interval (α : Type) where
  from_ : Endpoint α
  to_ : Endpoint α

/-- `contains` -/
def Interval.contains {α : Type} [LinearOrder α] (i : Interval α) (value : α) : Bool :=
  (i.from_.type = .first ∨ i.from_.type = .open_ ∧ i.from_.value < value ∨
    i.from_.type = .closed ∧ i.from_.value ≤ value) ∧
  (i.to_.type = .last ∨ i.to_.type = .open_ ∧ value < i.to_.value ∨
    i.to_.type = .closed ∧ value ≤ i.to_.value)

/-- A scalar operand. -/
inductive Scalar (α : Type)
  | null
  | first
  | last
  | value (v : α)

/-- The operand of a condition; vectors of intervals are not supported. -/
inductive Operand (α : Type)
  | scalar (s : Scalar α)
  | interval (i : Interval α)
  | vector (l : List α)

/-- The type of an index field: its values, their order, and the form of a value in keys. -/
structure Column where
  Value : Type
  [order : LinearOrder Value]
  form : Value → Key

instance (c : Column) : LinearOrder c.Value := c.order

/-- The columns of the types without a calendar. -/
def Column.plain (t : FieldType) : Column := ⟨t.Value, valueToStringBuf t⟩

/-- `query::Field` -/
structure Field where
  column : Column
  op : Operator
  value : Operand column.Value
  order : Order

/-! ### What a condition means -/

/-- A value that is set, compared with an operand; null is below all values. -/
def Scalar.Above {α : Type} [LinearOrder α] : Scalar α → α → Prop
  | .value v, w => v < w
  | .last, _ => False
  | _, _ => True

def Scalar.Below {α : Type} [LinearOrder α] : Scalar α → α → Prop
  | .value v, w => w < v
  | .last, _ => True
  | _, _ => False

def Scalar.Is {α : Type} : Scalar α → α → Prop
  | .value v, w => w = v
  | _, _ => False

/-- The value that is set satisfies the condition. -/
def Field.Matches (f : Field) (w : f.column.Value) : Prop :=
  match f.op, f.value with
  | .eq, .scalar s => s.Is w
  | .gt, .scalar s => s.Above w
  | .gte, .scalar s => s.Above w ∨ s.Is w
  | .lt, .scalar s => s.Below w
  | .lte, .scalar s => s.Below w ∨ s.Is w
  | .neq, .scalar s => ¬ s.Is w
  | .in_, .interval i => i.contains w
  | .nin, .interval i => ¬ i.contains w
  | .in_, .vector l => w ∈ l
  | .nin, .vector l => w ∉ l
  | .neq, .vector l => w ∉ l
  | _, _ => False

/-! ### The variants of a condition -/

/-- The vector sorted in the order of the condition. -/
def sortVector {α : Type} [LinearOrder α] (order : Order) (l : List α) : List α :=
  match order with
  | .asc => l.insertionSort (· ≤ ·)
  | .desc => l.insertionSort (· ≥ ·)

namespace Field

/-- A condition on the same field. -/
def with_ (f : Field) (op : Operator) (value : Operand f.column.Value) : Field :=
  { f with op := op, value := value }

def doNinInterval (f : Field) (i : Interval f.column.Value) : List Field :=
  (if i.from_.type = .first then []
    else [f.with_ (if i.from_.type = .open_ then .lte else .lt) (.scalar (.value i.from_.value))]) ++
  (if i.to_.type = .last then []
    else [f.with_ (if i.to_.type = .open_ then .gte else .gt) (.scalar (.value i.to_.value))])

/-- The open intervals between the values, from the value `prev` on, and what is behind. -/
def doNinFrom (f : Field) : f.column.Value → List f.column.Value → List Field
  | prev, [] => [f.with_ .gt (.scalar (.value prev))]
  | prev, v :: l => f.with_ .in_ (.interval ⟨⟨prev, .open_⟩, ⟨v, .open_⟩⟩) :: f.doNinFrom v l

def doNinVector (f : Field) : List f.column.Value → List Field
  | [] => []
  | v :: l => f.with_ .lt (.scalar (.value v)) :: f.doNinFrom v l

/-- The conditions that `nextKeyField` iterates one after the other. -/
def variants (f : Field) : List Field :=
  match f.value with
  | .scalar s =>
    if f.op = .neq then [f.with_ .lt (.scalar s), f.with_ .gt (.scalar s)] else [f]
  | .interval i => if f.op = .in_ then [f] else f.doNinInterval i
  | .vector l =>
    let l := sortVector f.order l
    if f.op = .in_ then l.map fun v => f.with_ .eq (.scalar (.value v)) else f.doNinVector l

end Field

/-- The filter of a query by the time points of objects. -/
def filterTimePoint (intervals : List (Interval Nat)) (timepoint : Int) : Bool :=
  intervals.any fun i => i.contains (timepoint % 2 ^ 32).toNat

end Query

end Hatn.Db
