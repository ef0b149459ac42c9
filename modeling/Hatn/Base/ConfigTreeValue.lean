import Hatn.Tables.Keyed

/-!
# Nodes of a configuration tree

A node of a configuration tree has a value, or none, and a default value, or none.  The value of a
node is a scalar, an array of scalars, an array of nodes or a map of nodes.  Numbers keep the type
that they were set with.

The nodes below a node are at edges: the keys of its map, or the indices of its array.  What is below
a node in two steps and more is at a place, which is a list of edges.
-/

namespace Hatn.Base

open Tables

/-- `config_tree::NumericType` of a number. -/
inductive NumericType
  | int8
  | int16
  | int32
  | int64
  | uint8
  | uint16
  | uint32
  | uint64
  deriving DecidableEq

/-- `static_cast` to the type, as a number. -/
def NumericType.cast (n : Int64) : NumericType → Int
  | int8 => n.toInt8.toInt
  | int16 => n.toInt16.toInt
  | int32 => n.toInt32.toInt
  | int64 => n.toInt
  | uint8 => n.toUInt64.toUInt8.toNat
  | uint16 => n.toUInt64.toUInt16.toNat
  | uint32 => n.toUInt64.toUInt32.toNat
  | uint64 => n.toUInt64.toNat

/-- A number as it is stored; it was set with its type. -/
structure ConfigNumber where
  type : NumericType
  stored : Int64
  fits : Int64.ofInt (type.cast stored) = stored

/-- Values without parts.  A floating point number is its bits. -/
inductive ConfigScalar
  | int (n : ConfigNumber)
  | double (bits : UInt64)
  | bool (b : Bool)
  | string (s : String)

/-- Arrays without nodes. -/
inductive ConfigArray
  | ints (values : List Int64)
  | doubles (values : List UInt64)
  | bools (values : List Bool)
  | strings (values : List String)

/-- `config_tree::Type` -/
inductive ConfigType
  | none
  | int
  | double
  | bool
  | string
  | arrayInt
  | arrayDouble
  | arrayBool
  | arrayString
  | arrayTree
  | map
  deriving DecidableEq

namespace ConfigType

def isScalar : ConfigType → Bool
  | int | double | bool | string => true
  | _ => false

def isArray : ConfigType → Bool
  | arrayInt | arrayDouble | arrayBool | arrayString | arrayTree => true
  | _ => false

end ConfigType

def ConfigScalar.type : ConfigScalar → ConfigType
  | int _ => .int
  | double _ => .double
  | bool _ => .bool
  | string _ => .string

def ConfigArray.type : ConfigArray → ConfigType
  | ints _ => .arrayInt
  | doubles _ => .arrayDouble
  | bools _ => .arrayBool
  | strings _ => .arrayString

/-- A node, with its default value. -/
inductive ConfigTreeValue
  | unset (default_ : Option ConfigScalar)
  | scalar (default_ : Option ConfigScalar) (v : ConfigScalar)
  | array (default_ : Option ConfigScalar) (a : ConfigArray)
  | trees (default_ : Option ConfigScalar) (items : Items ConfigTreeValue)
  | map (default_ : Option ConfigScalar) (m : Keyed String ConfigTreeValue)

/-- `BaseError`, `errc` -/
inductive ConfigTreeError
  | valueNotSet
  | invalidType
  | stringNotNumber
  | resultOutOfRange
  deriving DecidableEq

/-- From a node to one below it. -/
inductive Edge
  | key (k : String)
  | index (i : Nat)
  deriving DecidableEq

namespace ConfigTreeValue

/-- The induction over the nodes below a node. -/
@[elab_as_elim, induction_eliminator]
theorem induction {P : ConfigTreeValue → Prop} (unset : ∀ d, P (unset d))
    (scalar : ∀ d v, P (scalar d v)) (array : ∀ d a, P (array d a))
    (trees : ∀ d items, (∀ i, P (items.item i)) → P (trees d items))
    (map : ∀ d m, (∀ k, P (m.entry k)) → P (map d m)) (t : ConfigTreeValue) : P t := by
  refine @ConfigTreeValue.rec P (fun items => ∀ i, P (items.item i))
    (fun m => ∀ k, P (m.entry k)) unset scalar array trees map ?_ ?_ t
  · exact fun _ _ h => h
  · exact fun _ _ h => h

/-- A node of `makeTree`. -/
def fresh : ConfigTreeValue := unset none

def default_ : ConfigTreeValue → Option ConfigScalar
  | unset d | scalar d _ | array d _ | trees d _ | map d _ => d

/-- `setDefaultValue` -/
def setDefault (d : Option ConfigScalar) : ConfigTreeValue → ConfigTreeValue
  | unset _ => unset d
  | scalar _ v => scalar d v
  | array _ a => array d a
  | trees _ items => trees d items
  | map _ m => map d m

def type : ConfigTreeValue → ConfigType
  | unset _ => .none
  | scalar _ v => v.type
  | array _ a => a.type
  | trees _ _ => .arrayTree
  | map _ _ => .map

def isSet : ConfigTreeValue → Bool
  | unset _ => false
  | _ => true

/-- `isSet(true)` -/
def isSetOrDefault (t : ConfigTreeValue) : Bool := t.isSet || t.default_.isSome

/-- `asMap` -/
def asMap : ConfigTreeValue → Except ConfigTreeError (Keyed String ConfigTreeValue)
  | map _ m => .ok m
  | unset _ => .error .valueNotSet
  | _ => .error .invalidType

/-- `asArray<ConfigTree>` -/
def asTrees : ConfigTreeValue → Except ConfigTreeError (Items ConfigTreeValue)
  | trees _ items => .ok items
  | unset _ => .error .valueNotSet
  | _ => .error .invalidType

/-- `toMap` -/
def toMap : ConfigTreeValue → ConfigTreeValue
  | map d m => map d m
  | t => map t.default_ .empty

/-- The node at an edge. -/
def child : ConfigTreeValue → Edge → Option ConfigTreeValue
  | map _ m, .key k => m.find k
  | trees _ items, .index i => items.find i
  | _, _ => none

/-- The node with another one at an edge. -/
def setChild (t : ConfigTreeValue) (e : Edge) (c : ConfigTreeValue) : ConfigTreeValue :=
  match t, e with
  | map d m, .key k => map d (m.insert k c)
  | trees d items, .index i => trees d (items.set i c)
  | t, _ => t

/-- The node at a place. -/
def at_ : ConfigTreeValue → List Edge → Option ConfigTreeValue
  | t, [] => some t
  | t, e :: place => (t.child e).bind fun c => c.at_ place
termination_by structural _ place => place

variable {t c : ConfigTreeValue} {e e' : Edge}

theorem eq_fresh (h : t.isSetOrDefault = false) : t = fresh := by
  cases t with
  | unset d =>
    cases d with
    | none => rfl
    | some d => cases h
  | _ => cases h

theorem child_setChild_self (h : (t.child e).isSome) : (t.setChild e c).child e = some c := by
  cases t with
  | unset d | scalar d v | array d a => cases h
  | trees d items =>
    cases e with
    | key k => cases h
    | index i =>
      obtain ⟨c', hc⟩ := Option.isSome_iff_exists.mp h
      exact Items.find_set_self (Items.find_eq_some_iff.mp hc).1 c
  | map d m =>
    cases e with
    | key k => exact Keyed.find_insert_self k c m
    | index i => cases h

theorem child_setChild_of_ne (h : e' ≠ e) : (t.setChild e c).child e' = t.child e' := by
  cases t with
  | unset d | scalar d v | array d a => cases e <;> rfl
  | trees d items =>
    cases e with
    | key k => rfl
    | index i =>
      cases e' with
      | key k => rfl
      | index j => exact Items.find_set_of_ne (fun hj => h (congrArg Edge.index hj)) c items
  | map d m =>
    cases e with
    | index i => rfl
    | key k =>
      cases e' with
      | index j => rfl
      | key k' => exact Keyed.find_insert_of_ne (fun hk => h (congrArg Edge.key hk)) c m

/-- A node that gets the child that it has. -/
theorem setChild_of_child (h : t.child e = some c) : t.setChild e c = t := by
  cases t with
  | unset d | scalar d v | array d a => cases e <;> rfl
  | trees d items =>
    cases e with
    | key k => rfl
    | index i => exact congrArg (trees d) (Items.set_of_find h)
  | map d m =>
    cases e with
    | key k => exact congrArg (map d) (Keyed.insert_of_find h)
    | index i => rfl

@[simp] theorem default_setDefault (d : Option ConfigScalar) (t : ConfigTreeValue) :
    (t.setDefault d).default_ = d := by cases t <;> rfl

@[simp] theorem isSet_setDefault (d : Option ConfigScalar) (t : ConfigTreeValue) :
    (t.setDefault d).isSet = t.isSet := by cases t <;> rfl

@[simp] theorem child_setDefault (d : Option ConfigScalar) (t : ConfigTreeValue) (e : Edge) :
    (t.setDefault d).child e = t.child e := by cases t <;> cases e <;> rfl

theorem setDefault_default (t : ConfigTreeValue) : t.setDefault t.default_ = t := by
  cases t <;> rfl

/-! ### What is seen of a node -/

/-- The value of a node without the nodes below it. -/
inductive SeenValue
  | unset
  | scalar (v : ConfigScalar)
  | array (a : ConfigArray)
  | trees (size : Nat)
  | map

/-- A node without the nodes below it. -/
structure Seen where
  value : SeenValue
  default_ : Option ConfigScalar

def seenValue : ConfigTreeValue → SeenValue
  | unset _ => .unset
  | scalar _ v => .scalar v
  | array _ a => .array a
  | trees _ items => .trees items.size
  | map _ _ => .map

def seen (t : ConfigTreeValue) : Seen := ⟨t.seenValue, t.default_⟩

/-- What is seen at a place. -/
def seenAt (t : ConfigTreeValue) (place : List Edge) : Option Seen := (t.at_ place).map seen

/-- **Nodes of which the same is seen**, and which have the same nodes below them, are equal. -/
theorem ext {t t' : ConfigTreeValue} (h : t.seen = t'.seen) (hchild : ∀ e, t.child e = t'.child e) :
    t = t' := by
  have hdefault : t.default_ = t'.default_ := congrArg Seen.default_ h
  have hvalue : t.seenValue = t'.seenValue := congrArg Seen.value h
  rw [← t.setDefault_default, ← t'.setDefault_default, hdefault]
  cases t with
  | unset d =>
    cases t' with
    | unset d' => rfl
    | _ => cases hvalue
  | scalar d v =>
    cases t' with
    | scalar d' v' =>
      cases hvalue
      rfl
    | _ => cases hvalue
  | array d a =>
    cases t' with
    | array d' a' =>
      cases hvalue
      rfl
    | _ => cases hvalue
  | trees d items =>
    cases t' with
    | trees d' items' => exact congrArg (trees _) (Items.ext fun i => hchild (.index i))
    | _ => cases hvalue
  | map d m =>
    cases t' with
    | map d' m' => exact congrArg (map _) (Keyed.ext fun k => hchild (.key k))
    | _ => cases hvalue

theorem seenAt_cons (t : ConfigTreeValue) (e : Edge) (place : List Edge) :
    t.seenAt (e :: place) = (t.child e).bind fun c => c.seenAt place := by
  rw [seenAt, at_]
  cases t.child e <;> rfl

end ConfigTreeValue

end Hatn.Base
