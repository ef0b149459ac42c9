import Hatn.Dataunit.Encoding
import Hatn.Dataunit.Deserialize

/-!
# Typed values and what becomes of them

`Holds` says that a value is one that the types of a schema can have.  `EachUnit` and
`EachSet` lift a property to all the units of a schema and to all the set fields of a
value.  `seen` is the value that a reader makes of the bytes of another one: it does not
tell a repeated field without elements from a field that is not set, when each of the
elements has a tag of its own.
-/

namespace Hatn.Dataunit

open Hatn.Common

/-! ### Types -/

/-- The numbers of a type.  Only valid dates and times are values. -/
def ScalarType.Holds (env : Env) : ScalarType → Int → Prop
  | .varInt signed w, n => InRange signed w n
  | .zigZag w, n => InRange true w n
  | .fixed32 signed, n => InRange signed .w32 n
  | .fixed64 signed, n => InRange signed .w64 n
  | .date, n => InRange false .w32 n ∧ Date.accepts n.toNat
  | .time, n => InRange false .w64 n ∧ Time.accepts n.toNat
  | .dateTime, n => InRange true .w64 n ∧ DateTime.accepts env.calendar n
  | .dateRange, n => InRange false .w32 n

def MapType.Holds : MapType → Datum → Prop
  | .int signed w, .num n => InRange signed w n
  | .string, .bytes _ => True
  | _, _ => False

/-- Only units can be elements that are not set. -/
def ElemType.HoldsUnset : ElemType → Prop
  | .unit _ => True
  | _ => False

mutual

def ElemType.Holds (env : Env) : ElemType → Value → Prop
  | .scalar t, .datum (.num n) => t.Holds env n
  | .bytes maxSize, .datum (.bytes l) => 0 < maxSize → l.length ≤ maxSize
  | .objectId, .datum (.oid x) => x.Fits
  | .unit fs, .unit vs => fieldsHold env fs vs
  | _, _ => False

def FieldKind.Holds (env : Env) : FieldKind → FieldValue → Prop
  | _, .unset => True
  | .single t, .single v => t.Holds env v
  | .counted t, .repeated l => (none ∈ l → t.HoldsUnset) ∧ ∀ v, some v ∈ l → t.Holds env v
  | .unpacked t, .repeated l => (none ∈ l → t.HoldsUnset) ∧ ∀ v, some v ∈ l → t.Holds env v
  | .packed t, .repeated l => ∀ v ∈ l, ∃ n, v = some (.datum (.num n)) ∧ t.Holds env n
  | .map key value, .map l =>
    (∀ e ∈ l, key.Holds e.1 ∧ value.Holds e.2) ∧ l.Pairwise (fun a b => a.1.lt b.1 = true)
  | _, _ => False

def Field.Holds (env : Env) : Field → FieldValue → Prop
  | .mk _ _ kind, v => kind.Holds env v

def fieldsHold (env : Env) : List Field → List FieldValue → Prop
  | [], [] => True
  | f :: fs, v :: vs => f.Holds env v ∧ fieldsHold env fs vs
  | _, _ => False

end

/-! ### Properties of all the units and of all the set fields -/

section
variable (Q : List Field → Prop)

mutual

def ElemType.EachUnit : ElemType → Prop
  | .unit fs => Q fs ∧ fieldsEachUnit fs
  | _ => True

def FieldKind.EachUnit : FieldKind → Prop
  | .single t => t.EachUnit
  | .counted t => t.EachUnit
  | .unpacked t => t.EachUnit
  | .packed _ => True
  | .map _ _ => True

def Field.EachUnit : Field → Prop
  | .mk _ _ kind => kind.EachUnit

def fieldsEachUnit : List Field → Prop
  | [] => True
  | f :: fs => f.EachUnit ∧ fieldsEachUnit fs

end

/-- `Q` holds of the unit with these fields and of the units within. -/
def EachUnit (fs : List Field) : Prop := Q fs ∧ fieldsEachUnit Q fs

end

section
variable (P : Nat → FieldKind → FieldValue → Prop)

mutual

def ElemType.EachSet : ElemType → Value → Prop
  | .unit fs, .unit vs => EachSet fs vs
  | _, _ => True

def FieldKind.EachSet : FieldKind → FieldValue → Prop
  | .single t, .single v => t.EachSet v
  | .counted t, .repeated l => ∀ v, some v ∈ l → t.EachSet v
  | .unpacked t, .repeated l => ∀ v, some v ∈ l → t.EachSet v
  | _, _ => True

def Field.EachSet : Field → FieldValue → Prop
  | .mk id _ kind, v => (v.isSet = true → P id kind v) ∧ kind.EachSet v

/-- `P` holds of the set fields of a value and of those within its units. -/
def EachSet : List Field → List FieldValue → Prop
  | f :: fs, v :: vs => f.EachSet v ∧ EachSet fs vs
  | _, _ => True

end

end

section
variable {P P' : Nat → FieldKind → FieldValue → Prop} {Q : List Field → Prop}

/-- In units with `Q`, set fields with `P` have `P'` as well. -/
def ImpliesIn (Q : List Field → Prop) (P P' : Nat → FieldKind → FieldValue → Prop) : Prop :=
  ∀ fs, Q fs → ∀ f ∈ fs, ∀ v, P f.id f.kind v → P' f.id f.kind v

mutual

theorem ElemType.EachSet.imp (h : ImpliesIn Q P P') :
    ∀ {t : ElemType} {v : Value}, t.EachUnit Q → t.EachSet P v → t.EachSet P' v
  | .unit fs, .unit _, hu, hv => EachSet.imp_of_mem h (fun f hf => h fs hu.1 f hf) hu.2 hv
  | .unit _, .datum _, _, _ | .scalar _, _, _, _ | .bytes _, _, _, _ | .objectId, _, _, _ => trivial

theorem FieldKind.EachSet.imp (h : ImpliesIn Q P P') :
    ∀ {k : FieldKind} {v : FieldValue}, k.EachUnit Q → k.EachSet P v → k.EachSet P' v
  | .single _, .single _, hu, hv => ElemType.EachSet.imp h hu hv
  | .counted _, .repeated _, hu, hv => fun v hm => ElemType.EachSet.imp h hu (hv v hm)
  | .unpacked _, .repeated _, hu, hv => fun v hm => ElemType.EachSet.imp h hu (hv v hm)
  | .single _, .unset, _, _ | .single _, .repeated _, _, _ | .single _, .map _, _, _ => trivial
  | .counted _, .unset, _, _ | .counted _, .single _, _, _ | .counted _, .map _, _, _ => trivial
  | .unpacked _, .unset, _, _ | .unpacked _, .single _, _, _ | .unpacked _, .map _, _, _ => trivial
  | .packed _, _, _, _ | .map _ _, _, _, _ => trivial

theorem Field.EachSet.imp (h : ImpliesIn Q P P') : ∀ {f : Field} {v : FieldValue},
    (∀ v, P f.id f.kind v → P' f.id f.kind v) → f.EachUnit Q → f.EachSet P v → f.EachSet P' v
  | .mk _ _ _, v, hf, hu, hv => ⟨fun hs => hf v (hv.1 hs), FieldKind.EachSet.imp h hu hv.2⟩

theorem EachSet.imp_of_mem (h : ImpliesIn Q P P') : ∀ {fs : List Field} {vs : List FieldValue},
    (∀ f ∈ fs, ∀ v, P f.id f.kind v → P' f.id f.kind v) → fieldsEachUnit Q fs →
    EachSet P fs vs → EachSet P' fs vs
  | _ :: _, _ :: _, hf, hu, hv =>
    ⟨Field.EachSet.imp h (hf _ (by simp)) hu.1 hv.1,
      EachSet.imp_of_mem h (fun f hm => hf f (List.mem_cons_of_mem _ hm)) hu.2 hv.2⟩
  | [], _, _, _, _ | _ :: _, [], _, _, _ => trivial

end

/-- A property of set fields follows from another one and from what the units are. -/
theorem EachSet.imp (h : ImpliesIn Q P P') {fs : List Field} {vs : List FieldValue}
    (hu : EachUnit Q fs) (hv : EachSet P fs vs) : EachSet P' fs vs :=
  EachSet.imp_of_mem h (fun f hf => h fs hu.1 f hf) hu.2 hv

end

/-! ### What a reader sees -/

def elementsSeen (seen : Value → Except Failure Value) :
    List (Option Value) → Except Failure (List Value)
  | [] => .ok []
  | some v :: l => do
    let u ← seen v
    let us ← elementsSeen seen l
    return u :: us
  | none :: _ => .error .rejected

mutual

def ElemType.seen : ElemType → Value → Except Failure Value
  | .unit fs, .unit vs => do
    let us ← fieldsSeen fs vs
    if requiredSet fs us then .ok (.unit us) else .error .rejected
  | _, v => .ok v

def FieldKind.seen : FieldKind → FieldValue → Except Failure FieldValue
  | .single t, .single v => (t.seen v).map .single
  | .counted t, .repeated l => do
    let us ← elementsSeen (fun v => t.seen v) l
    return .repeated (us.map some)
  | .unpacked t, .repeated l =>
    if l.isEmpty then .ok .unset
    else do
      let us ← elementsSeen (fun v => t.seen v) l
      return .repeated (us.map some)
  | .map _ _, .map l => if l.isEmpty then .ok .unset else .ok (.map l)
  | _, v => .ok v

def Field.seen : Field → FieldValue → Except Failure FieldValue
  | .mk _ _ kind, v => kind.seen v

def fieldsSeen : List Field → List FieldValue → Except Failure (List FieldValue)
  | f :: fs, v :: vs => do
    let u ← f.seen v
    let us ← fieldsSeen fs vs
    return u :: us
  | _, _ => .ok []

end

/-- What `deserialize` sees in the bytes of a unit. -/
def seen (fs : List Field) (vs : List FieldValue) : Except Failure (List FieldValue) := do
  let us ← fieldsSeen fs vs
  if requiredSet fs us then .ok us else .error .rejected

end Hatn.Dataunit
