import Hatn.Dataunit.Encoding

/-!
# Forms of values on the wire

The fields of a unit may stand in any order on the wire.  A value has a form for each
order of the fields of its units; `encode` gives one of them.
-/

namespace Hatn.Dataunit

/-- Items one after the other, each of them in one of its forms. -/
def AllForm {α : Type} (form : α → List UInt8 → Prop) : List α → List UInt8 → Prop
  | [], l => l = []
  | a :: as, l => ∃ x y, form a x ∧ AllForm form as y ∧ l = x ++ y

mutual

def ElemType.Form : ElemType → Value → List UInt8 → Prop
  | .scalar t, .datum (.num n), l => l = scalarBytes t n
  | .bytes _, .datum (.bytes x), l => l = packUint32 x.length ++ x
  | .objectId, .datum (.oid x), l => l = packUint32 ObjectId.length ++ x.serialize
  | .unit fs, .unit vs, l =>
    ∃ parts order : List (List UInt8),
      fieldForms fs vs parts ∧ order.Perm parts ∧ l = unitBytes order.flatten
  | _, _, _ => False

def FieldKind.Form (id : Nat) : FieldKind → FieldValue → List UInt8 → Prop
  | .single t, .single v, l => ∃ x, t.Form v x ∧ l = tagBytes id t.wireType ++ x
  | .counted t, .repeated vs, l => ∃ x,
    AllForm (fun (v : Option Value) x =>
      match v with
      | some v => t.Form v x
      | none => x = []) vs x ∧ l = tagBytes id .withLength ++ packUint32 vs.length ++ x
  | .unpacked t, .repeated vs, l =>
    AllForm (fun (v : Option Value) x =>
      match v with
      | some v => ∃ y, t.Form v y ∧ x = tagBytes id t.wireType ++ y
      | none => x = tagBytes id t.wireType) vs l
  | .packed t, .repeated vs, l =>
    ∃ x, encodeAll (packedItem t) vs = some x ∧ l = tagBytes id .withLength ++ packedBytes x
  | .map key value, .map es, l =>
    encodeAll (fun e => (mapItemBytes key value e).map (tagBytes id .withLength ++ ·)) es = some l
  | _, _, _ => False

def Field.Form : Field → FieldValue → List UInt8 → Prop
  | .mk _ required _, .unset, l => required = false ∧ l = []
  | .mk id _ kind, v, l => kind.Form id v l

/-- The forms of fields in their order. -/
def fieldForms : List Field → List FieldValue → List (List UInt8) → Prop
  | f :: fs, v :: vs, parts => ∃ x rest, f.Form v x ∧ fieldForms fs vs rest ∧ parts = x :: rest
  | _, _, parts => parts = []

end

theorem allForm_of_encodeAll {α : Type} {encode : α → Option (List UInt8)}
    {form : α → List UInt8 → Prop} : ∀ {as : List α} {l : List UInt8},
    (∀ a ∈ as, ∀ x, encode a = some x → form a x) → encodeAll encode as = some l →
    AllForm form as l := by
  intro as
  induction as with
  | nil =>
    intro l _ he
    exact (Option.some.inj he).symm
  | cons a as ih =>
    intro l h he
    obtain ⟨x, hx, he⟩ := Option.bind_eq_some_iff.mp he
    obtain ⟨y, hy, he⟩ := Option.bind_eq_some_iff.mp he
    exact ⟨x, y, h a (by simp) x hx, ih (fun b hb => h b (List.mem_cons_of_mem _ hb)) hy,
      (Option.some.inj he).symm⟩

mutual

theorem ElemType.form_of_encode : ∀ (t : ElemType) (v : Value) {l : List UInt8},
    t.encode v = some l → t.Form v l
  | .scalar _, .datum (.num _), _, he | .bytes _, .datum (.bytes _), _, he
  | .objectId, .datum (.oid _), _, he => (Option.some.inj he).symm
  | .unit fs, .unit vs, l, he => by
    obtain ⟨x, hx, he⟩ := Option.bind_eq_some_iff.mp he
    obtain ⟨parts, hparts, rfl⟩ := fieldForms_of_encode fs vs hx
    exact ⟨parts, parts, hparts, .refl _, (Option.some.inj he).symm⟩
  | .scalar _, .datum (.bytes _), _, he | .scalar _, .datum (.oid _), _, he
  | .scalar _, .unit _, _, he => nomatch he
  | .bytes _, .datum (.num _), _, he | .bytes _, .datum (.oid _), _, he
  | .bytes _, .unit _, _, he => nomatch he
  | .objectId, .datum (.bytes _), _, he | .objectId, .datum (.num _), _, he
  | .objectId, .unit _, _, he => nomatch he
  | .unit _, .datum _, _, he => nomatch he

theorem FieldKind.form_of_encode {id : Nat} : ∀ (k : FieldKind) (v : FieldValue) {l : List UInt8},
    k.encode id v = some l → k.Form id v l
  | .single t, .single v, l, he => by
    obtain ⟨x, hx, he⟩ := Option.bind_eq_some_iff.mp he
    exact ⟨x, t.form_of_encode v hx, (Option.some.inj he).symm⟩
  | .counted t, .repeated vs, l, he => by
    obtain ⟨x, hx, he⟩ := Option.bind_eq_some_iff.mp he
    refine ⟨x, allForm_of_encodeAll (fun v _ y hy => ?_) hx, (Option.some.inj he).symm⟩
    cases v with
    | none => exact (Option.some.inj hy).symm
    | some v => exact t.form_of_encode v hy
  | .unpacked t, .repeated vs, l, he => by
    refine allForm_of_encodeAll (fun v _ y hy => ?_) he
    cases v with
    | none => exact (Option.some.inj hy).symm
    | some v =>
      obtain ⟨x, hx, rfl⟩ := Option.map_eq_some_iff.mp hy
      exact ⟨x, t.form_of_encode v hx, rfl⟩
  | .packed t, .repeated vs, l, he => by
    obtain ⟨x, hx, he⟩ := Option.bind_eq_some_iff.mp he
    exact ⟨x, hx, (Option.some.inj he).symm⟩
  | .map _ _, .map _, _, he => he
  | .single _, .unset, _, he | .single _, .repeated _, _, he | .single _, .map _, _, he => nomatch he
  | .counted _, .unset, _, he | .counted _, .single _, _, he | .counted _, .map _, _, he => nomatch he
  | .unpacked _, .unset, _, he | .unpacked _, .single _, _, he | .unpacked _, .map _, _, he =>
    nomatch he
  | .packed _, .unset, _, he | .packed _, .single _, _, he | .packed _, .map _, _, he => nomatch he
  | .map _ _, .unset, _, he | .map _ _, .single _, _, he | .map _ _, .repeated _, _, he => nomatch he

theorem Field.form_of_encode : ∀ (f : Field) (v : FieldValue) {l : List UInt8},
    f.encode v = some l → f.Form v l
  | .mk _ true _, .unset, _, he => nomatch he
  | .mk _ false _, .unset, _, he => ⟨rfl, (Option.some.inj he).symm⟩
  | .mk _ _ kind, .single v, _, he => kind.form_of_encode (.single v) he
  | .mk _ _ kind, .repeated vs, _, he => kind.form_of_encode (.repeated vs) he
  | .mk _ _ kind, .map es, _, he => kind.form_of_encode (.map es) he

/-- **`encode` gives a form**: the one with the fields in their order. -/
theorem fieldForms_of_encode : ∀ (fs : List Field) (vs : List FieldValue) {l : List UInt8},
    encodeFields fs vs = some l → ∃ parts, fieldForms fs vs parts ∧ l = parts.flatten
  | f :: fs, v :: vs, l, he => by
    obtain ⟨x, hx, he⟩ := Option.bind_eq_some_iff.mp he
    obtain ⟨y, hy, he⟩ := Option.bind_eq_some_iff.mp he
    obtain ⟨rest, hrest, rfl⟩ := fieldForms_of_encode fs vs hy
    exact ⟨x :: rest, ⟨x, rest, f.form_of_encode v hx, hrest, rfl⟩, (Option.some.inj he).symm⟩
  | [], _, _, he => ⟨[], rfl, (Option.some.inj he).symm⟩
  | _ :: _, [], _, he => ⟨[], rfl, (Option.some.inj he).symm⟩

end

end Hatn.Dataunit
