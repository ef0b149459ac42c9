import Hatn.Dataunit.FieldRounds
import Hatn.Dataunit.RoundTrip

/-!
# What the readers yield

A field that a reader has set was found by a tag of 32 bits, and each of its elements was
read, whatever the bytes were.
-/

namespace Hatn.Dataunit

open Hatn.Common Hatn.Wire Hatn.Wire.Parser

variable {fuel : Nat} {env : Env} {buf : List UInt8}

/-- A field as readers set it. -/
def Found (id : Nat) (k : FieldKind) (v : FieldValue) : Prop :=
  TagFits id k.wireType ∧ none ∉ v.elements

/-- The content of a field as readers set it. -/
def FieldKind.Filled (k : FieldKind) (v : FieldValue) : Prop :=
  k.EachSet Found v ∧ none ∉ v.elements

/-! ### Fields by their places -/

section
variable {P : Nat → FieldKind → FieldValue → Prop}

theorem FieldKind.eachSet_unset (k : FieldKind) : k.EachSet P .unset := by
  cases k <;> trivial

theorem Field.eachSet_unset (f : Field) : f.EachSet P .unset := by
  obtain ⟨id, required, kind⟩ := f
  exact ⟨nofun, kind.eachSet_unset⟩

theorem eachSet_fresh : ∀ fs : List Field, EachSet P fs (freshFields fs) := by
  intro fs
  induction fs with
  | nil => trivial
  | cons f fs ih => exact ⟨f.eachSet_unset, ih⟩

theorem EachSet.getD : ∀ {fs : List Field} {vs : List FieldValue} {i : Nat} {f : Field},
    EachSet P fs vs → fs[i]? = some f → f.EachSet P (vs.getD i .unset) := by
  intro fs
  induction fs with
  | nil => intro vs i f _ hf; cases hf
  | cons g fs ih =>
    intro vs i f h hf
    cases vs with
    | nil => exact f.eachSet_unset
    | cons v vs =>
      cases i with
      | zero =>
        cases hf
        exact h.1
      | succ i =>
        rw [List.getD_cons_succ]
        exact ih h.2 hf

theorem EachSet.set : ∀ {fs : List Field} {vs : List FieldValue} {i : Nat} {f : Field}
    {v : FieldValue}, EachSet P fs vs → fs[i]? = some f → f.EachSet P v →
    EachSet P fs (vs.set i v) := by
  intro fs
  induction fs with
  | nil => intro vs i f v _ hf; cases hf
  | cons g fs ih =>
    intro vs i f v h hf hv
    cases vs with
    | nil => trivial
    | cons w vs =>
      cases i with
      | zero =>
        cases hf
        exact ⟨hv, h.2⟩
      | succ i => exact ⟨h.1, ih h.2 hf hv⟩

end

/-- Clearing keeps what readers have set. -/
theorem eachSet_clear : ∀ {fs : List Field} {vs : List FieldValue},
    EachSet Found fs vs → EachSet Found fs (vs.map FieldValue.clear) := by
  intro fs
  induction fs with
  | nil => intro vs _; trivial
  | cons f fs ih =>
    intro vs h
    cases vs with
    | nil => trivial
    | cons v vs =>
      obtain ⟨id, required, kind⟩ := f
      refine ⟨⟨fun hs => ?_, ?_⟩, ih h.2⟩
      · have hset : v.isSet = true := by
          cases v with
          | unset => cases hs
          | single | repeated | map => rfl
        refine ⟨(h.1.1 hset).1, ?_⟩
        cases v with
        | single w => cases w <;> simp [FieldValue.clear, FieldValue.elements]
        | unset | repeated | map => simp [FieldValue.clear, FieldValue.elements]
      · cases v with
        | unset => exact kind.eachSet_unset
        | single w =>
          cases w with
          | unit => exact kind.eachSet_unset
          | datum d =>
            cases kind with
            | single t => cases t <;> trivial
            | counted | unpacked | packed | map => trivial
        | repeated l => cases kind <;> first | trivial | exact fun _ h => by cases h
        | map l => cases kind <;> trivial

/-! ### The readers -/

theorem tagFits_of_tag {tag : Nat} {type : WireType} (h0 : tag ≠ 0) (hlt : tag < 2 ^ 32)
    (hw : type.num = tag &&& 7) : TagFits (tag >>> 3) type := by
  rw [show 7 = 2 ^ 3 - 1 by rfl, Nat.and_two_pow_sub_one_eq_mod] at hw
  rw [Nat.shiftRight_eq_div_pow]
  refine ⟨by omega, ?_⟩
  by_cases ht : type = .varInt
  · rw [ht, WireType.num] at hw
    exact .inl (by omega)
  · exact .inr ht

/-- A round sets a field whose tag it has read. -/
theorem yields_round {fs : List Field} (hp : ∀ f ∈ fs, ∀ v, f.kind.Filled v →
      Yields (f.kind.deserialize env buf fuel v) f.kind.Filled) {x : List FieldValue}
    (hx : EachSet Found fs x) :
    Yields (fieldRound (findField (fieldParsers env buf fuel fs)) buf x) (EachSet Found fs) := by
  refine yields_fieldRound hx fun tag p h0 hlt hfind hw => ?_
  obtain ⟨i, f, hf, hid, rfl⟩ := findField_eq_some hfind
  have hfits : TagFits f.id f.kind.wireType := by
    rw [hid]
    exact tagFits_of_tag h0 hlt hw
  have hcur := hx.getD hf
  obtain ⟨id, required, kind⟩ := f
  refine (hp _ (List.mem_of_getElem? hf) _ ⟨hcur.2, ?_⟩).bind fun v hv =>
    Yields.pure (hx.set hf ⟨fun _ => ⟨hfits, hv.2⟩, hv.1⟩)
  by_cases hset : (x.getD i .unset).isSet = true
  · exact (hcur.1 hset).2
  · cases hv : x.getD i .unset with
    | unset => exact List.not_mem_nil
    | single | repeated | map =>
      rw [hv] at hset
      exact absurd rfl hset

theorem ElemType.eachSet_freshValue (t : ElemType) : t.EachSet Found t.fresh := by
  cases t with
  | unit fs => exact eachSet_fresh fs
  | scalar | bytes | objectId => trivial

theorem eachSet_current {t : ElemType} {v : FieldValue} (h : (FieldKind.single t).EachSet Found v) :
    t.EachSet Found (currentValue t v) := by
  cases v with
  | single w =>
    cases w with
    | unit vs =>
      cases t with
      | unit fs => exact eachSet_clear h
      | scalar | bytes | objectId => trivial
    | datum d => exact t.eachSet_freshValue
  | unset | repeated | map => exact t.eachSet_freshValue

mutual

theorem ElemType.yields : ∀ (t : ElemType) (current : Value), t.EachSet Found current →
    Yields (t.read env buf fuel current) (t.EachSet Found)
  | .scalar t, _, _ => by
    rw [ElemType.read]
    exact (Yields.true _).bind fun _ _ => Yields.pure trivial
  | .bytes _, _, _ => by
    rw [ElemType.read]
    exact (Yields.true _).bind fun _ _ => Yields.pure trivial
  | .objectId, _, _ => by
    rw [ElemType.read]
    exact (Yields.true _).bind fun _ _ => Yields.pure trivial
  | .unit fs, current, hc => by
    have hcur : EachSet Found fs (currentFields fs current) := by
      cases current with
      | unit vs => exact hc
      | datum d => exact eachSet_fresh fs
    rw [ElemType.read]
    exact (yields_unit (fun x hx => yields_round (fieldsYield fs) hx) (eachSet_fresh fs) hcur).bind
      fun vs hvs => Yields.pure hvs

theorem FieldKind.yields : ∀ (k : FieldKind) (v : FieldValue), k.Filled v →
    Yields (k.deserialize env buf fuel v) k.Filled
  | .single t, v, hv => by
    rw [FieldKind.deserialize]
    exact (t.yields _ (eachSet_current hv.1)).bind fun u hu => Yields.pure ⟨hu, List.not_mem_nil⟩
  | .counted t, v, hv => by
    rw [FieldKind.deserialize]
    refine (Yields.true _).bind fun count _ => (Yields.true _).bind fun o _ => ?_
    split
    · exact Yields.fail
    · split
      · exact Yields.fail
      · refine (Yields.times (t.yields _ t.eachSet_freshValue) count).bind fun us hus =>
          Yields.pure ⟨fun u hu => ?_, by simp [FieldValue.elements]⟩
        obtain ⟨w, hw, he⟩ := List.mem_map.mp hu
        exact Option.some.inj he ▸ hus w hw
  | .unpacked t, v, hv => by
    rw [FieldKind.deserialize]
    refine (t.yields _ t.eachSet_freshValue).bind fun u hu => Yields.pure ⟨fun w hw => ?_, ?_⟩
    · rcases List.mem_append.mp hw with hw | hw
      · cases v with
        | repeated l => exact hv.1 w hw
        | unset | single | map => cases hw
      · rw [List.mem_singleton] at hw
        exact Option.some.inj hw ▸ hu
    · rw [FieldValue.elements, List.mem_append, not_or]
      exact ⟨hv.2, by simp⟩
  | .packed t, v, hv => by
    rw [FieldKind.deserialize]
    refine (Yields.true _).bind fun length _ => (Yields.true _).bind fun o _ =>
      (Yields.true _).bind fun _ _ => ?_
    split
    · exact Yields.fail
    · have hround : ∀ l : List (Option Value), none ∉ l →
          Yields (packedRound (readScalar env buf t) l) (none ∉ ·) := by
        intro l hl
        refine (Yields.true _).bind fun n _ => Yields.pure ?_
        rw [List.mem_append, not_or]
        exact ⟨hl, by simp⟩
      exact (Yields.untilOffset hround fuel [] List.not_mem_nil).bind fun l hl =>
        Yields.pure ⟨trivial, hl⟩
  | .map key value, v, hv => by
    rw [FieldKind.deserialize]
    exact (Yields.true _).bind fun e _ => Yields.pure ⟨trivial, List.not_mem_nil⟩

theorem fieldsYield : ∀ (fs : List Field), ∀ f ∈ fs, ∀ v, f.kind.Filled v →
    Yields (f.kind.deserialize env buf fuel v) f.kind.Filled
  | [], f, hf, _, _ => nomatch hf
  | .mk _ _ kind :: fs, f, hf, v, hv => by
    rcases List.mem_cons.mp hf with rfl | hf
    · exact kind.yields v hv
    · exact fieldsYield fs f hf v hv

end

/-- **Results of `deserialize`** have been found field by field. -/
theorem deserialize_yields (fs : List Field) :
    Yields (deserialize env fs buf fuel) (EachSet Found fs) := by
  have hround : ∀ x, EachSet Found fs x →
      Yields (fieldRound (findField (fieldParsers env buf fuel fs)) buf x) (EachSet Found fs) :=
    fun x hx => yields_round (fieldsYield fs) hx
  exact yields_deserializeFields hround (eachSet_fresh fs) _

end Hatn.Dataunit
