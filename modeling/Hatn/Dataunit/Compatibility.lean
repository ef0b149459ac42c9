import Hatn.Dataunit.Transfer

/-!
# Units of a newer schema

A reader steps over the fields that its schema does not have by their wire types alone.
Behind the tag of a field of bytes it expects their number; counted fields have the
number of their elements there.
-/

namespace Hatn.Dataunit

open Hatn.Common Hatn.Wire Hatn.Wire.Parser

variable {fuel k n : Nat} {env : Env} {l : List UInt8}

/-! ### Stepping over fields -/

/-- A reader steps over the bytes `l` behind a tag with this wire type. -/
def Skipped (fuel : Nat) (type : WireType) (l : List UInt8) : Prop :=
  ∀ start, Reads (Within fuel) (fun buf => skipField start type.num buf) l (.ok ())

theorem reads_stepOver (l : List UInt8) :
    Reads (Within fuel) (fun buf => stepOver buf (l.length : Nat)) l (.ok ()) := by
  intro buf o rest hB ho hd
  have hle := add_length_le_of_drop ho hd
  have hlt : buf.length < 2 ^ 31 := hB.1
  show (stepOver buf (l.length : Nat)).outcome o = _
  rw [stepOver, outcome_bind_ok (outcome_incCurrentOffset (by omega) (by omega)),
    outcome_bind_ok (outcome_offset _), if_neg (by omega)]
  rfl

/-- Numbers end where their bytes say so. -/
theorem skipped_varInt (h : VarForm k n l) (hk : k ≤ 10) : Skipped fuel .varInt l := by
  intro start buf o rest hB ho hd
  have hlt : buf.length < 2 ^ 31 := hB.1
  have hle := add_length_le_of_drop ho hd
  obtain ⟨hb, hp⟩ := h.unpackLoop_ends (2 ^ 32) (by omega : 7 * k ≤ 56 + 14)
    (available hB ho hd) rest
  rw [← hd] at hb hp
  have hr := @outcome_readVarInt unpackUnknown buf o hb (by omega)
    (by rw [unpackUnknown, hp]; omega)
  show (skipField start WireType.varInt.num buf).outcome o = _
  rw [skipField, if_neg (by decide), if_pos rfl, outcome_bind_ok hr]
  show Except.ok ((), o + (unpackLoop _ _ _ _ _).processedSize) = _
  rw [hp]
  rfl

/-- Bytes behind their number. -/
theorem skipped_withLength {head : List UInt8} (h : VarForm 5 l.length head)
    (hl : l.length < 2 ^ 31) : Skipped fuel .withLength (head ++ l) := by
  intro start
  have hlen := h.length_le
  have hread : Reads (Within fuel) (fun buf => readVarInt unpackUnknown buf) head
      (.ok ⟨l.length, head.length, 7 * (head.length - 1), false, false⟩) :=
    reads_form fuel (h.mono (by norm_num : 5 ≤ 10)) (by norm_num) (by omega)
  refine hread.bind_ok ?_
  · have hshift : ¬ 28 < 7 * (head.length - 1) := by omega
    simp only [skipBytes, hshift, if_false]
    exact Reads.offset_bind fun o => Reads.log_bind _ (reads_stepOver l)

theorem skipped_fixed32 (h : l.length = 4) : Skipped fuel .fixed32 l := by
  intro start
  have hs : Reads (Within fuel) _ l _ := reads_stepOver l
  rw [h] at hs
  exact hs

theorem skipped_fixed64 (h : l.length = 8) : Skipped fuel .fixed64 l := by
  intro start
  have hs : Reads (Within fuel) _ l _ := reads_stepOver l
  rw [h] at hs
  exact hs

theorem skipped_scalar (t : ScalarType) (z : Int) :
    Skipped fuel t.wireType (scalarBytes t z) := by
  have h64 : ∀ m : Int, VarForm 10 (m % 2 ^ 64).toNat (packVarInt64 (m % 2 ^ 64).toNat) := by
    intro m
    have hm : m % 2 ^ 64 < 2 ^ 64 := Int.emod_lt_of_pos m (by norm_num)
    exact .packVarInt64 (by omega)
  cases t with
  | varInt signed w => exact skipped_varInt (h64 z) le_rfl
  | zigZag w =>
    rw [scalarBytes]
    by_cases hw : w = .w64
    · rw [if_pos hw]
      exact skipped_varInt (.packVarInt64 (BitVec.isLt _)) le_rfl
    · rw [if_neg hw]
      exact skipped_varInt (.packVarInt32 (BitVec.isLt _)) (by norm_num)
  | fixed32 signed => exact skipped_fixed32 (leBytes_length 4 _)
  | fixed64 signed => exact skipped_fixed64 (leBytes_length 8 _)
  | date => exact skipped_varInt (packUint32_form _) (by norm_num)
  | time => exact skipped_varInt (h64 z) le_rfl
  | dateTime => exact skipped_varInt (h64 z) le_rfl
  | dateRange => exact skipped_varInt (packUint32_form _) (by norm_num)

theorem skipped_sized (hl : l.length < 2 ^ 31) :
    Skipped fuel .withLength (packUint32 l.length ++ l) := by
  have h := packUint32_form l.length
  rw [Nat.mod_eq_of_lt (by omega)] at h
  exact skipped_withLength h hl

theorem skipped_unit (hl : (unitBytes l).length < 2 ^ 31) :
    Skipped fuel .withLength (unitBytes l) := by
  rw [unitBytes, List.length_append] at hl
  exact skipped_withLength (.packSize (by omega)) (by omega)

/-- **Elements** are stepped over. -/
theorem skipped_elem {t : ElemType} {v : Value} (h : t.encode v = some l) (hl : l.length < 2 ^ 31) :
    Skipped fuel t.wireType l := by
  match t, v with
  | .scalar t, .datum (.num z) =>
    cases h
    exact skipped_scalar t z
  | .bytes _, .datum (.bytes x) =>
    cases h
    rw [List.length_append] at hl
    exact skipped_sized (by omega)
  | .objectId, .datum (.oid x) =>
    cases h
    rw [← ObjectId.serialize_length x]
    exact skipped_sized (by rw [ObjectId.serialize_length]; decide)
  | .unit fs, .unit vs =>
    rw [ElemType.encode] at h
    obtain ⟨x, -, hx⟩ := Option.bind_eq_some_iff.mp h
    cases hx
    exact skipped_unit hl
  | .scalar _, .datum (.bytes _) | .scalar _, .datum (.oid _) | .scalar _, .unit _ => cases h
  | .bytes _, .datum (.num _) | .bytes _, .datum (.oid _) | .bytes _, .unit _ => cases h
  | .objectId, .datum (.bytes _) | .objectId, .datum (.num _) | .objectId, .unit _ => cases h
  | .unit _, .datum _ => cases h

/-- Items of unknown fields with a tag each are stepped over one by one. -/
theorem rounds_skip {α β : Type} {find : List UInt8 → Nat → Option (UnitFieldParser α)} {id : Nat}
    {type : WireType} (ht : TagFits id type) (hf : ∀ buf, find buf id = none)
    {encode : β → Option (List UInt8)} : ∀ {items : List β} {l : List UInt8} {x : α},
    (∀ a ∈ items, ∀ b, encode a = some b → b.length < 2 ^ 31 →
      ∃ c, b = tagBytes id type ++ c ∧ Skipped fuel type c) →
    encodeAll encode items = some l → l.length < 2 ^ 31 →
    Rounds (Within fuel) (fun x buf => fieldRound (find buf) buf x) l x (.ok x) := by
  intro items
  induction items with
  | nil =>
    intro l x _ h _
    cases h
    exact .nil
  | cons a items ih =>
    intro l x hc h hl
    obtain ⟨b, y, hb, hy, rfl⟩ := encodeAll_cons h
    rw [List.length_append] at hl
    obtain ⟨c, rfl, hs⟩ := hc a (by simp) b hb (by omega)
    exact .cons (tagBytes_append_ne_nil _ _ _) (reads_unknown ht hf hs)
      (ih (fun a ha => hc a (List.mem_cons_of_mem _ ha)) hy (by omega))

/-! ### Fields that the older schema does not have -/

/-- The number behind the tag is the number of bytes: elements of counted fields take a
byte each. -/
def Framed (k : FieldKind) (v : FieldValue) : Prop :=
  ∀ t, k = .counted t → ∀ u, some u ∈ v.elements → ∃ b, t.encode u = some [b]

/-- A field that comes back from its bytes, also when it is packed. -/
def Carried (id : Nat) (k : FieldKind) (v : FieldValue) : Prop :=
  Travels id k v ∧ ∀ t, k = .packed t → v.elements ≠ []

theorem length_of_framed {t : ElemType} : ∀ {vs : List (Option Value)} {l : List UInt8},
    none ∉ vs → (∀ u, some u ∈ vs → ∃ b, t.encode u = some [b]) →
    encodeAll (fun (v : Option Value) =>
      match v with
      | some v => t.encode v
      | none => some []) vs = some l → l.length = vs.length := by
  intro vs
  induction vs with
  | nil =>
    intro l _ _ h
    cases h
    rfl
  | cons v vs ih =>
    intro l hn hb h
    obtain ⟨x, y, hx, hy, rfl⟩ := encodeAll_cons h
    cases v with
    | none => exact absurd (by simp) hn
    | some v =>
      obtain ⟨b, hb0⟩ := hb v (by simp)
      have hx1 : x = [b] := Option.some.inj (hx.symm.trans hb0)
      rw [List.length_append, hx1, ih (fun h => hn (List.mem_cons_of_mem _ h))
        (fun u hu => hb u (List.mem_cons_of_mem _ hu)) hy, List.length_cons, Nat.add_comm]
      rfl

/-- **A field that the schema does not have** is stepped over. -/
theorem FieldKind.rounds_unknown {α : Type} {find : List UInt8 → Nat → Option (UnitFieldParser α)}
    {id : Nat} {k : FieldKind} {v : FieldValue} {x : α} (hf : ∀ buf, find buf id = none)
    (hc : Carried id k v) (hframed : Framed k v) (h : k.encode id v = some l)
    (hl : l.length < 2 ^ 31) :
    Rounds (Within fuel) (fun x buf => fieldRound (find buf) buf x) l x (.ok x) := by
  have hround : ∀ {type : WireType} {c : List UInt8}, TagFits id type → Skipped fuel type c →
      Rounds (Within fuel) (fun x buf => fieldRound (find buf) buf x) (tagBytes id type ++ c) x
        (.ok x) := fun ht hs =>
    .single (tagBytes_append_ne_nil _ _ _) (reads_unknown ht hf hs)
  have htag := hc.1.1.1
  match k, v with
  | .single t, .single v =>
    obtain ⟨b, hb, h⟩ := Option.bind_eq_some_iff.mp h
    cases h
    rw [List.length_append] at hl
    exact hround htag (skipped_elem hb (by omega))
  | .counted t, .repeated vs =>
    obtain ⟨b, hb, h⟩ := Option.bind_eq_some_iff.mp h
    cases h
    have hlen : b.length = vs.length := length_of_framed hc.1.1.2 (hframed t rfl) hb
    rw [List.length_append] at hl
    rw [List.append_assoc, ← hlen]
    exact hround htag (skipped_sized (by omega))
  | .unpacked t, .repeated vs =>
    refine rounds_skip htag hf (fun v hm b hb hlt => ?_) h hl
    cases v with
    | none => exact absurd hm hc.1.1.2
    | some v =>
      obtain ⟨c, hc, rfl⟩ := Option.map_eq_some_iff.mp hb
      rw [List.length_append] at hlt
      exact ⟨c, rfl, skipped_elem hc (by omega)⟩
  | .packed t, .repeated vs =>
    obtain ⟨b, hb, h⟩ := Option.bind_eq_some_iff.mp h
    cases h
    rw [List.length_append, packedBytes_eq (hc.2 t rfl) hb, List.length_append] at hl
    rw [packedBytes_eq (hc.2 t rfl) hb]
    exact hround htag (skipped_withLength (.packVarInt32 (by omega)) (by omega))
  | .map key value, .map es =>
    refine rounds_skip htag hf (fun e _ b hb hlt => ?_) h hl
    obtain ⟨c, hc, rfl⟩ := Option.map_eq_some_iff.mp hb
    rw [List.length_append] at hlt
    obtain ⟨k, -, hc⟩ := Option.bind_eq_some_iff.mp hc
    obtain ⟨v, -, hc⟩ := Option.bind_eq_some_iff.mp hc
    cases hc
    exact ⟨_, rfl, skipped_unit (by omega)⟩
  | .single _, .unset | .single _, .repeated _ | .single _, .map _ => cases h
  | .counted _, .unset | .counted _, .single _ | .counted _, .map _ => cases h
  | .unpacked _, .unset | .unpacked _, .single _ | .unpacked _, .map _ => cases h
  | .packed _, .unset | .packed _, .single _ | .packed _, .map _ => cases h
  | .map _ _, .unset | .map _ _, .single _ | .map _ _, .repeated _ => cases h

/-! ### The fields of an older schema -/

/-- The value of the field with this id. -/
def valueOf : List Field → List FieldValue → Nat → FieldValue
  | f :: fs, v :: vs, id => if f.id = id then v else valueOf fs vs id
  | _, _, _ => .unset

/-- The values of the fields `known`, in their order. -/
def restrict (known fs : List Field) (vs : List FieldValue) : List FieldValue :=
  known.map (fun f => valueOf fs vs f.id)

theorem assign_eq_valueOf : ∀ {fs : List Field} {vs : List FieldValue} {cur : Nat → FieldValue},
    UniqueIds fs → fs.length = vs.length → ∀ f ∈ fs, assign cur fs vs f.id = valueOf fs vs f.id := by
  intro fs
  induction fs with
  | nil => intro vs cur _ _ f hf; cases hf
  | cons g fs ih =>
    intro vs cur hu hl f hf
    cases vs with
    | nil => cases hl
    | cons v vs =>
      obtain ⟨hg, hu⟩ := List.nodup_cons.mp hu
      rw [assign, valueOf]
      rcases List.mem_cons.mp hf with rfl | hf
      · rw [if_pos rfl, assign_of_not_mem hg, Function.update_self]
      · rw [if_neg, ih hu (Nat.succ.inj hl) f hf]
        intro he
        exact hg (he ▸ List.mem_map_of_mem hf)

theorem requiredSet_map (g : Field → FieldValue) : ∀ {fs : List Field},
    requiredSet fs (fs.map g) = true ↔ ∀ f ∈ fs, (!f.required || (g f).isSet) = true := by
  intro fs
  induction fs with
  | nil => simp [requiredSet]
  | cons f fs ih => rw [List.map_cons, requiredSet, Bool.and_eq_true, ih, List.forall_mem_cons]

theorem requiredSet_valueOf : ∀ {fs : List Field} {vs : List FieldValue}, UniqueIds fs →
    fs.length = vs.length → requiredSet fs vs = true →
    ∀ f ∈ fs, (!f.required || (valueOf fs vs f.id).isSet) = true := by
  intro fs
  induction fs with
  | nil => intro vs _ _ _ f hf; cases hf
  | cons g fs ih =>
    intro vs hu hl h f hf
    cases vs with
    | nil => cases hl
    | cons v vs =>
      obtain ⟨hg, hu⟩ := List.nodup_cons.mp hu
      rw [requiredSet, Bool.and_eq_true] at h
      rw [valueOf]
      rcases List.mem_cons.mp hf with rfl | hf
      · rw [if_pos rfl]
        exact h.1
      · rw [if_neg]
        · exact ih hu (Nat.succ.inj hl) h.2 f hf
        · intro he
          exact hg (he ▸ List.mem_map_of_mem hf)

theorem slots_update_of_not_mem {known : List Field} {id : Nat} {cur : Nat → FieldValue}
    {v : FieldValue} (h : id ∉ known.map Field.id) :
    slots known (Function.update cur id v) = slots known cur :=
  List.map_congr_left fun _ hf =>
    Function.update_of_ne (fun he => h (List.mem_map.mpr ⟨_, hf, he⟩)) v cur

/-- A field of both schemas is read as it is. -/
theorem Field.rounds_carried {known : List Field} {f : Field} {v : FieldValue}
    {cur : Nat → FieldValue} (hk : UniqueIds known) (hf : f ∈ known) (hcur : cur f.id = .unset)
    (hu : f.EachUnit UniqueIds) (hv : f.Holds env v) (hc : f.EachSet Carried v)
    (h : f.encode v = some l) (hl : l.length < 2 ^ 31) :
    Rounds (Within fuel) (fun x buf => fieldRound (findField (fieldParsers env buf fuel known)) buf x)
      l (slots known cur) (.ok (slots known (Function.update cur f.id v))) := by
  have hcarried : ∀ {P : Nat → FieldKind → FieldValue → Prop},
      (∀ id k v, Carried id k v → P id k v) → f.EachSet P v := fun hP =>
    Field.EachSet.imp (Q := UniqueIds) (fun _ _ f _ => hP f.id f.kind) (hP f.id f.kind) hu hc
  have hseen : f.seen v = .ok v :=
    (Field.seen_eq_iff hv (hcarried fun _ _ _ hc => hc.1.1) h).mpr (hcarried fun _ _ _ hc => hc.1)
  have hslot : Slot env fuel (fun buf => findField (fieldParsers env buf fuel known)) f.id f.kind
      (fun v => slots known (Function.update cur f.id v)) := slot_of_mem hk hf cur
  have hrounds := f.rounds v hslot hu hv (hcarried fun _ _ _ hc => ⟨hc.1.1.1, hc.1.1.2, hc.2⟩)
    (f.form_of_encode v h) hl
  have hstart : Function.update cur f.id .unset = cur := by rw [← hcur, Function.update_eq_self]
  rw [hseen, hstart] at hrounds
  exact hrounds

/-- A field of the newer schema alone is stepped over. -/
theorem Field.rounds_unknown {α : Type} {find : List UInt8 → Nat → Option (UnitFieldParser α)}
    {f : Field} {v : FieldValue} {x : α} (hf : ∀ buf, find buf f.id = none)
    (hc : f.EachSet Carried v) (hframed : Framed f.kind v) (h : f.encode v = some l)
    (hl : l.length < 2 ^ 31) :
    Rounds (Within fuel) (fun x buf => fieldRound (find buf) buf x) l x (.ok x) := by
  obtain ⟨id, required, kind⟩ := f
  cases v with
  | unset =>
    cases required with
    | true => cases h
    | false =>
      cases h
      exact .nil
  | single | repeated | map => exact kind.rounds_unknown hf (hc.1 rfl) hframed h hl

/-- **Fields of both schemas** are read, the others are stepped over. -/
theorem fieldsRounds_known {known : List Field} (hk : UniqueIds known) : ∀ (fs : List Field)
    (vs : List FieldValue) (cur : Nat → FieldValue) {l : List UInt8}, UniqueIds fs →
    (∀ f ∈ fs, f ∈ known ∨ f.id ∉ known.map Field.id) → (∀ f ∈ fs, cur f.id = .unset) →
    fieldsEachUnit UniqueIds fs → fieldsHold env fs vs → EachSet Carried fs vs →
    (∀ p ∈ fs.zip vs, p.1 ∉ known → Framed p.1.kind p.2) →
    encodeFields fs vs = some l → l.length < 2 ^ 31 →
    Rounds (Within fuel) (fun x buf => fieldRound (findField (fieldParsers env buf fuel known)) buf x)
      l (slots known cur) (.ok (slots known (assign cur fs vs))) := by
  intro fs
  induction fs with
  | nil =>
    intro vs cur l _ _ _ _ hv _ _ he _
    cases vs with
    | nil =>
      cases he
      exact .nil
    | cons => exact hv.elim
  | cons f fs ih =>
    intro vs cur l hn hmem hcur hu hv hc hframed he hl
    cases vs with
    | nil => exact hv.elim
    | cons v vs =>
      obtain ⟨x, hx, he⟩ := Option.bind_eq_some_iff.mp he
      obtain ⟨y, hy, he⟩ := Option.bind_eq_some_iff.mp he
      cases he
      rw [List.length_append] at hl
      obtain ⟨hf, hn⟩ := List.nodup_cons.mp hn
      have hrest := ih vs (Function.update cur f.id v) hn
        (fun g hg => hmem g (List.mem_cons_of_mem _ hg)) (by
          intro g hg
          rw [Function.update_of_ne, hcur g (List.mem_cons_of_mem _ hg)]
          rintro he
          exact hf (List.mem_map.mpr ⟨g, hg, he⟩)) hu.2 hv.2 hc.2
        (fun p hp => hframed p (List.mem_cons_of_mem _ hp)) hy (by omega)
      have hfirst : Rounds (Within fuel)
          (fun x buf => fieldRound (findField (fieldParsers env buf fuel known)) buf x) x
          (slots known cur) (.ok (slots known (Function.update cur f.id v))) := by
        rcases hmem f (by simp) with hm | hm
        · exact f.rounds_carried hk hm (hcur f (by simp)) hu.1 hv.1 hc.1 hx (by omega)
        · have hnot : f ∉ known := fun h => hm (List.mem_map_of_mem h)
          rw [slots_update_of_not_mem hm]
          exact f.rounds_unknown (findField_unknown hm) hc.1 (hframed (f, v) (by simp) hnot) hx
            (by omega)
      exact hfirst.append fun z hz => by
        cases hz
        exact hrest

/-- **A unit of a newer schema is read as its older fields**, when the fields that are
not known say how many bytes they have. -/
theorem deserialize_restrict {S S' : Schema} (hsub : ∀ f ∈ S.fields, f ∈ S'.fields)
    (x : S'.Unit env) (w : Serialized x) {fuel : Nat} (hf : w.buf.container.length < fuel)
    (hc : EachSet Carried S'.fields x.values)
    (hframed : ∀ p ∈ S'.fields.zip x.values, p.1 ∉ S.fields → Framed p.1.kind p.2) :
    (deserialize env S.fields w.buf.container fuel).outcome 0 =
      .ok (restrict S.fields S'.fields x.values, w.buf.container.length) := by
  have hlen := w.length_lt
  have hmem : ∀ f ∈ S'.fields, f ∈ S.fields ∨ f.id ∉ S.fields.map Field.id := by
    intro f hf
    by_cases h : f.id ∈ S.fields.map Field.id
    · obtain ⟨g, hg, he⟩ := List.mem_map.mp h
      have hgf := List.inj_on_of_nodup_map S'.uniqueIds.1 (hsub g hg) hf he
      exact .inl (hgf ▸ hg)
    · exact .inr h
  have hrounds : Rounds (Within fuel)
      (fun x buf => fieldRound (findField (fieldParsers env buf fuel S.fields)) buf x)
      w.buf.container _ _ :=
    fieldsRounds_known S.uniqueIds.1 S'.fields x.values (fun _ => .unset) S'.uniqueIds.1 hmem
      (fun _ _ => rfl) S'.uniqueIds.2 x.holds hc hframed w.encode hlen
  have hslots : slots S.fields (assign (fun _ => .unset) S'.fields x.values) =
      restrict S.fields S'.fields x.values :=
    List.map_congr_left fun f hf => assign_eq_valueOf S'.uniqueIds.1 (fieldsHold_length x.holds) f
      (hsub f hf)
  have hread := outcome_deserializeFields hrounds (requiredSet S.fields) ⟨hlen, hf⟩
    (Nat.zero_le _) (List.append_nil _).symm
  rw [hslots, ok_bind, Nat.zero_add, if_pos] at hread
  · exact hread
  · rw [restrict, requiredSet_map]
    intro f hf
    exact requiredSet_valueOf S'.uniqueIds.1 (fieldsHold_length x.holds)
      (requiredSet_of_encode w.encode) f (hsub f hf)

/-- `sampleSchema` without its number. -/
def olderSchema : Schema where
  fields := [.mk 2 false (.counted (.unit [.mk 1 false (.single (.bytes 0))]))]
  uniqueIds := by simp [EachUnit, fieldsEachUnit, Field.EachUnit, FieldKind.EachUnit,
    ElemType.EachUnit, UniqueIds, Field.id]

theorem deserialize_older :
    (deserialize sampleEnv olderSchema.fields sampleBytes.buf.container 19).outcome 0 =
      .ok (restrict olderSchema.fields sampleSchema.fields sampleUnit.values, 18) := by
  refine deserialize_restrict (fun f hf => List.mem_cons_of_mem _ hf) sampleUnit sampleBytes
    (by decide) ?_ ?_
  · refine ⟨⟨fun _ => ?_, trivial⟩, ⟨fun _ => ?_, fun v hv => ?_⟩, trivial⟩
    · refine ⟨⟨⟨⟨by norm_num, .inl (by norm_num)⟩, List.not_mem_nil⟩, ?_, ?_⟩, ?_⟩
      all_goals intros; contradiction
    · refine ⟨⟨⟨⟨by norm_num, .inl (by norm_num)⟩, by simp [FieldValue.elements]⟩, ?_, ?_⟩, ?_⟩
      all_goals intros; contradiction
    · simp only [List.mem_cons, List.not_mem_nil, or_false, Option.some.injEq] at hv
      rcases hv with rfl | rfl
      · refine ⟨⟨fun _ => ?_, trivial⟩, trivial⟩
        refine ⟨⟨⟨⟨by norm_num, .inl (by norm_num)⟩, List.not_mem_nil⟩, ?_, ?_⟩, ?_⟩
        all_goals intros; contradiction
      · exact ⟨⟨fun h => (by cases h), trivial⟩, trivial⟩
  · intro p hp hnot
    simp only [sampleSchema, sampleUnit, List.zip_cons_cons, List.zip_nil_right, List.mem_cons,
      List.not_mem_nil, or_false] at hp
    rcases hp with rfl | rfl
    · exact fun _ h => by cases h
    · exact absurd (List.mem_singleton.mpr rfl) hnot

/-- A number and counted numbers. -/
def countedSchema : Schema where
  fields := [.mk 1 false (.counted (.scalar (.fixed32 false))),
    .mk 2 false (.single (.scalar (.varInt false .w32)))]
  uniqueIds := by simp [EachUnit, fieldsEachUnit, Field.EachUnit, FieldKind.EachUnit,
    ElemType.EachUnit, UniqueIds, Field.id]

def numberSchema : Schema where
  fields := [.mk 2 false (.single (.scalar (.varInt false .w32)))]
  uniqueIds := by simp [EachUnit, fieldsEachUnit, Field.EachUnit, FieldKind.EachUnit,
    ElemType.EachUnit, UniqueIds, Field.id]

def countedUnit : countedSchema.Unit sampleEnv where
  values := [.repeated [some (.datum (.num 0))], .single (.datum (.num 5))]
  holds := by
    refine ⟨⟨by simp, fun v hv => ?_⟩, ⟨by norm_num, by norm_num [Width.bits]⟩, trivial⟩
    simp only [List.mem_cons, List.not_mem_nil, or_false, Option.some.injEq] at hv
    subst hv
    exact ⟨by norm_num, by norm_num [Width.bits]⟩

def countedBytes : Serialized countedUnit where
  buf := ⟨[10, 1, 0, 0, 0, 0, 16, 5], 8⟩
  eq := by decide +kernel

/-- One number is counted, so one byte of its four is stepped over. -/
theorem counted_misread :
    ¬ ∀ (S S' : Schema), (∀ f ∈ S.fields, f ∈ S'.fields) → ∀ (x : S'.Unit sampleEnv)
      (w : Serialized x) (fuel : Nat), w.buf.container.length < fuel →
      (deserialize sampleEnv S.fields w.buf.container fuel).outcome 0 =
        .ok (restrict S.fields S'.fields x.values, w.buf.container.length) := by
  intro h
  have h := h numberSchema countedSchema (fun f hf => List.mem_cons_of_mem _ hf) countedUnit
    countedBytes 9 (by decide)
  have hr : ((deserialize sampleEnv numberSchema.fields countedBytes.buf.container 9).outcome
      0).map Prod.snd = .error .rejected := by
    decide +kernel
  rw [h] at hr
  cases hr

end Hatn.Dataunit
