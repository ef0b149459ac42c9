import Hatn.Dataunit.Compatibility

/-!
# Maps and keys that come again

Values get into a map by `emplace`, which leaves an entry as it is when its key is there: the
first value of a key stays, that of a call of `setValue` as that of an item on the wire.  So a map
keeps the last values of its keys just when these are the first ones.  The items that a parse
meets are recorded beside the unit (`recordItems`), whatever else is on the wire between them.
-/

namespace Hatn.Dataunit

open Hatn.Common Hatn.Wire Hatn.Wire.Parser

/-! ### Maps -/

/-- The values of the keys of a map. -/
def MapType.IsKey : MapType → Datum → Prop
  | .string, .bytes _ => True
  | .int _ _, .num _ | .other, .num _ => True
  | _, _ => False

/-- The first value of the key. -/
def firstValue (k : Datum) (l : List (Datum × Datum)) : Option Datum := l.lookup k

/-- The last value of the key. -/
def lastValue (k : Datum) (l : List (Datum × Datum)) : Option Datum := l.reverse.lookup k

/-- `find` of a sorted map -/
def findEntry (k : Datum) (l : List (Datum × Datum)) : Option Datum :=
  (l.find? fun e => !e.1.lt k && !k.lt e.1).map Prod.snd

/-- The entries of a map: their keys are values of its key type in ascending order. -/
structure IsMap (t : MapType) (l : List (Datum × Datum)) : Prop where
  typed : ∀ e ∈ l, t.IsKey e.1
  sorted : l.Pairwise fun a b => a.1.lt b.1 = true

section
variable {t : MapType} {a b c : Datum}

theorem Datum.lt_irrefl (a : Datum) : a.lt a = false := by
  cases a with
  | num n => simp [Datum.lt]
  | bytes l => simp [Datum.lt]
  | oid x => rfl

theorem Datum.lt_trans (h : a.lt b = true) (g : b.lt c = true) : a.lt c = true := by
  match a, b, c with
  | .num x, .num y, .num z =>
    simp only [Datum.lt, decide_eq_true_iff] at h g ⊢
    exact h.trans g
  | .bytes x, .bytes y, .bytes z =>
    simp only [Datum.lt, decide_eq_true_iff] at h g ⊢
    exact h.trans g
  | .num _, .num _, .bytes _ | .num _, .num _, .oid _ => cases g
  | .bytes _, .bytes _, .num _ | .bytes _, .bytes _, .oid _ => cases g
  | .num _, .bytes _, _ | .num _, .oid _, _ | .bytes _, .num _, _ | .bytes _, .oid _, _
  | .oid _, _, _ => cases h

/-- **Keys are in one place of the order.** -/
theorem Datum.eq_of_not_lt (ha : t.IsKey a) (hb : t.IsKey b) (h : a.lt b = false)
    (g : b.lt a = false) : a = b := by
  match t, a, b with
  | .string, .bytes x, .bytes y =>
    simp only [Datum.lt, decide_eq_false_iff_not] at h g
    rw [le_antisymm (not_lt.mp g) (not_lt.mp h)]
  | .int _ _, .num x, .num y | .other, .num x, .num y =>
    simp only [Datum.lt, decide_eq_false_iff_not] at h g
    rw [le_antisymm (not_lt.mp g) (not_lt.mp h)]
  | .string, .num _, _ | .string, .oid _, _ | .int _ _, .bytes _, _ | .int _ _, .oid _, _
  | .other, .bytes _, _ | .other, .oid _, _ => exact ha.elim
  | .string, .bytes _, .num _ | .string, .bytes _, .oid _ | .int _ _, .num _, .bytes _
  | .int _ _, .num _, .oid _ | .other, .num _, .bytes _ | .other, .num _, .oid _ => exact hb.elim

theorem Datum.ne_of_lt (h : a.lt b = true) : a ≠ b := by
  rintro rfl
  rw [Datum.lt_irrefl] at h
  cases h

end

section
variable {t : MapType} {k k' v : Datum} {l : List (Datum × Datum)}

@[simp] theorem firstValue_nil (k : Datum) : firstValue k [] = none := rfl

theorem firstValue_cons (k : Datum) (e : Datum × Datum) (l : List (Datum × Datum)) :
    firstValue k (e :: l) = if k = e.1 then some e.2 else firstValue k l := by
  unfold firstValue
  rw [List.lookup_cons]
  by_cases h : k = e.1
  · rw [beq_iff_eq.mpr h, if_pos h]
  · rw [beq_eq_false_iff_ne.mpr h, if_neg h]

theorem firstValue_eq_none (h : ∀ e ∈ l, k ≠ e.1) : firstValue k l = none :=
  List.lookup_eq_none_iff.mpr fun e he => bne_iff_ne.mpr (h e he)

/-- What `find` finds is the entry with the key. -/
theorem findEntry_eq (hl : IsMap t l) (hk : t.IsKey k) : findEntry k l = firstValue k l := by
  obtain ⟨htyped, -⟩ := hl
  unfold findEntry
  induction l with
  | nil => rfl
  | cons e l ih =>
    have ih := ih fun e' he' => htyped e' (List.mem_cons_of_mem e he')
    rw [List.find?_cons, firstValue_cons]
    by_cases heq : k = e.1
    · rw [if_pos heq, heq, Datum.lt_irrefl]
      rfl
    · have hnot : ¬ (!e.1.lt k && !k.lt e.1) = true := by
        rw [Bool.and_eq_true, Bool.not_eq_true', Bool.not_eq_true']
        rintro ⟨h, g⟩
        exact heq (Datum.eq_of_not_lt hk (htyped e List.mem_cons_self) g h)
      rw [Bool.eq_false_iff.mpr hnot, if_neg heq]
      exact ih

theorem mem_emplace {e : Datum × Datum} : ∀ {l : List (Datum × Datum)}, e ∈ emplace k v l →
    e = (k, v) ∨ e ∈ l := by
  intro l
  induction l with
  | nil => intro h; exact .inl (List.mem_singleton.mp h)
  | cons a l ih =>
    intro h
    rw [emplace] at h
    split at h
    · rcases List.mem_cons.mp h with rfl | h
      · exact .inr List.mem_cons_self
      · exact (ih h).imp_right (List.mem_cons_of_mem a)
    · split at h
      · exact List.mem_cons.mp h
      · exact .inr h

theorem IsMap.emplace (hk : t.IsKey k) (hl : IsMap t l) : IsMap t (emplace k v l) := by
  refine ⟨fun e he => ?_, ?_⟩
  · rcases mem_emplace he with rfl | he
    · exact hk
    · exact hl.typed e he
  obtain ⟨-, hsorted⟩ := hl
  induction l with
  | nil => exact List.pairwise_singleton _ _
  | cons e l ih =>
    obtain ⟨he, hl⟩ := List.pairwise_cons.mp hsorted
    rw [Dataunit.emplace]
    split
    · rename_i hlt
      refine List.pairwise_cons.mpr ⟨fun e' he' => ?_, ih hl⟩
      rcases mem_emplace he' with rfl | he'
      · exact hlt
      · exact he e' he'
    · split
      · rename_i hlt
        refine List.pairwise_cons.mpr ⟨fun e' he' => ?_, hsorted⟩
        rcases List.mem_cons.mp he' with rfl | he'
        · exact hlt
        · exact Datum.lt_trans hlt (he e' he')
      · exact hsorted

/-- **The value of a key stays** when it is put into the map again. -/
theorem firstValue_emplace (hl : IsMap t l) (hk : t.IsKey k) :
    firstValue k' (emplace k v l) = (firstValue k' l).or (firstValue k' [(k, v)]) := by
  obtain ⟨htyped, hsorted⟩ := hl
  induction l with
  | nil => rfl
  | cons e l ih =>
    obtain ⟨he, hl⟩ := List.pairwise_cons.mp hsorted
    have ih := ih (fun e' he' => htyped e' (List.mem_cons_of_mem e he')) hl
    rw [emplace]
    split
    · rw [firstValue_cons, firstValue_cons, ih]
      split <;> rfl
    · rename_i hek
      split
      -- the key is in front of all the others
      · rename_i hke
        have hfront : ∀ e' ∈ e :: l, k ≠ e'.1 := by
          intro e' he'
          rcases List.mem_cons.mp he' with rfl | he'
          · exact Datum.ne_of_lt hke
          · exact Datum.ne_of_lt (Datum.lt_trans hke (he e' he'))
        rw [firstValue_cons, firstValue_cons k' (k, v) []]
        by_cases heq : k' = k
        · rw [if_pos heq, if_pos heq, heq, firstValue_eq_none hfront, Option.none_or]
        · rw [if_neg heq, if_neg heq, firstValue_nil, Option.or_none]
      -- the key is that of the entry
      · rename_i hke
        have heq : e.1 = k := Datum.eq_of_not_lt (htyped e List.mem_cons_self) hk
          (Bool.not_eq_true _ ▸ hek) (Bool.not_eq_true _ ▸ hke)
        rw [firstValue_cons k' e, firstValue_cons k' (k, v) [], heq]
        by_cases heq' : k' = k
        · rw [if_pos heq', if_pos heq', Option.some_or]
        · rw [if_neg heq', if_neg heq', firstValue_nil, Option.or_none]

/-- The entries of all items, put into the map one after the other. -/
def emplaceAll (l : List (Datum × Datum)) (calls : List (Datum × Datum)) : List (Datum × Datum) :=
  calls.foldl (fun l c => emplace c.1 c.2 l) l

theorem emplaceAll_concat (l calls : List (Datum × Datum)) (c : Datum × Datum) :
    emplaceAll l (calls ++ [c]) = emplace c.1 c.2 (emplaceAll l calls) :=
  List.foldl_concat _ _ _ _

theorem IsMap.emplaceAll {calls : List (Datum × Datum)} (hc : ∀ c ∈ calls, t.IsKey c.1)
    (hl : IsMap t l) : IsMap t (emplaceAll l calls) := by
  induction calls generalizing l with
  | nil => exact hl
  | cons c calls ih =>
    exact ih (fun c' hc' => hc c' (List.mem_cons_of_mem c hc')) (hl.emplace (hc c List.mem_cons_self))

/-- **The first value of a key** is the one that a map has for it. -/
theorem firstValue_emplaceAll {calls : List (Datum × Datum)} (hc : ∀ c ∈ calls, t.IsKey c.1)
    (hl : IsMap t l) :
    firstValue k' (emplaceAll l calls) = (firstValue k' l).or (firstValue k' calls) := by
  induction calls generalizing l with
  | nil => exact (Option.or_none).symm
  | cons c calls ih =>
    have hkey := hc c List.mem_cons_self
    rw [emplaceAll, List.foldl_cons, ← emplaceAll,
      ih (fun c' hc' => hc c' (List.mem_cons_of_mem c hc')) (hl.emplace hkey),
      firstValue_emplace hl hkey, Option.or_assoc]
    congr 1
    rw [firstValue_cons, firstValue_cons]
    split <;> rfl

end

/-! ### Calls of `setValue` -/

/-- The value that the map has for a key is that of the last item with it. -/
def KeepsLast (entries items : List (Datum × Datum)) : Prop :=
  ∀ k v, lastValue k items = some v → findEntry k entries = some v

/-- The value that the map had for a key, or else that of the first item with it, is that of the
last one. -/
def FirstIsLast (before items : List (Datum × Datum)) : Prop :=
  ∀ k v, lastValue k items = some v → (firstValue k before).or (firstValue k items) = some v

theorem mem_of_lastValue {k v : Datum} {items : List (Datum × Datum)}
    (h : lastValue k items = some v) : ∃ e ∈ items, e.1 = k := by
  by_contra hc
  push Not at hc
  have hnone : lastValue k items = none :=
    firstValue_eq_none fun e he => (hc e (List.mem_reverse.mp he)).symm
  rw [hnone] at h
  cases h

/-- **What was put into a map first is what it has.** -/
theorem keepsLast_emplaceAll_iff {t : MapType} {before items : List (Datum × Datum)}
    (hb : IsMap t before) (hi : ∀ e ∈ items, t.IsKey e.1) :
    KeepsLast (emplaceAll before items) items ↔ FirstIsLast before items := by
  refine forall₂_congr fun k v => imp_congr_right fun hlast => ?_
  obtain ⟨e, he, rfl⟩ := mem_of_lastValue hlast
  rw [findEntry_eq (hb.emplaceAll hi) (hi e he), firstValue_emplaceAll hi hb]

/-- A map field. -/
structure MapField (t : MapType) where
  isSet : Bool
  entries : List (Datum × Datum)
  valid : IsMap t entries

/-- `setValue` -/
def MapField.setValue {t : MapType} (x : MapField t) (key : {k // t.IsKey k}) (val : Datum) :
    MapField t :=
  ⟨true, emplace key.1 val x.entries, x.valid.emplace key.2⟩

/-- Calls of `setValue` one after the other. -/
def MapField.setValues {t : MapType} (x : MapField t) (calls : List ({k // t.IsKey k} × Datum)) :
    MapField t :=
  calls.foldl (fun x c => x.setValue c.1 c.2) x

/-- The keys and values of the calls. -/
def callItems {t : MapType} (calls : List ({k // t.IsKey k} × Datum)) : List (Datum × Datum) :=
  calls.map fun c => (c.1.1, c.2)

theorem MapField.setValues_entries {t : MapType} (x : MapField t)
    (calls : List ({k // t.IsKey k} × Datum)) :
    (x.setValues calls).entries = emplaceAll x.entries (callItems calls) := by
  induction calls generalizing x with
  | nil => rfl
  | cons c calls ih =>
    rw [setValues, List.foldl_cons, ← setValues, ih]
    rfl

theorem isKey_of_mem_callItems {t : MapType} {calls : List ({k // t.IsKey k} × Datum)} :
    ∀ e ∈ callItems calls, t.IsKey e.1 := by
  intro e he
  obtain ⟨c, -, rfl⟩ := List.mem_map.mp he
  exact c.1.2

/-! ### Items on the wire -/

/-- `UnitSer::deserialize` of an item -/
def readMapItem (key value : MapType) (buf : List UInt8) (fuel : Nat) : Reader (Datum × Datum) :=
  readUnit (deserializeFields (mapItemParser key value buf) (fun _ => true) buf fuel
    (key.fresh, value.fresh)) (fun _ => true) buf (key.fresh, value.fresh)

/-- A unit type with a map field, whose tag has 32 bits. -/
structure UnitWithMap extends Schema where
  index : Nat
  id : Nat
  id_lt : id < 2 ^ 29
  required : Bool
  key : MapType
  value : MapType
  field_eq : fields[index]? = some (.mk id required (.map key value))

namespace UnitWithMap

variable (S : UnitWithMap) (env : Env) (buf : List UInt8) (fuel : Nat)

/-- `visitors::deserialize` of the unit. -/
def parse (size : Nat) : Reader (List FieldValue) :=
  deserializeFields (findField (fieldParsers env buf fuel S.fields)) (requiredSet S.fields) buf fuel
    (freshFields S.fields) size

/-- The parsers of the fields, of which that of the map adds to a record of its items. -/
def recordItems (n : Nat) : Option (UnitFieldParser (List FieldValue × List (Datum × Datum))) :=
  (findField (fieldParsers env buf fuel S.fields) n).map fun p =>
    if n = S.id then
      ⟨p.wireType, fun x => do
        let e ← readMapItem S.key S.value buf fuel
        let entries := (x.1.getD S.index .unset).entries
        return (x.1.set S.index (.map (emplace e.1 e.2 entries)), x.2 ++ [e])⟩
    else
      ⟨p.wireType, fun x => do
        let y ← p.fn x.1
        return (y, x.2)⟩

/-- The parse with its record. -/
def record (size : Nat) : Reader (List FieldValue × List (Datum × Datum)) :=
  deserializeFields (S.recordItems env buf fuel) (fun x => requiredSet S.fields x.1) buf fuel
    (freshFields S.fields, []) size

/-- The items of the map that the parse from `o` up to `size` meets, in their order. -/
def items (size o : Nat) : List (Datum × Datum) :=
  match (S.record env buf fuel size).outcome o with
  | .ok ((_, l), _) => l
  | .error _ => []

end UnitWithMap

theorem MapType.isKey_fresh (t : MapType) : t.IsKey t.fresh := by
  cases t <;> trivial

theorem yields_readMapDatum (buf : List UInt8) (t : MapType) :
    Yields (readMapDatum buf t) t.IsKey := by
  cases t with
  | int => exact (Yields.true _).bind fun _ _ => Yields.pure trivial
  | string => exact (Yields.true _).bind fun _ _ => Yields.pure trivial
  | other => exact Yields.fail

/-- The key of an item is one of the map. -/
theorem yields_readMapItem (key value : MapType) (buf : List UInt8) (fuel : Nat) :
    Yields (readMapItem key value buf fuel) fun e => key.IsKey e.1 := by
  refine yields_unit (fun x hx => yields_fieldRound hx fun tag p _ _ hp _ => ?_) key.isKey_fresh
    key.isKey_fresh
  unfold mapItemParser at hp
  split at hp
  · cases hp
    exact (yields_readMapDatum buf key).bind fun _ hk => Yields.pure hk
  · cases hp
    exact (Yields.true _).bind fun _ _ => Yields.pure hx

namespace UnitWithMap

variable {S : UnitWithMap} {env : Env} {buf : List UInt8} {fuel : Nat}

/-- What is found for the id of the map is the map. -/
theorem findField_map (S : UnitWithMap) (env : Env) (buf : List UInt8) (fuel : Nat)
    {p : UnitFieldParser (List FieldValue)}
    (h : findField (fieldParsers env buf fuel S.fields) S.id = some p) :
    p = ⟨.withLength, fun x => do
      let v ← (FieldKind.map S.key S.value).deserialize env buf fuel (x.getD S.index .unset)
      return x.set S.index v⟩ := by
  obtain ⟨i, f, hf, hid, rfl⟩ := findField_eq_some h
  obtain ⟨hi, hfi⟩ := List.getElem?_eq_some_iff.mp hf
  obtain ⟨hj, hfj⟩ := List.getElem?_eq_some_iff.mp S.field_eq
  have hij : i = S.index := S.uniqueIds.1.eq hi hj (by rw [hfi, hfj, hid]; rfl)
  subst hij
  rw [S.field_eq, Option.some.injEq] at hf
  subst hf
  rfl

/-- **The record stands beside the parse.** -/
theorem image_record (S : UnitWithMap) (env : Env) (buf : List UInt8) (fuel size : Nat) :
    Image Prod.fst (S.record env buf fuel size) (S.parse env buf fuel size) := by
  refine image_deserializeFields (image_fieldRound fun n => ?_) (fun _ => rfl) fuel
    (freshFields S.fields, []) size
  unfold recordItems
  cases hp : findField (fieldParsers env buf fuel S.fields) n with
  | none => exact .none
  | some p =>
    refine .some ?_
    split
    · rename_i hn
      subst hn
      rw [S.findField_map env buf fuel hp]
      refine ⟨rfl, fun x => ?_⟩
      simp only [FieldKind.deserialize]
      exact (Image.map _ _).bind fun e => .pure Prod.fst _
    · exact ⟨rfl, fun x => Image.drop (fun _ => rfl) (p.fn x.1)⟩

/-- What the map has of the items so far. -/
structure Recorded (S : UnitWithMap) (x : List FieldValue × List (Datum × Datum)) : Prop where
  length : x.1.length = S.fields.length
  entries : (x.1.getD S.index .unset).entries = emplaceAll [] x.2
  typed : ∀ e ∈ x.2, S.key.IsKey e.1

theorem Recorded.fresh (S : UnitWithMap) : Recorded S (freshFields S.fields, []) := by
  refine ⟨by simp [freshFields], ?_, nofun⟩
  rw [List.getD_eq_getElem?_getD, freshFields, List.getElem?_map, S.field_eq]
  rfl

/-- An item of the map. -/
theorem Recorded.item {x : List FieldValue × List (Datum × Datum)} (h : Recorded S x)
    {e : Datum × Datum} (he : S.key.IsKey e.1) :
    Recorded S (x.1.set S.index (.map (emplace e.1 e.2 (x.1.getD S.index .unset).entries)),
      x.2 ++ [e]) := by
  have hlt : S.index < x.1.length := by
    rw [h.length]
    exact (List.getElem?_eq_some_iff.mp S.field_eq).1
  refine ⟨by rw [List.length_set, h.length], ?_, fun e' he' => ?_⟩
  · rw [List.getD_eq_getElem?_getD, List.getElem?_set_self hlt, emplaceAll_concat, ← h.entries]
    rfl
  · rcases List.mem_append.mp he' with he' | he'
    · exact h.typed e' he'
    · rw [List.mem_singleton.mp he']
      exact he

/-- Some other field. -/
theorem Recorded.other {x : List FieldValue × List (Datum × Datum)} (h : Recorded S x) {i : Nat}
    (hi : i ≠ S.index) (v : FieldValue) : Recorded S (x.1.set i v, x.2) := by
  refine ⟨by rw [List.length_set, h.length], ?_, h.typed⟩
  rw [List.getD_eq_getElem?_getD, List.getElem?_set_ne hi, ← List.getD_eq_getElem?_getD, h.entries]

theorem yields_record (S : UnitWithMap) (env : Env) (buf : List UInt8) (fuel size : Nat) :
    Yields (S.record env buf fuel size) (Recorded S) := by
  have hround : ∀ x, Recorded S x →
      Yields (fieldRound (S.recordItems env buf fuel) buf x) (Recorded S) := by
    refine fun y hy => yields_fieldRound hy fun tag p _ _ hp _ => ?_
    obtain ⟨q, hq, rfl⟩ := Option.map_eq_some_iff.mp hp
    split
    · exact (yields_readMapItem S.key S.value buf fuel).bind fun e he => Yields.pure (hy.item he)
    · rename_i hn
      obtain ⟨i, f, hf, hid, rfl⟩ := findField_eq_some hq
      have hi : i ≠ S.index := by
        rintro rfl
        rw [S.field_eq, Option.some.injEq] at hf
        exact hn (by rw [← hid, ← hf]; rfl)
      intro o z o₁ hz
      obtain ⟨w, o₂, hw, hz⟩ := outcome_bind_inv hz
      obtain ⟨v, o₃, -, hw⟩ := outcome_bind_inv hw
      cases hw
      cases hz
      exact hy.other hi v
  exact yields_deserializeFields hround (.fresh S) size

/-- **What a parsed map has** is what its items put into it. -/
theorem parse_entries {size o o' : Nat} {x : List FieldValue}
    (h : (S.parse env buf fuel size).outcome o = .ok (x, o')) :
    (x.getD S.index .unset).entries = emplaceAll [] (S.items env buf fuel size o) ∧
      ∀ e ∈ S.items env buf fuel size o, S.key.IsKey e.1 := by
  have himage := S.image_record env buf fuel size o
  rw [h] at himage
  unfold items
  cases hr : (S.record env buf fuel size).outcome o with
  | error e => rw [hr] at himage; cases himage
  | ok r =>
    obtain ⟨⟨y, l⟩, o₁⟩ := r
    rw [hr] at himage
    cases himage
    have hrec := yields_record S env buf fuel size o _ _ hr
    exact ⟨hrec.entries, hrec.typed⟩

end UnitWithMap

/-! ### The way to the wire and back -/

theorem EachSet.imp_carried {P : Nat → FieldKind → FieldValue → Prop}
    (hP : ∀ id k v, Carried id k v → P id k v) {fs : List Field} {vs : List FieldValue}
    (hu : fieldsEachUnit UniqueIds fs) (h : EachSet Carried fs vs) : EachSet P fs vs :=
  EachSet.imp_of_mem (Q := UniqueIds) (fun _ _ f _ => hP f.id f.kind)
    (fun f _ => hP f.id f.kind) hu h

/-- What is seen of a unit is what is seen of one field when all others come back. -/
theorem fieldsSeen_of_others {env : Env} : ∀ {fs : List Field} {vs : List FieldValue}
    {l : List UInt8} {i : Nat} {f : Field} {v u : FieldValue}, fieldsEachUnit UniqueIds fs →
      fieldsHold env fs vs → encodeFields fs vs = some l →
        EachSet Carried fs (vs.set i .unset) → fs[i]? = some f → vs[i]? = some v →
          f.seen v = .ok u → fieldsSeen fs vs = .ok (vs.set i u) := by
  intro fs
  induction fs with
  | nil => intro vs l i f v u _ _ _ _ hf; cases hf
  | cons g fs ih =>
    intro vs l i f v u hu hv he hc hf hvi hs
    cases vs with
    | nil => cases hvi
    | cons w vs =>
      obtain ⟨x, hx, he⟩ := Option.bind_eq_some_iff.mp he
      obtain ⟨y, hy, -⟩ := Option.bind_eq_some_iff.mp he
      cases i with
      | zero =>
        cases hf
        cases hvi
        have hrest : fieldsSeen fs vs = .ok vs :=
          (fieldsSeen_eq_iff hv.2 (.imp_carried (fun _ _ _ h => h.1.1) hu.2 hc.2) hy).mpr
            (.imp_carried (fun _ _ _ h => h.1) hu.2 hc.2)
        rw [fieldsSeen, hs, ok_bind, hrest]
        rfl
      | succ i =>
        have hg : g.seen w = .ok w := by
          have himp : ∀ {P : Nat → FieldKind → FieldValue → Prop},
              (∀ id k v, Carried id k v → P id k v) → g.EachSet P w := fun hP =>
            Field.EachSet.imp (Q := UniqueIds) (fun _ _ f _ => hP f.id f.kind)
              (hP g.id g.kind) hu.1 hc.1
          exact (Field.seen_eq_iff hv.1 (himp fun _ _ _ h => h.1.1) hx).mpr
            (himp fun _ _ _ h => h.1)
        rw [fieldsSeen, hg, ok_bind, ih hu.2 hv.2 hy hc.2 hf hvi hs]
        rfl

/-- Of a unit that has what is required, one value is taken for another one. -/
theorem requiredSet_set : ∀ {fs : List Field} {vs : List FieldValue} {i : Nat} {f : Field}
    {v u : FieldValue}, fs[i]? = some f → i < vs.length → requiredSet fs (vs.set i v) = true →
      (requiredSet fs (vs.set i u) = true ↔ (f.required = true → u.isSet = true)) := by
  intro fs
  induction fs with
  | nil => intro vs i f v u hf; cases hf
  | cons g fs ih =>
    intro vs i f v u hf hi h
    cases vs with
    | nil => cases hi
    | cons w vs =>
      cases i with
      | zero =>
        cases hf
        rw [List.set_cons_zero, requiredSet, Bool.and_eq_true] at h
        rw [List.set_cons_zero, requiredSet, h.2, Bool.and_true]
        cases g.required <;> simp
      | succ i =>
        rw [List.set_cons_succ, requiredSet, Bool.and_eq_true] at h
        rw [List.set_cons_succ, requiredSet, h.1, Bool.true_and]
        exact ih hf (Nat.lt_of_succ_lt_succ hi) h.2

namespace UnitWithMap

/-- **A map comes back** from the bytes of its unit, unless it is required and has no items: then
nothing of it is written. -/
theorem deserialize_unit (S : UnitWithMap) {env : Env} (x : S.toSchema.Unit env)
    {es : List (Datum × Datum)} (hx : x.values[S.index]? = some (.map es))
    (hc : EachSet Carried S.fields (x.values.set S.index .unset)) (w : Serialized x) {fuel : Nat}
    (hf : w.buf.container.length < fuel) :
    (∃ y n, (deserialize env S.fields w.buf.container fuel).outcome 0 = .ok (y, n) ∧
      (y.getD S.index .unset).entries = es) ↔ (S.required = true → es ≠ []) := by
  obtain ⟨hlt, hget⟩ := List.getElem?_eq_some_iff.mp hx
  have hself : x.values.set S.index (.map es) = x.values := by
    rw [← hget, List.set_getElem_self]
  have hreadable : EachSet Readable S.fields x.values := by
    have hothers : EachSet Readable S.fields (x.values.set S.index .unset) :=
      .imp_carried (fun _ _ _ h => ⟨h.1.1.1, h.1.1.2, h.2⟩) S.uniqueIds.2 hc
    have hmap : Field.EachSet Readable (.mk S.id S.required (.map S.key S.value)) (.map es) :=
      ⟨fun _ => ⟨⟨S.id_lt, .inr fun h => by cases h⟩, List.not_mem_nil, fun _ h => by cases h⟩, trivial⟩
    have hall := hothers.set S.field_eq hmap
    rwa [List.set_set, hself] at hall
  have hrun := outcome_deserialize S.uniqueIds x.holds hreadable w.encode w.length_lt hf
  obtain ⟨u, hu, hentries, hset⟩ : ∃ u : FieldValue,
      (FieldKind.map S.key S.value).seen (.map es) = .ok u ∧ u.entries = es ∧
        (u.isSet = true ↔ es ≠ []) := by
    rw [FieldKind.seen]
    cases es with
    | nil => exact ⟨.unset, rfl, rfl, by simp [FieldValue.isSet]⟩
    | cons e es => exact ⟨.map (e :: es), rfl, rfl, by simp [FieldValue.isSet]⟩
  have hgets : ((x.values.set S.index u).getD S.index .unset).entries = es := by
    rw [List.getD_eq_getElem?_getD, List.getElem?_set_self hlt, Option.getD_some, hentries]
  have hcomplete : requiredSet S.fields (x.values.set S.index u) = true ↔
      (S.required = true → es ≠ []) := by
    rw [requiredSet_set S.field_eq hlt (hself.symm ▸ requiredSet_of_encode w.encode), ← hset]
    rfl
  have hseen : fieldsSeen S.fields x.values = .ok (x.values.set S.index u) :=
    fieldsSeen_of_others S.uniqueIds.2 x.holds w.encode hc S.field_eq hx (by rw [Field.seen, hu])
  rw [seen, hseen, ok_bind] at hrun
  rw [hrun, ← hcomplete]
  by_cases hy : requiredSet S.fields (x.values.set S.index u) = true
  · rw [if_pos hy]
    exact ⟨fun _ => hy, fun _ => ⟨_, _, rfl, hgets⟩⟩
  · rw [if_neg hy]
    refine ⟨?_, fun h => absurd h hy⟩
    rintro ⟨_, _, h, _⟩
    cases h

end UnitWithMap

/-- **A map keeps the last values of its keys** when these are the first ones, those it had before
or those of the first calls or items; and it comes back from the bytes of a unit whose other
fields do. -/
theorem mapFields_iff {t : MapType} (m : MapField t) (calls : List ({k // t.IsKey k} × Datum))
    (S : UnitWithMap) (env : Env) :
    (KeepsLast (m.setValues calls).entries (callItems calls) ↔
      FirstIsLast m.entries (callItems calls)) ∧
    (∀ (buf : List UInt8) (fuel size o o' : Nat) (x : List FieldValue),
      (S.parse env buf fuel size).outcome o = .ok (x, o') →
        (KeepsLast (x.getD S.index .unset).entries (S.items env buf fuel size o) ↔
          FirstIsLast [] (S.items env buf fuel size o))) ∧
    ∀ (x : S.toSchema.Unit env) (es : List (Datum × Datum)) (w : Serialized x) (fuel : Nat),
      x.values[S.index]? = some (.map es) →
      EachSet Carried S.fields (x.values.set S.index .unset) → w.buf.container.length < fuel →
        ((∃ y n, (deserialize env S.fields w.buf.container fuel).outcome 0 = .ok (y, n) ∧
          (y.getD S.index .unset).entries = es) ↔ (S.required = true → es ≠ [])) := by
  refine ⟨?_, fun buf fuel size o o' x h => ?_, fun x es w fuel hx hc hf =>
    S.deserialize_unit x hx hc w hf⟩
  · rw [m.setValues_entries]
    exact keepsLast_emplaceAll_iff m.valid isKey_of_mem_callItems
  · obtain ⟨hentries, htyped⟩ := UnitWithMap.parse_entries h
    rw [hentries]
    exact keepsLast_emplaceAll_iff ⟨nofun, .nil⟩ htyped

/-- A map of strings, required in its unit. -/
def nameMap : UnitWithMap where
  fields := [.mk 1 true (.map (.int true .w32) .string)]
  uniqueIds := by simp [EachUnit, fieldsEachUnit, Field.EachUnit, FieldKind.EachUnit, UniqueIds]
  index := 0
  id := 1
  id_lt := by norm_num
  required := true
  key := .int true .w32
  value := .string
  field_eq := rfl

def nameUnit : nameMap.toSchema.Unit sampleEnv where
  values := [.map [(.num 1, .bytes [97])]]
  holds := by
    refine ⟨⟨fun e he => ?_, List.pairwise_singleton _ _⟩, trivial⟩
    rw [List.mem_singleton.mp he]
    exact ⟨by norm_num [MapType.Holds, InRange, Width.bits], trivial⟩

def nameBytes : Serialized nameUnit where
  buf := ⟨[0x0A, 0x85, 0x80, 0x80, 0x80, 0, 8, 1, 0x12, 1, 97], 11⟩
  eq := by decide +kernel

/-- Two items with the same key and the same value. -/
def sameItems : List UInt8 := [0x0A, 5, 8, 1, 0x12, 1, 97, 0x0A, 5, 8, 1, 0x12, 1, 97]

/-- A key that comes again with its value, in calls and on the wire. -/
theorem mapFields_same :
    KeepsLast ((⟨false, [], ⟨List.forall_mem_nil _, .nil⟩⟩ : MapField nameMap.key).setValues
        [(⟨.num 1, trivial⟩, .bytes [97]), (⟨.num 1, trivial⟩, .bytes [97])]).entries
      [(.num 1, .bytes [97]), (.num 1, .bytes [97])] ∧
    (∃ x, (nameMap.parse sampleEnv sameItems 15 14).outcome 0 = .ok (x, 14) ∧
      KeepsLast (x.getD 0 .unset).entries [(.num 1, .bytes [97]), (.num 1, .bytes [97])]) ∧
    ∃ x n, (deserialize sampleEnv nameMap.fields nameBytes.buf.container 12).outcome 0 =
      .ok (x, n) ∧ (x.getD 0 .unset).entries = [(.num 1, .bytes [97])] := by
  have hfirst : FirstIsLast [] [(.num 1, .bytes [97]), (.num 1, .bytes [97])] :=
    fun _ _ h => h
  have hitems : nameMap.items sampleEnv sameItems 15 14 0 =
      [(.num 1, .bytes [97]), (.num 1, .bytes [97])] := by decide +kernel
  obtain ⟨x, hx⟩ := exists_of_map_snd (r := (nameMap.parse sampleEnv sameItems 15 14).outcome 0)
    (o := 14) (by decide +kernel)
  obtain ⟨hcalls, hparse, hback⟩ := mapFields_iff (⟨false, [], ⟨List.forall_mem_nil _, .nil⟩⟩ : MapField nameMap.key)
    [(⟨.num 1, trivial⟩, .bytes [97]), (⟨.num 1, trivial⟩, .bytes [97])] nameMap sampleEnv
  have hwire := hparse sameItems 15 14 0 14 x hx
  rw [hitems] at hwire
  exact ⟨hcalls.mpr hfirst, ⟨x, hx, hwire.mpr hfirst⟩,
    (hback nameUnit _ nameBytes 12 rfl ⟨⟨fun h => (by cases h), trivial⟩, trivial⟩ (by decide)).mpr
      fun _ h => by cases h⟩

/-- The second of two calls with the same key has no effect. -/
theorem setValue_again : ¬ KeepsLast
    ((⟨false, [], ⟨nofun, .nil⟩⟩ : MapField (.int true .w32)).setValues
      [(⟨.num 1, trivial⟩, .num 5), (⟨.num 1, trivial⟩, .num 7)]).entries
    [(.num 1, .num 5), (.num 1, .num 7)] := by
  intro h
  cases h (.num 1) (.num 7) rfl

end Hatn.Dataunit
