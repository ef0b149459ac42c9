import Hatn.Dataunit.ScalarCompare
import Hatn.Db.UpdateLists

/-!
# What an update changes in a unit

`UnitState.change` puts what a function makes of the field of a path there, and marks the subunits
above it as set; all other fields stay (`fieldAt_change_of_apart`).  `handleField_acts_iff` says
when an update does this, and leaves the unit as it was where an index is out of range.
-/

namespace Hatn.Db.Update

variable {S : ScalarTypes} {U : UnitTypes S}

/-! ### Fields of a unit by their paths -/

namespace UnitState

/-- The field of a path. -/
def fieldAt : UnitState S U.UnitType → FieldPath → Option (FieldState S U.UnitType)
  | _, [] => none
  | u, [item] => u.fieldById item.fieldId
  | u, item :: next :: rest => match u.descend item with
    | .into type s => fieldAt (s.mutableValue type) (next :: rest)
    | _ => none

/-- The field of the path changed, and the subunits above it marked as set. -/
def change (g : FieldState S U.UnitType → FieldState S U.UnitType) :
    UnitState S U.UnitType → FieldPath → UnitState S U.UnitType
  | u, [] => u
  | u, [item] => match u.fieldById item.fieldId with
    | none => u
    | some field => u.setField item.fieldId (g field)
  | u, item :: next :: rest => match u.descend item with
    | .into type s => u.putSubunit item (.mark (change g (s.mutableValue type) (next :: rest)))
    | _ => u

/-- Each item of the path is of a field of the unit's types, and the operator and the value are
for the last one. -/
def WellFormed (op : Operator) (value : Operand U) : UnitState S U.UnitType → FieldPath → Prop
  | _, [] => False
  | u, [item] => ∃ field, u.fieldById item.fieldId = some field ∧ field.Accepts op value
  | u, item :: next :: rest => match u.descend item with
    | .notFound => False
    | .outOfRange type => WellFormed op value (U.construct type) (next :: rest)
    | .into type s => WellFormed op value (s.mutableValue type) (next :: rest)

/-- An index in front of the last item is out of range. -/
def indexOut : UnitState S U.UnitType → FieldPath → Bool
  | u, item :: next :: rest => match u.descend item with
    | .notFound => false
    | .outOfRange _ => true
    | .into type s => indexOut (s.mutableValue type) (next :: rest)
  | _, _ => false

/-- The subunits that the path goes into are there and set. -/
def Entered : UnitState S U.UnitType → FieldPath → Prop
  | u, item :: next :: rest => match u.descend item with
    | .into type s => s.Made ∧ Entered (s.mutableValue type) (next :: rest)
    | _ => True
  | _, _ => True

/-- The second path leads to another field, neither above nor below that of the first one. -/
def Apart : UnitState S U.UnitType → FieldPath → FieldPath → Prop
  | u, a :: p, b :: q => a.fieldId ≠ b.fieldId ∨ p ≠ [] ∧ q ≠ [] ∧
    ((∃ type f, u.fieldById a.fieldId = some (.repeatedSubunit type f) ∧
        a.idx.toNat ≠ b.idx.toNat) ∨
      ∃ type s, u.descend a = .into type s ∧ Apart (s.mutableValue type) p q)
  | _, _, _ => False

variable {u : UnitState S U.UnitType} {item : FieldPathElement} {type : U.UnitType}
  {s s' : SubunitState S U.UnitType}

/-! ### One item -/

@[simp] theorem fieldById_setField {τ : Type} (u : UnitState S τ) (id id' : Int)
    (field : FieldState S τ) :
    (u.setField id field).fieldById id' = if id' = id then some field else u.fieldById id' := by
  cases u with
  | mk type fields => exact Function.update_apply fields id (some field) id'

theorem setField_eq_self {τ : Type} {u : UnitState S τ} {id : Int} {field : FieldState S τ}
    (h : u.fieldById id = some field) : u.setField id field = u := by
  cases u with
  | mk type fields =>
    show mk type (Function.update fields id (some field)) = mk type fields
    rw [← h]
    exact congrArg (mk type) (Function.update_eq_self id fields)

/-- The fields that an item leads through. -/
theorem descend_into (h : u.descend item = .into type s) :
    u.fieldById item.fieldId = some (.subunit type s) ∨
      ∃ f, u.fieldById item.fieldId = some (.repeatedSubunit type f) ∧ 0 ≤ item.idx ∧
        f.vector[item.idx.toNat]? = some s := by
  rw [descend] at h
  cases hf : u.fieldById item.fieldId with
  | none =>
    rw [hf] at h
    cases h
  | some field =>
    rw [hf] at h
    cases field with
    | subunit type s =>
      cases h
      exact .inl rfl
    | repeatedSubunit type' f =>
      rw [FieldState.descend] at h
      split at h
      · cases h
      · cases hs : f.vector[item.idx.toNat]? with
        | none =>
          simp only [hs] at h
          cases h
        | some s =>
          simp only [hs] at h
          cases h
          exact .inr ⟨f, rfl, by omega, hs⟩
    | _ => cases h

/-- The subunit that was put is found again. -/
theorem descend_putSubunit (h : u.descend item = .into type s) (s' : SubunitState S U.UnitType) :
    (u.putSubunit item s').descend item = .into type s' := by
  obtain hf | ⟨f, hf, hidx, hs⟩ := descend_into h
  · simp [putSubunit, hf, descend, FieldState.descend]
  · obtain ⟨hlt, -⟩ := List.getElem?_eq_some_iff.mp hs
    simp [putSubunit, hf, descend, FieldState.descend, hlt, hidx]

theorem putSubunit_self (h : u.descend item = .into type s) : u.putSubunit item s = u := by
  obtain hf | ⟨f, hf, -, hs⟩ := descend_into h
  · rw [putSubunit, hf]
    exact setField_eq_self hf
  · rw [putSubunit, hf]
    refine setField_eq_self ?_
    obtain ⟨hlt, rfl⟩ := List.getElem?_eq_some_iff.mp hs
    rw [hf, List.set_getElem_self]

theorem putSubunit_eq_self_iff (h : u.descend item = .into type s) :
    u.putSubunit item s' = u ↔ s' = s := by
  refine ⟨fun heq => ?_, fun heq => heq ▸ putSubunit_self h⟩
  have hput := descend_putSubunit h s'
  rw [heq, h] at hput
  cases hput
  rfl

/-- Other fields of the unit stay. -/
theorem fieldById_putSubunit {id : Int} (hid : id ≠ item.fieldId) :
    (u.putSubunit item s').fieldById id = u.fieldById id := by
  rw [putSubunit]
  split <;> simp [hid]

/-! ### The walk -/

variable {g : FieldState S U.UnitType → FieldState S U.UnitType}
  {k : FieldState S U.UnitType → Outcome (FieldState S U.UnitType)}
  {field : FieldState S U.UnitType}

/-- The field that is found is changed to what the caller makes of it. -/
theorem resolveField_of_fieldAt : ∀ {path : FieldPath} {u : UnitState S U.UnitType},
    u.fieldAt path = some field →
    u.resolveField path k = (k field).map fun x => u.change (fun _ => x) path := by
  intro path
  induction path with
  | nil => exact fun h => by cases h
  | cons item rest ih =>
    intro u h
    cases rest with
    | nil =>
      have hf : u.fieldById item.fieldId = some field := h
      simp only [resolveField, change, hf]
    | cons next rest =>
      rw [fieldAt] at h
      rw [resolveField]
      cases hd : u.descend item with
      | into type s =>
        rw [hd] at h
        simp only [ih h, Outcome.map_map, change, hd]
      | _ =>
        rw [hd] at h
        cases h

/-- An index that is out of range ends the walk. -/
theorem resolveField_of_indexOut : ∀ {path : FieldPath} {u : UnitState S U.UnitType},
    u.indexOut path = true → u.resolveField path k = some (u.change g path, none) := by
  intro path
  induction path with
  | nil => exact fun h => by cases h
  | cons item rest ih =>
    intro u h
    cases rest with
    | nil => cases h
    | cons next rest =>
      rw [indexOut] at h
      rw [resolveField, change]
      cases hd : u.descend item with
      | notFound =>
        rw [hd] at h
        cases h
      | outOfRange type => rfl
      | into type s =>
        rw [hd] at h
        simp only [ih h, Outcome.map_some]

theorem fieldAt_of_indexOut : ∀ {path : FieldPath} {u : UnitState S U.UnitType},
    u.indexOut path = true → u.fieldAt path = none := by
  intro path
  induction path with
  | nil => exact fun _ => rfl
  | cons item rest ih =>
    intro u h
    cases rest with
    | nil => cases h
    | cons next rest =>
      rw [indexOut] at h
      rw [fieldAt]
      cases hd : u.descend item with
      | into type s =>
        rw [hd] at h
        exact ih h
      | _ => rfl

/-- Where all indices are in range, a well formed path leads to a field for the operator. -/
theorem WellFormed.exists_fieldAt {op : Operator} {value : Operand U} :
    ∀ {path : FieldPath} {u : UnitState S U.UnitType}, u.WellFormed op value path →
    u.indexOut path = false → ∃ field, u.fieldAt path = some field ∧ field.Accepts op value := by
  intro path
  induction path with
  | nil => exact fun h => by cases h
  | cons item rest ih =>
    intro u h hidx
    cases rest with
    | nil => exact h
    | cons next rest =>
      rw [WellFormed] at h
      rw [indexOut] at hidx
      rw [fieldAt]
      cases hd : u.descend item with
      | notFound =>
        rw [hd] at h
        cases h
      | outOfRange type =>
        rw [hd] at hidx
        cases hidx
      | into type s =>
        rw [hd] at h hidx
        exact ih h hidx

/-! ### The change -/

theorem change_const : ∀ {path : FieldPath} {u : UnitState S U.UnitType},
    u.fieldAt path = some field → u.change (fun _ => g field) path = u.change g path := by
  intro path
  induction path with
  | nil => exact fun _ => rfl
  | cons item rest ih =>
    intro u h
    cases rest with
    | nil =>
      have hf : u.fieldById item.fieldId = some field := h
      simp only [change, hf]
    | cons next rest =>
      rw [fieldAt] at h
      rw [change, change]
      cases hd : u.descend item with
      | into type s =>
        rw [hd] at h
        simp only [ih h]
      | _ => rfl

/-- The field of the path is changed. -/
theorem fieldAt_change : ∀ {path : FieldPath} {u : UnitState S U.UnitType},
    (u.change g path).fieldAt path = (u.fieldAt path).map g := by
  intro path
  induction path with
  | nil => exact rfl
  | cons item rest ih =>
    intro u
    cases rest with
    | nil =>
      rw [change]
      cases hf : u.fieldById item.fieldId <;> simp [fieldAt, hf]
    | cons next rest =>
      rw [change]
      cases hd : u.descend item with
      | into type s =>
        simp only [fieldAt, descend_putSubunit hd, hd]
        exact ih
      | _ => simp only [fieldAt, hd, Option.map_none]

/-- Nothing is changed if and only if the subunits above are set. -/
theorem change_eq_self_iff : ∀ {path : FieldPath} {u : UnitState S U.UnitType},
    (∀ field, u.fieldAt path = some field → g field = field) →
    (u.change g path = u ↔ u.Entered path) := by
  intro path
  induction path with
  | nil => exact fun _ => iff_of_true rfl trivial
  | cons item rest ih =>
    intro u h
    cases rest with
    | nil =>
      refine iff_of_true ?_ trivial
      rw [change]
      cases hf : u.fieldById item.fieldId with
      | none => rfl
      | some field =>
        have hg := h field hf
        simp only [hg]
        exact setField_eq_self hf
    | cons next rest =>
      rw [change, Entered]
      rw [fieldAt] at h
      cases hd : u.descend item with
      | into type s =>
        rw [hd] at h
        simp only [putSubunit_eq_self_iff hd, SubunitState.mark_eq_iff type, ih h]
      | _ => exact iff_of_true rfl trivial

/-- The subunits above are marked as set. -/
theorem entered_change : ∀ {path : FieldPath} {u : UnitState S U.UnitType},
    (u.change g path).Entered path := by
  intro path
  induction path with
  | nil => exact trivial
  | cons item rest ih =>
    intro u
    cases rest with
    | nil => exact trivial
    | cons next rest =>
      rw [change]
      cases hd : u.descend item with
      | into type s =>
        simp only [Entered, descend_putSubunit hd]
        exact ⟨⟨rfl, rfl⟩, ih⟩
      | _ => simp only [Entered, hd]

/-! ### Other fields -/

theorem fieldAt_congr {u u' : UnitState S U.UnitType} {q : FieldPath}
    (h : u'.fieldById item.fieldId = u.fieldById item.fieldId) :
    u'.fieldAt (item :: q) = u.fieldAt (item :: q) := by
  cases q with
  | nil => exact h
  | cons next q => rw [fieldAt, fieldAt, descend, h, ← descend]

/-- Other elements of a repeated field stay. -/
theorem descend_putSubunit_of_ne {b : FieldPathElement}
    {f : RepeatedField (SubunitState S U.UnitType)}
    (h : u.fieldById item.fieldId = some (.repeatedSubunit type f)) (hid : b.fieldId = item.fieldId)
    (hne : item.idx.toNat ≠ b.idx.toNat) : (u.putSubunit item s').descend b = u.descend b := by
  simp [putSubunit, h, descend, FieldState.descend, hid, List.getElem?_set_ne hne]

theorem fieldById_change {path : FieldPath} {id : Int} (hid : id ≠ item.fieldId) :
    (u.change g (item :: path)).fieldById id = u.fieldById id := by
  cases path with
  | nil =>
    rw [change]
    split <;> simp [hid]
  | cons next path =>
    rw [change]
    split
    · exact fieldById_putSubunit hid
    · rfl

/-- **All other fields stay as they are.** -/
theorem fieldAt_change_of_apart : ∀ {p q : FieldPath} {u : UnitState S U.UnitType},
    u.Apart p q → (u.change g p).fieldAt q = u.fieldAt q := by
  intro p
  induction p with
  | nil => exact fun h => by cases h
  | cons a p ih =>
    intro q u h
    cases q with
    | nil => cases h
    | cons b q =>
      rw [Apart] at h
      by_cases hid : b.fieldId = a.fieldId
      · obtain ⟨hp, hq, h⟩ := h.resolve_left fun hne => hne hid.symm
        obtain ⟨next, p, rfl⟩ := List.exists_cons_of_ne_nil hp
        obtain ⟨next', q, rfl⟩ := List.exists_cons_of_ne_nil hq
        rw [change]
        cases hd : u.descend a with
        | into type s =>
          simp only [fieldAt]
          -- the paths part at this item, or behind it
          rcases h with ⟨type', f, hf, hne⟩ | ⟨type', s', hd', h⟩
          · rw [descend_putSubunit_of_ne hf hid hne]
          · rw [hd] at hd'
            cases hd'
            obtain hf | ⟨f, hf, hidx, hs⟩ := descend_into hd
            · simp only [putSubunit, hf, descend, FieldState.descend, hid, fieldById_setField,
                if_true]
              exact ih h
            · by_cases hne : a.idx.toNat = b.idx.toNat
              · by_cases hb : b.idx < 0
                · simp [putSubunit, hf, descend, FieldState.descend, hid, hb]
                · have hidx' : b.idx = a.idx := by omega
                  have hsame : ∀ w : UnitState S U.UnitType, w.descend b = w.descend a := by
                    intro w
                    rw [descend, descend, hid, hidx']
                  rw [hsame, hsame, descend_putSubunit hd, hd]
                  exact ih h
              · rw [descend_putSubunit_of_ne hf hid hne]
        | _ => rfl
      · exact fieldAt_congr (fieldById_change hid)

end UnitState

/-! ### The update -/

/-- There is an element of this index. -/
def FieldState.hasElement (idx : Nat) : FieldState S U.UnitType → Bool
  | .repeated _ f => idx < f.arraySize
  | .repeatedSubunit _ f => idx < f.arraySize
  | _ => true

namespace UpdateField

variable (f : UpdateField U) (u : UnitState S U.UnitType)

def WellFormed : Prop := u.WellFormed f.op f.value f.path

/-- An index of the path is out of range for the unit. -/
def outOfRange : Bool :=
  u.indexOut f.path || f.op.isElement && (u.fieldAt f.path).any (! ·.hasElement f.idx)

/-- What the update is for: the addressed field becomes what the operator makes of it, the subunits
above it are marked as set, and all else stays; where an index is out of range, everything does. -/
structure Acts (u' : UnitState S U.UnitType) : Prop where
  unchanged : f.outOfRange u = true → u' = u
  changed : f.outOfRange u = false → u' = u.change (FieldState.updated f.op f.idx f.value) f.path
  elsewhere : ∀ q, u.Apart f.path q → u'.fieldAt q = u.fieldAt q

/-- What the update is to make of the unit. -/
def effect : UnitState S U.UnitType :=
  if f.outOfRange u then u else u.change (FieldState.updated f.op f.idx f.value) f.path

/-- Where an index is out of range, the subunits in front of it are set; else, what is written into
the field does not show through, and what is looked at there is set. -/
def Kept : Prop :=
  if f.outOfRange u then u.Entered f.path
  else ∀ field, u.fieldAt f.path = some field → field.Kept f.op f.idx f.value

end UpdateField

variable {f : UpdateField U} {u : UnitState S U.UnitType}

/-- Where there is no element of the index, the list stays. -/
theorem RepeatedField.updated_of_le {α : Type} {A : RepeatedGetterSetter U α} {op : Operator}
    {idx : Nat} {value : Operand U} {r : RepeatedField α} (hop : op.isElement = true)
    (h : r.vector.length ≤ idx) : r.updated A op idx value = r := by
  cases op with
  | replace_element =>
    cases value with
    | one e => rw [updated, List.set_eq_of_length_le h]
    | vector l => rfl
  | erase_element => rw [updated, List.eraseIdx_of_length_le h]
  | inc_element =>
    cases value with
    | one e =>
      cases e with
      | scalar v => rw [updated, List.modify_eq_self h]
      | _ => rfl
    | vector l => rfl
  | _ => cases hop

theorem RepeatedField.kept_of_le {α : Type} {A : RepeatedGetterSetter U α} {op : Operator}
    {idx : Nat} {value : Operand U} {r : RepeatedField α} (hop : op.isElement = true)
    (h : r.vector.length ≤ idx) : r.Kept A op idx value := by
  cases op with
  | replace_element =>
    cases value with
    | one e =>
      intro x hx
      rw [List.getElem?_eq_none h] at hx
      cases hx
    | vector l => trivial
  | erase_element => trivial
  | inc_element => trivial
  | _ => cases hop

theorem FieldState.stays_of_not_hasElement {op : Operator} {idx : Nat} {value : Operand U}
    {field : FieldState S U.UnitType} (hop : op.isElement = true)
    (h : field.hasElement idx = false) :
    field.updated op idx value = field ∧ field.Kept op idx value := by
  cases field with
  | repeated type r =>
    have hle : r.vector.length ≤ idx := Nat.not_lt.mp (of_decide_eq_false h)
    exact ⟨congrArg _ (RepeatedField.updated_of_le hop hle), trivial⟩
  | repeatedSubunit type r =>
    have hle : r.vector.length ≤ idx := Nat.not_lt.mp (of_decide_eq_false h)
    exact ⟨congrArg _ (RepeatedField.updated_of_le hop hle), RepeatedField.kept_of_le hop hle⟩
  | _ => cases h

namespace UpdateField

theorem acts_effect : f.Acts u (f.effect u) where
  unchanged h := if_pos h
  changed h := if_neg (by simp [h])
  elsewhere q hq := by
    rw [effect]
    split
    · rfl
    · exact UnitState.fieldAt_change_of_apart hq

theorem Acts.eq_effect {u' : UnitState S U.UnitType} (h : f.Acts u u') : u' = f.effect u := by
  rw [effect]
  split
  next hout => exact h.unchanged hout
  next hin => exact h.changed (Bool.eq_false_iff.mpr hin)

end UpdateField

theorem handleField_eq_iff (hw : f.WellFormed u) :
    HandleField u f = some (f.effect u, none) ↔ f.Kept u := by
  rw [HandleField, UpdateField.effect, UpdateField.Kept]
  by_cases hidx : u.indexOut f.path = true
  · -- the walk ends at an index
    have hout : f.outOfRange u = true := by rw [UpdateField.outOfRange, hidx, Bool.true_or]
    rw [UnitState.resolveField_of_indexOut (g := id) hidx, if_pos hout, if_pos hout,
      ← UnitState.change_eq_self_iff (g := id) fun _ _ => rfl]
    simp only [Option.some.injEq, Prod.mk.injEq, and_true]
  · rw [Bool.not_eq_true] at hidx
    obtain ⟨field, hfield, hacc⟩ := hw.exists_fieldAt hidx
    have hhandle : field.handle f.op f.idx f.value =
        some (field.updated f.op f.idx f.value, none) ↔ field.Kept f.op f.idx f.value :=
      FieldState.handle_eq_iff hacc
    rw [UnitState.resolveField_of_fieldAt hfield]
    cases hout : f.outOfRange u with
    | true =>
      -- the operator does nothing at its index
      have hop : f.op.isElement = true ∧ field.hasElement f.idx = false := by
        simpa [UpdateField.outOfRange, hidx, hfield] using hout
      obtain ⟨hsame, hkept⟩ : field.updated f.op f.idx f.value = field ∧
          field.Kept f.op f.idx f.value := FieldState.stays_of_not_hasElement hop.1 hop.2
      have hconst : ∀ x, u.fieldAt f.path = some x → field = x := fun x hx =>
        Option.some.inj (hfield.symm.trans hx)
      rw [hhandle.mpr hkept, hsame, if_pos rfl, if_pos rfl, Outcome.map_some,
        ← UnitState.change_eq_self_iff (g := fun _ => field) hconst]
      simp only [Option.some.injEq, Prod.mk.injEq, and_true]
    | false =>
      rw [if_neg Bool.false_ne_true, if_neg Bool.false_ne_true, hfield]
      simp only [Option.some.injEq, forall_eq']
      rw [← hhandle, Outcome.map_eq_some_iff]
      constructor
      · rintro ⟨x, hx, heq⟩
        -- the field that is found in the unit is the one that was put there
        have hread := congrArg (·.fieldAt f.path) heq
        simp only [UnitState.fieldAt_change, hfield, Option.map_some, Option.some.injEq] at hread
        rw [hx, hread]
      · exact fun h => ⟨_, h, UnitState.change_const hfield⟩

/-- The integer types, with zero as default value. -/
def integers : ScalarTypes where
  FieldType := Dataunit.IntType
  Value := Dataunit.IntValue
  Operand := Dataunit.IntValue
  defaultValue t := ⟨t, _, Dataunit.IntValue.castTo_inRange t.signed t.width 0⟩
  isConvertible _ _ := true
  cast t v := ⟨t, _, Dataunit.IntValue.castTo_inRange t.signed t.width v.value⟩
  isArithmetic _ := true
  add t x v := ⟨t, _, Dataunit.IntValue.castTo_inRange t.signed t.width (x.value + v.value)⟩
  equal _ := Dataunit.IntValue.equal

inductive SampleType
  | repsub
  | repsub_item
  deriving DecidableEq

def int32 : Dataunit.IntType := ⟨true, .w32⟩

/-- A unit with items and a subunit, both with numbers.  No value of a sample is a subunit. -/
def sampleTypes : UnitTypes integers where
  UnitType := SampleType
  construct
    | .repsub => .mk .repsub fun id =>
      if id = 3 then some (.repeatedSubunit .repsub_item ⟨false, []⟩)
      else if id = 4 then some (.subunit .repsub_item ⟨false, none⟩)
      else none
    | .repsub_item => .mk .repsub_item fun id =>
      if id = 5 then some (.repeated int32 ⟨false, []⟩) else none
  serialize _ := none
  deserialize u _ := (u, false)

def newUnit : UnitState integers SampleType := sampleTypes.construct .repsub

def number : Dataunit.IntValue := ⟨int32, -500, by decide⟩

/-- A number for the list of the subunit. -/
def pushNumber : UpdateField sampleTypes where
  path := [⟨4, "sub", -1⟩, ⟨5, "nums", -1⟩]
  op := .push
  value := .one (.scalar number)
  path_ne := by decide
  updatable := by decide
  indexed := by decide

/-- A number in place of the one of index 1 of the list of the subunit. -/
def replaceNumber : UpdateField sampleTypes where
  path := [⟨4, "sub", -1⟩, ⟨5, "nums", 1⟩]
  op := .replace_element
  value := .one (.scalar number)
  path_ne := by decide
  updatable := by decide
  indexed := by decide

/-- The subunit of the path is set. -/
def subunitIsSet (u : UnitState S U.UnitType) (path : FieldPath) : Bool :=
  match u.fieldAt path with
  | some (.subunit _ s) => s.isSet
  | _ => false

/-! ### Requests -/

/-- Each field of the request is well formed and kept where the ones before have been applied. -/
def KeptRequest : UnitState S U.UnitType → List (UpdateField U) → Prop
  | _, [] => True
  | u, f :: fs => f.WellFormed u ∧ f.Kept u ∧ KeptRequest (f.effect u) fs

/-- A request is its updates one after the other. -/
theorem applyRequest_eq : ∀ {fs : List (UpdateField U)} {u : UnitState S U.UnitType},
    KeptRequest u fs → ApplyRequest u fs = some (fs.foldl (fun u f => f.effect u) u, none) := by
  intro fs
  induction fs with
  | nil => exact fun _ => rfl
  | cons f fs ih =>
    rintro u ⟨hw, hk, hrest⟩
    rw [ApplyRequest, (handleField_eq_iff hw).mpr hk]
    exact ih hrest

end Hatn.Db.Update
