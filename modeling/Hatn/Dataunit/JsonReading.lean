import Hatn.Dataunit.JsonHandlers

/-!
# Reading a unit from a JSON value

`readMembers` reads the members of an object into the fields of a unit by recursion on the
value.  The handlers do the same with the events of the value, and they accept no other
text: for a member that they do not know they leave one handler too few, and never make up
for it.

* `run_members`, `run_value`, `run_elements`: a value that can be read is read by the handlers.
* `run_shrinks`: behind an object or an array there is at least one handler less.
* `members_of_run`, `value_of_run`, `elements_of_run`: with no handler missing in the end, the
  value can be read.
* `load_whole_eq_ok`: `loadFromJSON` accepts a text if and only if its value can be read.
-/

namespace Hatn.Dataunit.Json

open Hatn.Json

/-! ### Reading by recursion -/

mutual

/-- What the value of a member does to the field of its name. -/
def FieldKind.readValue : FieldKind → Value → Option (FieldObject → FieldObject)
  | .plain t _, .scalar a => (t.read a).map FieldObject.setValue
  | .subunit _, .scalar .null => some id
  | .subunit fs, .object ms =>
    (readMembers fs ms).map fun g x => (x.mutableValue (construct fs)).modifyValue g
  | .array t, .array l => readElements (.array t) l
  | .units fs, .array l => readElements (.units fs) l
  | _, _ => none

/-- What an element does to a repeated field. -/
def FieldKind.readElement : FieldKind → Value → Option (FieldObject → FieldObject)
  | .array t, .scalar a => (t.read a).map fun g x => x.appendValue (g t.zero)
  | .units fs, .scalar .null => some fun x => x.createAndAppendValue (construct fs)
  | .units fs, .object ms =>
    (readMembers fs ms).map fun g x =>
      ((x.createAndAppendValue (construct fs)).mutableLast).modifyLast g
  | _, _ => none

def readElements (kind : FieldKind) : List Value → Option (FieldObject → FieldObject)
  | [] => some id
  | v :: l =>
    match kind.readElement v, readElements kind l with
    | some g, some h => some (h ∘ g)
    | _, _ => none

/-- What the members of an object do to the fields of a unit. -/
def readMembers (fs : List Field) : List (Name × Value) → Option (UnitObject → UnitObject)
  | [] => some id
  | (k, v) :: ms =>
    match fieldByName fs k with
    | some (i, f) =>
      match f.kind.readValue v, readMembers fs ms with
      | some g, some h => some fun u => h (u.modify i g)
      | _, _ => none
    | none => none

end

theorem readElements_cons_isSome {kind : FieldKind} {v : Value} {l : List Value} :
    (readElements kind (v :: l)).isSome = true ↔
      (kind.readElement v).isSome = true ∧ (readElements kind l).isSome = true := by
  rw [readElements]
  cases kind.readElement v <;> cases readElements kind l <;> simp

theorem readMembers_cons_isSome {fs : List Field} {k : Name} {v : Value} {i : Nat} {f : Field}
    {ms : List (Name × Value)} (hf : fieldByName fs k = some (i, f)) :
    (readMembers fs ((k, v) :: ms)).isSome = true ↔
      (f.kind.readValue v).isSome = true ∧ (readMembers fs ms).isSome = true := by
  rw [readMembers, hf]
  simp only
  cases f.kind.readValue v <;> cases readMembers fs ms <;> simp

/-- An object with one member. -/
theorem readMembers_singleton {fs : List Field} {k : Name} {v : Value} {i : Nat} {f : Field}
    {g : FieldObject → FieldObject} (hf : fieldByName fs k = some (i, f))
    (hg : f.kind.readValue v = some g) :
    readMembers fs [(k, v)] = some fun u => u.modify i g := by
  rw [readMembers, hf]
  simp only [hg]
  rfl

/-! ### Changes at the end of a way -/

theorem FieldObject.modifyValue_id (x : FieldObject) : x.modifyValue id = x := by
  cases x <;> simp [modifyValue]

theorem FieldObject.modifyLast_id (x : FieldObject) : x.modifyLast id = x := by
  cases x with
  | units isSet l =>
    rw [modifyLast]
    rcases List.eq_nil_or_concat l with rfl | ⟨l', e, rfl⟩
    · rfl
    · rw [List.concat_eq_append, List.modifyLast_concat]
      rfl
  | _ => rfl

theorem FieldObject.modifyLast_modifyLast (g h : UnitObject → UnitObject) (x : FieldObject) :
    (x.modifyLast h).modifyLast g = x.modifyLast (g ∘ h) := by
  cases x with
  | units isSet l =>
    rcases List.eq_nil_or_concat l with rfl | ⟨l', e, rfl⟩
    · rfl
    · simp only [modifyLast, List.concat_eq_append, List.modifyLast_concat]
      rfl
  | _ => rfl

theorem FieldObject.modifyValue_modifyValue (g h : UnitObject → UnitObject) (x : FieldObject) :
    (x.modifyValue h).modifyValue g = x.modifyValue (g ∘ h) := by
  cases x <;> simp [modifyValue]

theorem Place.modify_id (place : Place) (u : UnitObject) : place.modify id u = u := by
  cases place with
  | subunit i =>
    simp only [modify, FieldObject.modifyValue_id]
    exact List.modify_id _ _
  | element i =>
    simp only [modify, FieldObject.modifyLast_id]
    exact List.modify_id _ _

theorem Place.modify_modify (g h : UnitObject → UnitObject) (place : Place) (u : UnitObject) :
    place.modify g (place.modify h u) = place.modify (g ∘ h) u := by
  cases place with
  | subunit i =>
    simp only [modify, List.modify_modify_eq, ← FieldObject.modifyValue_modifyValue]
    rfl
  | element i =>
    simp only [modify, List.modify_modify_eq, ← FieldObject.modifyLast_modifyLast]
    rfl

theorem modifyAt_id : ∀ (path : List Place) (u : UnitObject), modifyAt path id u = u := by
  intro path
  induction path with
  | nil => intro u; rfl
  | cons place path ih =>
    intro u
    have e : modifyAt path id = id := funext ih
    rw [modifyAt, e, place.modify_id]

theorem modifyAt_modifyAt (g h : UnitObject → UnitObject) : ∀ (path : List Place) (u : UnitObject),
    modifyAt path g (modifyAt path h u) = modifyAt path (g ∘ h) u := by
  intro path
  induction path with
  | nil => intro u; rfl
  | cons place path ih =>
    intro u
    rw [modifyAt, modifyAt, modifyAt, place.modify_modify]
    have e : modifyAt path g ∘ modifyAt path h = modifyAt path (g ∘ h) := funext ih
    rw [e]

theorem modifyAt_append (g : UnitObject → UnitObject) (path path' : List Place) :
    modifyAt (path ++ path') g = modifyAt path (modifyAt path' g) := by
  induction path with
  | nil => rfl
  | cons place path ih => rw [List.cons_append, modifyAt, modifyAt, ih]

namespace State

theorem modifyField_mk (path : List Place) (i : Nat) (g : FieldObject → FieldObject)
    (u : UnitObject) (hs : List Handler) :
    State.modifyField path i g ⟨u, hs⟩ = ⟨modifyAt path (fun u => u.modify i g) u, hs⟩ := rfl

theorem modifyField_id (path : List Place) (i : Nat) (s : State) :
    s.modifyField path i id = s := by
  have e : (fun u : UnitObject => u.modify i id) = id := funext fun u => List.modify_id _ _
  rw [modifyField, e, modifyAt_id]

/-- Two changes of a field are one. -/
theorem modifyField_modifyField (path : List Place) (i : Nat) (g h : FieldObject → FieldObject)
    (s : State) :
    (s.modifyField path i h).modifyField path i g = s.modifyField path i (g ∘ h) := by
  simp only [modifyField, modifyAt_modifyAt]
  congr 2
  funext u
  exact List.modify_modify_eq _ _ _ _

end State

/-! ### Single events -/

section
variable {path : List Place} {fs : List Field} {s o : Int} {h : o ≤ 1} {i : Nat}
  {kind : FieldKind} {u : UnitObject} {hs : List Handler}

/-- The handler that a reader of a unit pushes again is not inside a skipped value. -/
theorem not_skipping (s : Int) (h : o ≤ 1) : ¬ s + o - s > 1 := by omega

theorem step_endObject_unit :
    step .endObject ⟨u, .unit path fs s o h :: hs⟩ = .running ⟨u, hs⟩ := rfl

theorem step_startObject_unit : step .startObject ⟨u, .unit path fs s o h :: hs⟩ =
    .running ⟨u, .unit path fs (s + o) 0 (by decide) :: hs⟩ := rfl

theorem step_key_of_some {k : Name} {f : Field} (hf : fieldByName fs k = some (i, f)) :
    step (.key k) ⟨u, .unit path fs s o h :: hs⟩ =
      .running (f.kind.pushHandler path i ⟨u, .unit path fs (s + o) 0 (by decide) :: hs⟩) := by
  simp only [step, Handler.handle, UnitReader.handle, if_neg (not_skipping s h), hf]
  rfl

theorem step_key_of_none {k : Name} (hf : fieldByName fs k = none) :
    step (.key k) ⟨u, .unit path fs s o h :: hs⟩ =
      .running ⟨u, .unit path fs (s + o) 0 (by decide) :: hs⟩ := by
  simp only [step, Handler.handle, UnitReader.handle, if_neg (not_skipping s h), hf]
  rfl

/-- A reader of a unit takes neither scalars nor arrays. -/
theorem step_unit_refuses {e : Event} (he : e = .startArray ∨ e = .endArray ∨ ∃ a, e = .scalar a)
    {t : State} : step e ⟨u, .unit path fs s o h :: hs⟩ ≠ .running t := by
  rcases he with rfl | rfl | ⟨a, rfl⟩ <;>
    simp only [step, Handler.handle, UnitReader.handle, decide_eq_false (not_skipping s h),
      ne_eq, reduceCtorEq, not_false_eq_true]

/-- A reader of a field takes neither names nor ends of objects. -/
theorem step_field_refuses {e : Event} (he : e = .endObject ∨ ∃ k, e = .key k) {t : State} :
    step e ⟨u, .field path i kind s :: hs⟩ ≠ .running t := by
  rcases he with rfl | ⟨k, rfl⟩ <;> cases kind <;>
    simp [step, Handler.handle, FieldReader.handle]

theorem step_nil {e : Event} {t : State} : step e ⟨u, []⟩ ≠ .running t := nofun

end

/-! ### What can be read is read by the handlers -/

/-- The kinds whose values are arrays. -/
def FieldKind.isRepeated : FieldKind → Bool
  | array _ => true
  | units _ => true
  | _ => false

theorem step_endArray {kind : FieldKind} (hk : kind.isRepeated = true) (path : List Place) (i : Nat)
    (s : Int) (u : UnitObject) (hs : List Handler) :
    step .endArray ⟨u, .field path i kind s :: hs⟩ = .running ⟨u, hs⟩ := by
  cases kind <;> first | rfl | exact absurd hk Bool.false_ne_true

theorem FieldKind.pushHandler_of_ne_map {kind : FieldKind} (h : kind ≠ .map) (path : List Place)
    (i : Nat) (s : State) : kind.pushHandler path i s = s.push (.field path i kind 0) := by
  cases kind with
  | map => exact absurd rfl h
  | _ => rfl

theorem FieldKind.ne_map_of_readValue {kind : FieldKind} {v : Value}
    {g : FieldObject → FieldObject} (hg : kind.readValue v = some g) : kind ≠ .map := by
  rintro rfl
  simp [readValue] at hg

mutual

/-- **The handler of a field reads the value.** -/
theorem run_value : ∀ (v : Value) {kind : FieldKind} {g : FieldObject → FieldObject},
    kind.readValue v = some g → ∀ (path : List Place) (i : Nat) (s : Int) (u : UnitObject)
      (hs : List Handler),
      run v.events ⟨u, .field path i kind s :: hs⟩ =
        .running (State.modifyField path i g ⟨u, hs⟩)
  | .scalar a, kind, g, hg, path, i, s, u, hs => by
    cases kind with
    | plain t d =>
      rw [FieldKind.readValue, Option.map_eq_some_iff] at hg
      obtain ⟨r, hr, rfl⟩ := hg
      simp only [Value.events, run_singleton, step, Handler.handle, FieldReader.handle, hr]
    | subunit fs =>
      cases a with
      | null =>
        rw [FieldKind.readValue, Option.some.injEq] at hg
        subst hg
        rw [State.modifyField_id]
        rfl
      | _ => simp [FieldKind.readValue] at hg
    | _ => simp [FieldKind.readValue] at hg
  | .object ms, kind, g, hg, path, i, s, u, hs => by
    cases kind with
    | subunit fs =>
      rw [FieldKind.readValue, Option.map_eq_some_iff] at hg
      obtain ⟨r, hr, rfl⟩ := hg
      rw [Value.events, run]
      show run _ ⟨_, _ :: hs⟩ = _
      rw [run_members ms hr, modifyAt_append]
      exact congrArg Outcome.running (State.modifyField_modifyField path i _ _ ⟨u, hs⟩)
    | _ => simp [FieldKind.readValue] at hg
  | .array l, kind, g, hg, path, i, s, u, hs => by
    cases kind with
    | array t =>
      rw [FieldKind.readValue] at hg
      exact run_elements l rfl hg path i s u hs
    | units fs =>
      rw [FieldKind.readValue] at hg
      exact run_elements l rfl hg path i s u hs
    | _ => simp [FieldKind.readValue] at hg

/-- **The handler of a repeated field reads the element and stays.** -/
theorem run_element : ∀ (v : Value) {kind : FieldKind} {g : FieldObject → FieldObject},
    kind.readElement v = some g → ∀ (path : List Place) (i : Nat) (s : Int) (u : UnitObject)
      (hs : List Handler),
      run v.events ⟨u, .field path i kind s :: hs⟩ =
        .running (State.modifyField path i g ⟨u, .field path i kind s :: hs⟩)
  | .scalar a, kind, g, hg, path, i, s, u, hs => by
    cases kind with
    | array t =>
      rw [FieldKind.readElement, Option.map_eq_some_iff] at hg
      obtain ⟨r, hr, rfl⟩ := hg
      simp only [Value.events, run_singleton, step, Handler.handle, FieldReader.handle, hr]
      rfl
    | units fs =>
      cases a with
      | null =>
        rw [FieldKind.readElement, Option.some.injEq] at hg
        subst hg
        rfl
      | _ => simp [FieldKind.readElement] at hg
    | _ => simp [FieldKind.readElement] at hg
  | .object ms, kind, g, hg, path, i, s, u, hs => by
    cases kind with
    | units fs =>
      rw [FieldKind.readElement, Option.map_eq_some_iff] at hg
      obtain ⟨r, hr, rfl⟩ := hg
      rw [Value.events, run]
      show run _ ⟨_, _ :: _ :: hs⟩ = _
      rw [run_members ms hr, modifyAt_append]
      let appended := State.modifyField path i (·.createAndAppendValue (construct fs))
        ⟨u, .field path i (.units fs) s :: hs⟩
      have e : (appended.modifyField path i (·.mutableLast)).modifyField path i (·.modifyLast r) =
          appended.modifyField path i ((·.modifyLast r) ∘ (·.mutableLast)) :=
        State.modifyField_modifyField path i _ _ appended
      exact congrArg Outcome.running (e.trans (State.modifyField_modifyField path i _ _ _))
    | _ => simp [FieldKind.readElement] at hg
  | .array l, kind, g, hg, path, i, s, u, hs => by
    cases kind <;> simp [FieldKind.readElement] at hg

/-- The handler of a repeated field reads the elements up to the end of the array. -/
theorem run_elements : ∀ (l : List Value) {kind : FieldKind} {g : FieldObject → FieldObject},
    kind.isRepeated = true → readElements kind l = some g → ∀ (path : List Place) (i : Nat)
      (s : Int) (u : UnitObject) (hs : List Handler),
      run (elementEvents l ++ [.endArray]) ⟨u, .field path i kind s :: hs⟩ =
        .running (State.modifyField path i g ⟨u, hs⟩)
  | [], kind, g, hk, hg, path, i, s, u, hs => by
    rw [readElements, Option.some.injEq] at hg
    subst hg
    rw [elementEvents, List.nil_append, run_singleton, step_endArray hk, State.modifyField_id]
  | v :: l, kind, g, hk, hg, path, i, s, u, hs => by
    rw [readElements] at hg
    split at hg
    next r r' hr hr' =>
      injection hg with hg
      subst hg
      rw [elementEvents, List.append_assoc, run_append, run_element v hr]
      show run _ ⟨_, .field path i kind s :: hs⟩ = _
      rw [run_elements l hk hr']
      exact congrArg Outcome.running (State.modifyField_modifyField path i _ _ ⟨u, hs⟩)
    next => cases hg

/-- **The handler of a unit reads the members up to the end of the object.** -/
theorem run_members : ∀ (ms : List (Name × Value)) {fs : List Field} {g : UnitObject → UnitObject},
    readMembers fs ms = some g → ∀ {path : List Place} {s o : Int} {h : o ≤ 1} {u : UnitObject}
      {hs : List Handler},
      run (memberEvents ms ++ [.endObject]) ⟨u, .unit path fs s o h :: hs⟩ =
        .running ⟨modifyAt path g u, hs⟩
  | [], fs, g, hg, path, s, o, h, u, hs => by
    rw [readMembers, Option.some.injEq] at hg
    subst hg
    rw [modifyAt_id]
    rfl
  | (k, v) :: ms, fs, g, hg, path, s, o, h, u, hs => by
    rw [readMembers] at hg
    split at hg
    next i f hf =>
      split at hg
      next r r' hr hr' =>
        injection hg with hg
        subst hg
        rw [memberEvents, List.cons_append, run, step_key_of_some hf,
          FieldKind.pushHandler_of_ne_map (FieldKind.ne_map_of_readValue hr), Outcome.andThen,
          List.append_assoc, run_append, State.push, run_value v hr, Outcome.andThen,
          State.modifyField_mk, run_members ms hr',
          modifyAt_modifyAt]
        rfl
      next => cases hg
    next => cases hg

end

/-! ### What the handlers leave of the list -/

/-- The handler is a reader of a unit. -/
def Handler.isUnit : Handler → Bool
  | unit _ _ _ _ _ => true
  | field _ _ _ _ => false

section
variable {s t : State}

theorem step_endObject_inv (h : step .endObject s = .running t) :
    ∃ x hs, s.handlers = x :: hs ∧ x.isUnit = true ∧ t.handlers = hs := by
  obtain ⟨u, hs⟩ := s
  cases hs with
  | nil => exact absurd h step_nil
  | cons x hs =>
    cases x with
    | unit path fs sc o ho =>
      rw [step_endObject_unit, Outcome.running.injEq] at h
      exact ⟨_, hs, rfl, rfl, h ▸ rfl⟩
    | field path i kind sc => exact absurd h (step_field_refuses (.inl rfl))

theorem step_key_inv {k : Name} (h : step (.key k) s = .running t) :
    ∃ x y hs, s.handlers = x :: hs ∧ x.isUnit = true ∧ y.isUnit = true ∧
      (t.handlers = y :: hs ∨ ∃ z, z.isUnit = false ∧ t.handlers = z :: y :: hs) := by
  obtain ⟨u, hs⟩ := s
  cases hs with
  | nil => exact absurd h step_nil
  | cons x hs =>
    cases x with
    | unit path fs sc o ho =>
      refine ⟨_, .unit path fs (sc + o) 0 (by decide), hs, rfl, rfl, rfl, ?_⟩
      cases hf : fieldByName fs k with
      | none =>
        rw [step_key_of_none hf, Outcome.running.injEq] at h
        exact .inl (h ▸ rfl)
      | some p =>
        rw [step_key_of_some hf, Outcome.running.injEq] at h
        subst h
        cases hk : p.2.kind with
        | map => exact .inl rfl
        | _ => exact .inr ⟨_, rfl, rfl⟩
    | field path i kind sc => exact absurd h (step_field_refuses (.inr ⟨k, rfl⟩))

theorem step_scalar_repeated {path : List Place} {i : Nat} {kind : FieldKind} {sc : Int}
    {u : UnitObject} {hs : List Handler} {a : Scalar} (hk : kind.isRepeated = true)
    (h : step (.scalar a) ⟨u, .field path i kind sc :: hs⟩ = .running t) :
    t.handlers = .field path i kind sc :: hs := by
  cases kind with
  | array ty =>
    simp only [step, Handler.handle, FieldReader.handle] at h
    cases hr : ty.read a with
    | none => simp [hr] at h
    | some g =>
      simp only [hr, Outcome.running.injEq] at h
      exact h ▸ rfl
  | units fs =>
    cases a with
    | null =>
      injection h with h
      exact h ▸ rfl
    | _ => nomatch h
  | _ => cases hk

theorem step_scalar_single {path : List Place} {i : Nat} {kind : FieldKind} {sc : Int}
    {u : UnitObject} {hs : List Handler} {a : Scalar} (hk : kind.isRepeated = false)
    (h : step (.scalar a) ⟨u, .field path i kind sc :: hs⟩ = .running t) : t.handlers = hs := by
  cases kind with
  | plain ty d =>
    simp only [step, Handler.handle, FieldReader.handle] at h
    cases hr : ty.read a with
    | none => simp [hr] at h
    | some g =>
      simp only [hr, Outcome.running.injEq] at h
      exact h ▸ rfl
  | subunit fs =>
    cases a with
    | null =>
      injection h with h
      exact h ▸ rfl
    | _ => nomatch h
  | map => nomatch h
  | _ => cases hk

theorem step_scalar_inv {a : Scalar} (h : step (.scalar a) s = .running t) :
    ∃ x hs, s.handlers = x :: hs ∧ x.isUnit = false ∧ (t.handlers = hs ∨ t.handlers = x :: hs) := by
  obtain ⟨u, hs⟩ := s
  cases hs with
  | nil => exact absurd h step_nil
  | cons x hs =>
    cases x with
    | unit path fs sc o ho => exact absurd h (step_unit_refuses (.inr (.inr ⟨a, rfl⟩)))
    | field path i kind sc =>
      refine ⟨_, hs, rfl, rfl, ?_⟩
      cases hk : kind.isRepeated with
      | true => exact .inr (step_scalar_repeated hk h)
      | false => exact .inl (step_scalar_single hk h)

theorem step_startObject_inv (h : step .startObject s = .running t) :
    ∃ x y hs, s.handlers = x :: hs ∧ y.isUnit = true ∧
      (t.handlers = y :: hs ∨ x.isUnit = false ∧ t.handlers = y :: x :: hs) := by
  obtain ⟨u, hs⟩ := s
  cases hs with
  | nil => exact absurd h step_nil
  | cons x hs =>
    cases x with
    | unit path fs sc o ho =>
      rw [step_startObject_unit, Outcome.running.injEq] at h
      subst h
      exact ⟨_, .unit path fs (sc + o) 0 (by decide), hs, rfl, rfl, .inl rfl⟩
    | field path i kind sc =>
      cases kind with
      | subunit fs =>
        injection h with h
        subst h
        exact ⟨_, .unit (path ++ [.subunit i]) fs sc 1 (by decide), hs, rfl, rfl, .inl rfl⟩
      | units fs =>
        injection h with h
        subst h
        exact ⟨_, .unit (path ++ [.element i]) fs sc 1 (by decide), hs, rfl, rfl, .inr ⟨rfl, rfl⟩⟩
      | _ => nomatch h

theorem step_startArray_inv (h : step .startArray s = .running t) :
    ∃ x hs, s.handlers = x :: hs ∧ x.isUnit = false ∧ t.handlers = x :: hs := by
  obtain ⟨u, hs⟩ := s
  cases hs with
  | nil => exact absurd h step_nil
  | cons x hs =>
    cases x with
    | unit path fs sc o ho => exact absurd h (step_unit_refuses (.inl rfl))
    | field path i kind sc =>
      cases kind with
      | array t =>
        injection h with h
        exact ⟨_, hs, rfl, rfl, h ▸ rfl⟩
      | units fs =>
        injection h with h
        exact ⟨_, hs, rfl, rfl, h ▸ rfl⟩
      | _ => nomatch h

theorem step_endArray_inv (h : step .endArray s = .running t) :
    ∃ x hs, s.handlers = x :: hs ∧ t.handlers = hs := by
  obtain ⟨u, hs⟩ := s
  cases hs with
  | nil => exact absurd h step_nil
  | cons x hs =>
    cases x with
    | unit path fs sc o ho => exact absurd h (step_unit_refuses (.inr (.inl rfl)))
    | field path i kind sc =>
      refine ⟨_, hs, rfl, ?_⟩
      cases kind with
      | array t =>
        injection h with h
        exact h ▸ rfl
      | units fs =>
        injection h with h
        exact h ▸ rfl
      | _ => nomatch h

end

mutual

/-- Behind a value the handlers below the one that began it are left, or some of them, and
the first one may still be there if it is of a field. -/
theorem run_value_shrinks : ∀ (v : Value) {s s' : State}, run v.events s = .running s' →
    ∃ x hs, s.handlers = x :: hs ∧
      (s'.handlers <:+ hs ∨ x.isUnit = false ∧ s'.handlers = x :: hs)
  | .scalar a, s, s', h => by
    rw [Value.events, run_singleton] at h
    obtain ⟨x, hs, hx, hu, h' | h'⟩ := step_scalar_inv h
    · exact ⟨x, hs, hx, .inl (h' ▸ List.suffix_rfl)⟩
    · exact ⟨x, hs, hx, .inr ⟨hu, h'⟩⟩
  | .array l, s, s', h => by
    rw [Value.events, run_cons_eq_running] at h
    obtain ⟨t, ht, h⟩ := h
    obtain ⟨x, hs, hx, hu, ht⟩ := step_startArray_inv ht
    obtain ⟨y, hs', hy, h'⟩ := run_elements_shrinks l h
    rw [ht] at hy
    injection hy with _ hy
    subst hy
    exact ⟨x, hs, hx, .inl h'⟩
  | .object ms, s, s', h => by
    rw [Value.events, run_cons_eq_running] at h
    obtain ⟨t, ht, h⟩ := h
    obtain ⟨x, y, hs, hx, hu, ht⟩ := step_startObject_inv ht
    obtain ⟨y', hs', hy, -, h'⟩ := run_members_shrinks ms h
    refine ⟨x, hs, hx, ?_⟩
    rcases ht with ht | ⟨hf, ht⟩ <;> rw [ht] at hy <;> injection hy with _ hy <;> subst hy
    · exact .inl h'
    · rcases List.suffix_cons_iff.mp h' with h' | h'
      · exact .inr ⟨hf, h'⟩
      · exact .inl h'

theorem run_elements_shrinks : ∀ (l : List Value) {s s' : State},
    run (elementEvents l ++ [.endArray]) s = .running s' →
    ∃ x hs, s.handlers = x :: hs ∧ s'.handlers <:+ hs
  | [], s, s', h => by
    rw [elementEvents, List.nil_append, run_singleton] at h
    obtain ⟨x, hs, hx, h⟩ := step_endArray_inv h
    exact ⟨x, hs, hx, h ▸ List.suffix_rfl⟩
  | v :: l, s, s', h => by
    rw [elementEvents, List.append_assoc, run_append_eq_running] at h
    obtain ⟨t, ht, h⟩ := h
    obtain ⟨x, hs, hx, ht⟩ := run_value_shrinks v ht
    obtain ⟨y, hs', hy, h'⟩ := run_elements_shrinks l h
    refine ⟨x, hs, hx, ?_⟩
    rcases ht with ht | ⟨-, ht⟩
    · exact (h'.trans (List.suffix_cons y hs')).trans (hy ▸ ht)
    · rw [ht] at hy
      injection hy with _ hy
      exact hy ▸ h'

theorem run_members_shrinks : ∀ (ms : List (Name × Value)) {s s' : State},
    run (memberEvents ms ++ [.endObject]) s = .running s' →
    ∃ x hs, s.handlers = x :: hs ∧ x.isUnit = true ∧ s'.handlers <:+ hs
  | [], s, s', h => by
    rw [memberEvents, List.nil_append, run_singleton] at h
    obtain ⟨x, hs, hx, hu, h⟩ := step_endObject_inv h
    exact ⟨x, hs, hx, hu, h ▸ List.suffix_rfl⟩
  | (k, v) :: ms, s, s', h => by
    rw [memberEvents, List.cons_append, run_cons_eq_running] at h
    obtain ⟨t, ht, h⟩ := h
    rw [List.append_assoc, run_append_eq_running] at h
    obtain ⟨t', ht', h⟩ := h
    obtain ⟨x, y, hs, hx, hu, hy, ht⟩ := step_key_inv ht
    obtain ⟨z, hs', hz, ht'⟩ := run_value_shrinks v ht'
    obtain ⟨w, hs'', hw, hwu, h'⟩ := run_members_shrinks ms h
    refine ⟨x, hs, hx, hu, ?_⟩
    have hle : s'.handlers <:+ t'.handlers := hw ▸ h'.trans (List.suffix_cons w hs'')
    rcases ht with ht | ⟨f, hf, ht⟩ <;> rw [ht] at hz <;> injection hz with hz hz' <;>
      subst hz hz'
    · rcases ht' with ht' | ⟨hn, -⟩
      · exact hle.trans ht'
      · rw [hy] at hn
        cases hn
    · rcases ht' with ht' | ⟨-, ht'⟩
      · rw [hw] at ht'
        rcases List.suffix_cons_iff.mp ht' with e | ht'
        · injection e with _ e
          exact e ▸ h'
        · exact (h'.trans (List.suffix_cons w hs'')).trans ht'
      · -- a reader of a field takes no name and no end of an object
        rw [ht'] at hw
        injection hw with hw
        rw [hw, hwu] at hf
        cases hf

end

theorem suffix_tail_of_cons_suffix {x : Handler} {l hs : List Handler} (h : x :: l <:+ hs) :
    l <:+ hs.tail := by
  obtain ⟨p, rfl⟩ := h
  cases p with
  | nil => exact List.suffix_rfl
  | cons y p => exact ⟨p ++ [x], by simp⟩

/-- An object that is begun with a reader of a field below its own reader leaves that reader
in place, or it takes more than that one away. -/
theorem run_members_on_field : ∀ (ms : List (Name × Value)) {s s' : State} {x r : Handler}
    {hs : List Handler}, s.handlers = x :: r :: hs → r.isUnit = false →
    run (memberEvents ms ++ [.endObject]) s = .running s' →
    s'.handlers = r :: hs ∨ s'.handlers <:+ hs.tail := by
  intro ms
  induction ms with
  | nil =>
    intro s s' x r hs hs₀ hr h
    rw [memberEvents, List.nil_append, run_singleton] at h
    obtain ⟨x', hs', hx, -, h⟩ := step_endObject_inv h
    rw [hs₀] at hx
    injection hx with _ hx
    exact .inl (h.trans hx.symm)
  | cons m ms ih =>
    intro s s' x r hs hs₀ hr h
    obtain ⟨k, v⟩ := m
    rw [memberEvents, List.cons_append, run_cons_eq_running] at h
    obtain ⟨t, ht, h⟩ := h
    rw [List.append_assoc, run_append_eq_running] at h
    obtain ⟨t', ht', h⟩ := h
    obtain ⟨x', y, hs', hx, -, hy, ht⟩ := step_key_inv ht
    obtain ⟨z, hs'', hz, ht'⟩ := run_value_shrinks v ht'
    obtain ⟨w, l, hw, hwu, h'⟩ := run_members_shrinks ms h
    rw [hs₀] at hx
    injection hx with _ hx
    subst hx
    -- once the reader of the unit is gone, the reader of the field is in its place or gone too
    have below : t'.handlers <:+ r :: hs → s'.handlers <:+ hs.tail := by
      intro hb
      rw [hw] at hb
      rcases List.suffix_cons_iff.mp hb with e | hb
      · injection e with e
        rw [e, hr] at hwu
        cases hwu
      · exact h'.trans (suffix_tail_of_cons_suffix hb)
    rcases ht with ht | ⟨f, hf, ht⟩ <;> rw [ht] at hz <;> injection hz with hz hz' <;>
      subst hz hz'
    · rcases ht' with ht' | ⟨hn, -⟩
      · exact .inr (below ht')
      · rw [hy] at hn
        cases hn
    · rcases ht' with ht' | ⟨-, ht'⟩
      · rcases List.suffix_cons_iff.mp ht' with e | ht'
        · exact ih e hr h
        · exact .inr (below ht')
      · rw [ht'] at hw
        injection hw with hw
        rw [hw, hwu] at hf
        cases hf

/-! ### What the handlers accept can be read -/

mutual

/-- **The value of a field can be read** if its handler, and no other one, is gone behind it. -/
theorem value_of_run : ∀ (v : Value) {kind : FieldKind} {path : List Place} {i : Nat} {sc : Int}
    {u : UnitObject} {hs : List Handler} {s' : State},
    run v.events ⟨u, .field path i kind sc :: hs⟩ = .running s' → hs ≠ [] → s'.handlers = hs →
    ∃ g, kind.readValue v = some g
  | .scalar a, kind, path, i, sc, u, hs, s', h, _, hs' => by
    rw [Value.events, run_singleton] at h
    cases kind with
    | plain t d =>
      simp only [step, Handler.handle, FieldReader.handle] at h
      cases hr : t.read a with
      | none => simp [hr] at h
      | some g => exact ⟨_, by rw [FieldKind.readValue, hr]; rfl⟩
    | subunit fs =>
      cases a with
      | null => exact ⟨id, rfl⟩
      | _ => nomatch h
    | map => nomatch h
    | array t => exact absurd ((step_scalar_repeated rfl h).symm.trans hs') (List.cons_ne_self _ _)
    | units fs => exact absurd ((step_scalar_repeated rfl h).symm.trans hs') (List.cons_ne_self _ _)
  | .array l, kind, path, i, sc, u, hs, s', h, _, hs' => by
    rw [Value.events, run_cons_eq_running] at h
    obtain ⟨t, ht, h⟩ := h
    cases kind with
    | array ty =>
      injection ht with ht
      subst ht
      exact elements_of_run l rfl h (hs' ▸ le_rfl)
    | units fs =>
      injection ht with ht
      subst ht
      exact elements_of_run l rfl h (hs' ▸ le_rfl)
    | _ => nomatch ht
  | .object ms, kind, path, i, sc, u, hs, s', h, hne, hs' => by
    rw [Value.events, run_cons_eq_running] at h
    obtain ⟨t, ht, h⟩ := h
    cases kind with
    | subunit fs =>
      injection ht with ht
      subst ht
      obtain ⟨g, hg⟩ := members_of_run ms h (hs' ▸ le_rfl)
      exact ⟨_, by rw [FieldKind.readValue, hg]; rfl⟩
    | units fs =>
      injection ht with ht
      subst ht
      -- the reader of the field would have to go without the end of an array
      rcases run_members_on_field ms rfl rfl h with e | e <;> rw [hs'] at e
      · exact absurd e.symm (List.cons_ne_self _ _)
      · have hle : hs.length ≤ hs.tail.length := e.length_le
        have hpos := List.length_pos_of_ne_nil hne
        rw [List.length_tail] at hle
        omega
    | _ => nomatch ht

theorem element_of_run : ∀ (v : Value) {kind : FieldKind} {path : List Place} {i : Nat} {sc : Int}
    {u : UnitObject} {hs : List Handler} {s' : State}, kind.isRepeated = true →
    run v.events ⟨u, .field path i kind sc :: hs⟩ = .running s' →
    hs.length < s'.handlers.length → ∃ g, kind.readElement v = some g
  | .scalar a, kind, path, i, sc, u, hs, s', hk, h, hs' => by
    rw [Value.events, run_singleton] at h
    cases kind with
    | array t =>
      simp only [step, Handler.handle, FieldReader.handle] at h
      cases hr : t.read a with
      | none => simp [hr] at h
      | some g => exact ⟨_, by rw [FieldKind.readElement, hr]; rfl⟩
    | units fs =>
      cases a with
      | null => exact ⟨_, rfl⟩
      | _ => nomatch h
    | _ => cases hk
  | .array l, kind, path, i, sc, u, hs, s', hk, h, hs' => by
    rw [Value.events, run_cons_eq_running] at h
    obtain ⟨t, ht, h⟩ := h
    obtain ⟨x, hs'', hx, -, ht⟩ := step_startArray_inv ht
    obtain ⟨y, l', hy, h'⟩ := run_elements_shrinks l h
    injection hx with _ hx
    rw [ht] at hy
    injection hy with _ hy
    have := h'.length_le
    rw [← hy, ← hx] at this
    omega
  | .object ms, kind, path, i, sc, u, hs, s', hk, h, hs' => by
    rw [Value.events, run_cons_eq_running] at h
    obtain ⟨t, ht, h⟩ := h
    cases kind with
    | units fs =>
      injection ht with ht
      subst ht
      obtain ⟨g, hg⟩ := members_of_run ms h hs'
      exact ⟨_, by rw [FieldKind.readElement, hg]; rfl⟩
    | array t => nomatch ht
    | _ => cases hk

theorem elements_of_run : ∀ (l : List Value) {kind : FieldKind} {path : List Place} {i : Nat}
    {sc : Int} {u : UnitObject} {hs : List Handler} {s' : State}, kind.isRepeated = true →
    run (elementEvents l ++ [.endArray]) ⟨u, .field path i kind sc :: hs⟩ = .running s' →
    hs.length ≤ s'.handlers.length → ∃ g, readElements kind l = some g
  | [], _, _, _, _, _, _, _, _, _, _ => ⟨id, rfl⟩
  | v :: l, kind, path, i, sc, u, hs, s', hk, h, hs' => by
    rw [elementEvents, List.append_assoc, run_append_eq_running] at h
    obtain ⟨t, ht, h⟩ := h
    obtain ⟨x, hs'', hx, h'⟩ := run_elements_shrinks l h
    have hlt : hs.length < t.handlers.length := by
      rw [hx]
      exact Nat.lt_succ_of_le (hs'.trans h'.length_le)
    obtain ⟨g, hg⟩ := element_of_run v hk ht hlt
    rw [run_element v hg, Outcome.running.injEq] at ht
    subst ht
    obtain ⟨g', hg'⟩ := elements_of_run l hk h hs'
    exact ⟨g' ∘ g, by rw [readElements, hg, hg']⟩

/-- **The members of an object can be read** if its handler, and no other one, is gone behind
it. -/
theorem members_of_run : ∀ (ms : List (Name × Value)) {fs : List Field} {path : List Place}
    {sc o : Int} {ho : o ≤ 1} {u : UnitObject} {hs : List Handler} {s' : State},
    run (memberEvents ms ++ [.endObject]) ⟨u, .unit path fs sc o ho :: hs⟩ = .running s' →
    hs.length ≤ s'.handlers.length → ∃ g, readMembers fs ms = some g
  | [], _, _, _, _, _, _, _, _, _, _ => ⟨id, rfl⟩
  | (k, v) :: ms, fs, path, sc, o, ho, u, hs, s', h, hs' => by
    rw [memberEvents, List.cons_append, run_cons_eq_running] at h
    obtain ⟨t, ht, h⟩ := h
    rw [List.append_assoc, run_append_eq_running] at h
    obtain ⟨t', ht', h⟩ := h
    obtain ⟨w, l, hw, hwu, h'⟩ := run_members_shrinks ms h
    have hlt : hs.length < t'.handlers.length := by
      rw [hw]
      exact Nat.lt_succ_of_le (hs'.trans h'.length_le)
    obtain ⟨z, hs'', hz, ht''⟩ := run_value_shrinks v ht'
    -- the value of a member without a handler takes the reader of the unit away
    have handled : ∀ x : Handler, x.isUnit = true → t.handlers ≠ x :: hs := by
      intro x hx e
      rw [e] at hz
      injection hz with hz hz'
      rcases ht'' with ht'' | ⟨hn, -⟩
      · have := ht''.length_le
        rw [← hz'] at this
        omega
      · rw [← hz, hx] at hn
        cases hn
    cases hf : fieldByName fs k with
    | none =>
      rw [step_key_of_none hf, Outcome.running.injEq] at ht
      subst ht
      exact absurd rfl (handled (.unit path fs (sc + o) 0 (by decide)) rfl)
    | some p =>
      obtain ⟨i, f⟩ := p
      rw [step_key_of_some hf, Outcome.running.injEq] at ht
      by_cases hm : f.kind = .map
      · rw [hm] at ht
        subst ht
        exact absurd rfl (handled (.unit path fs (sc + o) 0 (by decide)) rfl)
      · rw [FieldKind.pushHandler_of_ne_map hm] at ht
        subst ht
        injection hz with hz hz'
        subst hz hz'
        have hle : t'.handlers = .unit path fs (sc + o) 0 (by decide) :: hs := by
          rcases ht'' with ht'' | ⟨-, ht''⟩
          · exact ht''.eq_of_length (le_antisymm ht''.length_le hlt)
          · rw [hw] at ht''
            injection ht'' with e
            rw [e] at hwu
            cases hwu
        obtain ⟨g, hg⟩ := value_of_run v ht' (List.cons_ne_nil _ _) hle
        have e := (run_value v hg path i 0 u _).symm.trans ht'
        rw [Outcome.running.injEq] at e
        subst e
        obtain ⟨g', hg'⟩ := members_of_run ms h hs'
        exact ⟨_, by rw [readMembers, hf]; simp only [hg, hg']; rfl⟩

end

/-! ### Accepted texts -/

/-- A value that is read into a unit. -/
def readRoot (fs : List Field) : Value → Option (UnitObject → UnitObject)
  | .object ms => readMembers fs ms
  | _ => none

theorem run_root {fs : List Field} {v : Value} {u : UnitObject} {s : State}
    (h : run v.events ⟨u, [.unit [] fs 0 0 (by decide)]⟩ = .running s) :
    ∃ g, readRoot fs v = some g ∧ s = ⟨g u, []⟩ := by
  cases v with
  | scalar a =>
    rw [Value.events, run_singleton] at h
    exact absurd h (step_unit_refuses (.inr (.inr ⟨a, rfl⟩)))
  | array l =>
    rw [Value.events, run_cons_eq_running] at h
    obtain ⟨t, ht, -⟩ := h
    exact absurd ht (step_unit_refuses (.inl rfl))
  | object ms =>
    rw [Value.events, run] at h
    obtain ⟨g, hg⟩ := members_of_run ms h (Nat.zero_le _)
    refine ⟨g, hg, ?_⟩
    have e := (run_members ms hg).symm.trans h
    rw [Outcome.running.injEq] at e
    exact e.symm

/-- **A text is accepted if and only if its value can be read**, and it is read into the unit
that `clear` has left. -/
theorem load_whole_eq_ok {fs : List Field} {v : Value} {u w : UnitObject} :
    loadFromJSON fs (.whole v) u = .ok w ↔
      ∃ g, readRoot fs v = some g ∧ w = g (clear fs u) := by
  constructor
  · intro h
    rw [loadFromJSON, Text.events] at h
    cases hr : run v.events ⟨clear fs u, [.unit [] fs 0 0 (by decide)]⟩ with
    | running s =>
      obtain ⟨g, hg, rfl⟩ := run_root hr
      simp only [hr, Text.isWhole, if_true, Loaded.ok.injEq] at h
      exact ⟨g, hg, h.symm⟩
    | refused u => simp [hr] at h
    | thrown u => simp [hr] at h
  · rintro ⟨g, hg, rfl⟩
    cases v with
    | scalar a => cases hg
    | array l => cases hg
    | object ms =>
      have hr : run (Value.object ms).events ⟨clear fs u, [.unit [] fs 0 0 (by decide)]⟩ =
          .running ⟨g (clear fs u), []⟩ := by
        rw [Value.events, run]
        exact run_members ms hg
      rw [loadFromJSON, Text.events, hr]
      rfl

end Hatn.Dataunit.Json
