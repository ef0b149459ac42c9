import Hatn.Dataunit.JsonReading

/-!
# Members that a unit does not know

An unknown member is not skipped: the text is refused, or the reader of the unit is lost
with it.  So no text with such a member is accepted, wherever it stands.  The list of
handlers does not run empty as long as no object is met that has no reader of its own, and
no array within an array.
-/

namespace Hatn.Dataunit.Json

open Hatn.Json

/-! ### Insertions -/

mutual

/-- The second value is the first one with members inserted whose names are not fields. -/
inductive ValueInserted : FieldKind → Value → Value → Prop
  | same (kind : FieldKind) (v : Value) : ValueInserted kind v v
  | subunit {fs : List Field} {ms ms' : List (Name × Value)} : MembersInserted fs ms ms' →
      ValueInserted (.subunit fs) (.object ms) (.object ms')
  | units {fs : List Field} {l l' : List Value} : ElementsInserted fs l l' →
      ValueInserted (.units fs) (.array l) (.array l')

inductive ElementsInserted : List Field → List Value → List Value → Prop
  | nil {fs : List Field} : ElementsInserted fs [] []
  | same {fs : List Field} {l l' : List Value} (v : Value) : ElementsInserted fs l l' →
      ElementsInserted fs (v :: l) (v :: l')
  | object {fs : List Field} {ms ms' : List (Name × Value)} {l l' : List Value} :
      MembersInserted fs ms ms' → ElementsInserted fs l l' →
      ElementsInserted fs (.object ms :: l) (.object ms' :: l')

inductive MembersInserted : List Field → List (Name × Value) → List (Name × Value) → Prop
  | nil {fs : List Field} : MembersInserted fs [] []
  | unknown {fs : List Field} {ms ms' : List (Name × Value)} {k : Name} (v : Value) :
      fieldByName fs k = none → MembersInserted fs ms ms' → MembersInserted fs ms ((k, v) :: ms')
  | known {fs : List Field} {ms ms' : List (Name × Value)} {k : Name} {v v' : Value} {i : Nat}
      {f : Field} : fieldByName fs k = some (i, f) → ValueInserted f.kind v v' →
      MembersInserted fs ms ms' → MembersInserted fs ((k, v) :: ms) ((k, v') :: ms')

end

/-- Members are inserted at any places of an object that is read into a unit. -/
inductive Inserted (fs : List Field) : Value → Value → Prop
  | mk {ms ms' : List (Name × Value)} : MembersInserted fs ms ms' →
      Inserted fs (.object ms) (.object ms')

mutual

theorem ValueInserted.eq_of_read : ∀ {kind : FieldKind} {v v' : Value}, ValueInserted kind v v' →
    (kind.readValue v').isSome → v' = v
  | _, _, _, .same _ _, _ => rfl
  | _, _, _, .subunit hm, h => by
    rw [FieldKind.readValue, Option.isSome_map] at h
    rw [hm.eq_of_read h]
  | _, _, _, .units he, h => by
    rw [FieldKind.readValue] at h
    rw [he.eq_of_read h]

theorem ElementsInserted.eq_of_read : ∀ {fs : List Field} {l l' : List Value},
    ElementsInserted fs l l' → (readElements (.units fs) l').isSome → l' = l
  | _, _, _, .nil, _ => rfl
  | _, _, _, .same v he, h => by
    rw [he.eq_of_read (readElements_cons_isSome.mp h).2]
  | _, _, _, .object hm he, h => by
    obtain ⟨hv, hl⟩ := readElements_cons_isSome.mp h
    rw [FieldKind.readElement, Option.isSome_map] at hv
    rw [hm.eq_of_read hv, he.eq_of_read hl]

theorem MembersInserted.eq_of_read : ∀ {fs : List Field} {ms ms' : List (Name × Value)},
    MembersInserted fs ms ms' → (readMembers fs ms').isSome → ms' = ms
  | _, _, _, .nil, _ => rfl
  | _, _, _, .unknown v hf _, h => by
    rw [readMembers, hf] at h
    cases h
  | _, _, _, .known hf hv hm, h => by
    obtain ⟨hr, hms⟩ := (readMembers_cons_isSome hf).mp h
    rw [hv.eq_of_read hr, hm.eq_of_read hms]

end

/-! ### Objects without a reader -/

/-- The value is no object. -/
def NoObject : Value → Prop
  | .object _ => False
  | _ => True

/-- The value is no array. -/
def NoArray : Value → Prop
  | .array _ => False
  | _ => True

mutual

/-- In the objects that are read into units, no object is the value of a name without a
handler, and arrays are not elements of arrays. -/
def FieldKind.Regular : FieldKind → Value → Prop
  | .subunit fs, .object ms => membersRegular fs ms
  | .units fs, .object ms => membersRegular fs ms
  | .array t, .array l => elementsRegular (.array t) l
  | .units fs, .array l => elementsRegular (.units fs) l
  | .map, v => NoObject v
  | _, _ => True

def elementsRegular (kind : FieldKind) : List Value → Prop
  | [] => True
  | v :: l => (NoArray v ∧ kind.Regular v) ∧ elementsRegular kind l

def membersRegular (fs : List Field) : List (Name × Value) → Prop
  | [] => True
  | (k, v) :: ms =>
    (match fieldByName fs k with
      | some (_, f) => f.kind.Regular v
      | none => NoObject v) ∧ membersRegular fs ms

end

theorem noObject_of_regular_map {v : Value} (h : FieldKind.map.Regular v) : NoObject v := by
  cases v <;> exact h

/-- `Regular` of a value that is read into a unit. -/
def RootRegular (fs : List Field) : Value → Prop
  | .object ms => membersRegular fs ms
  | _ => True

/-- There is a handler for each event that is reached, and what is reached behind the events
has a property. -/
def Guarded : List Event → State → (State → Prop) → Prop
  | [], s, P => P s
  | e :: es, s, P => s.handlers ≠ [] ∧ ∀ t, step e s = .running t → Guarded es t P

theorem guarded_append {P : State → Prop} {es' : List Event} : ∀ {es : List Event} {s : State},
    Guarded es s (fun t => Guarded es' t P) → Guarded (es ++ es') s P := by
  intro es
  induction es with
  | nil => intro s h; exact h
  | cons e es ih => intro s h; exact ⟨h.1, fun t ht => ih (h.2 t ht)⟩

theorem Guarded.mono {P P' : State → Prop} (hp : ∀ t, P t → P' t) : ∀ {es : List Event} {s : State},
    Guarded es s P → Guarded es s P' := by
  intro es
  induction es with
  | nil => intro s h; exact hp s h
  | cons e es ih => intro s h; exact ⟨h.1, fun t ht => ih (h.2 t ht)⟩

/-- The assertion does not throw while the events are given to the handlers. -/
theorem Guarded.not_thrown {P : State → Prop} : ∀ {es : List Event} {s : State}, Guarded es s P →
    ∀ u n, run (es.take n) s ≠ .thrown u := by
  intro es
  induction es with
  | nil => intro s _ u n h; rw [List.take_nil] at h; cases h
  | cons e es ih =>
    intro s hg u n h
    cases n with
    | zero => cases h
    | succ n =>
      rw [List.take_succ_cons, run] at h
      cases hs : step e s with
      | running t =>
        rw [hs] at h
        exact ih (hg.2 t hs) u n h
      | refused w =>
        rw [hs] at h
        cases h
      | thrown w =>
        rw [step] at hs
        split at hs
        next hn => exact hg.1 hn
        next => split at hs <;> cases hs

/-- There is a handler for the event that comes next. -/
theorem Guarded.ne_nil {P : State → Prop} : ∀ {es : List Event} {s t : State} {n : Nat},
    Guarded es s P → n < es.length → run (es.take n) s = .running t → t.handlers ≠ [] := by
  intro es
  induction es with
  | nil => intro s t n _ hn; exact absurd hn (Nat.not_lt_zero n)
  | cons e es ih =>
    intro s t n hg hn h
    cases n with
    | zero =>
      injection h with h
      exact h ▸ hg.1
    | succ n =>
      rw [List.take_succ_cons, run_cons_eq_running] at h
      obtain ⟨t', ht', h⟩ := h
      exact ih (hg.2 t' ht') (Nat.lt_of_succ_lt_succ hn) h

theorem guarded_of_refuses {P : State → Prop} {e : Event} {es : List Event} {s : State}
    (hn : s.handlers ≠ []) (h : ∀ t, step e s ≠ .running t) : Guarded (e :: es) s P :=
  ⟨hn, fun t ht => absurd ht (h t)⟩

section
variable {path : List Place} {i : Nat} {kind : FieldKind} {sc : Int} {u : UnitObject}
  {hs : List Handler} {P : State → Prop}

/-- Where a reader of a unit is last, what is no object is refused. -/
theorem guarded_unit {v : Value} (hv : NoObject v) {fs : List Field} {o : Int} {ho : o ≤ 1} :
    Guarded v.events ⟨u, .unit path fs sc o ho :: hs⟩ P := by
  cases v with
  | scalar a =>
    exact guarded_of_refuses (List.cons_ne_nil _ _) fun t => step_unit_refuses (.inr (.inr ⟨a, rfl⟩))
  | array l =>
    exact guarded_of_refuses (List.cons_ne_nil _ _) fun t => step_unit_refuses (.inl rfl)
  | object ms => exact hv.elim

/-- Where a reader of a field is last, an object is neither continued nor ended. -/
theorem guarded_field (ms : List (Name × Value)) :
    Guarded (memberEvents ms ++ [.endObject]) ⟨u, .field path i kind sc :: hs⟩ P := by
  cases ms with
  | nil => exact guarded_of_refuses (List.cons_ne_nil _ _) fun t => step_field_refuses (.inl rfl)
  | cons m ms =>
    exact guarded_of_refuses (List.cons_ne_nil _ _) fun t => step_field_refuses (.inr ⟨m.1, rfl⟩)

end

mutual

/-- The handler of a field has a handler for each event of a regular value. -/
theorem guarded_value : ∀ (v : Value) {kind : FieldKind}, kind.Regular v →
    ∀ (path : List Place) (i : Nat) (sc : Int) (u : UnitObject) (hs : List Handler),
      Guarded v.events ⟨u, .field path i kind sc :: hs⟩ fun t =>
        t.handlers = hs ∨ ∃ sc', t.handlers = .field path i kind sc' :: hs
  | .scalar a, kind, _, path, i, sc, u, hs => by
    refine ⟨List.cons_ne_nil _ _, fun t ht => ?_⟩
    obtain ⟨x, hs', hx, -, ht⟩ := step_scalar_inv ht
    injection hx with hx hx'
    subst hx hx'
    exact ht.imp id fun h => ⟨sc, h⟩
  | .array l, kind, h, path, i, sc, u, hs => by
    refine ⟨List.cons_ne_nil _ _, fun t ht => ?_⟩
    cases kind with
    | array ty =>
      injection ht with ht
      subst ht
      exact (guarded_elements l rfl h path i sc u hs).mono fun t => .inl
    | units fs =>
      injection ht with ht
      subst ht
      exact (guarded_elements l rfl h path i sc u hs).mono fun t => .inl
    | _ => nomatch ht
  | .object ms, kind, h, path, i, sc, u, hs => by
    refine ⟨List.cons_ne_nil _ _, fun t ht => ?_⟩
    cases kind with
    | subunit fs =>
      injection ht with ht
      subst ht
      exact (guarded_members ms h _ sc 1 (by decide) _ hs).mono fun t => .inl
    | units fs =>
      injection ht with ht
      subst ht
      exact (guarded_members ms h _ sc 1 (by decide) _ _).mono fun t ht => .inr ⟨sc, ht⟩
    | _ => nomatch ht

theorem guarded_element : ∀ (v : Value) {kind : FieldKind}, kind.isRepeated = true → NoArray v →
    kind.Regular v → ∀ (path : List Place) (i : Nat) (sc : Int) (u : UnitObject)
      (hs : List Handler), Guarded v.events ⟨u, .field path i kind sc :: hs⟩ fun t =>
        t.handlers = .field path i kind sc :: hs
  | .scalar a, kind, hk, _, _, path, i, sc, u, hs =>
    ⟨List.cons_ne_nil _ _, fun t ht => step_scalar_repeated hk ht⟩
  | .array l, kind, _, ha, _, path, i, sc, u, hs => ha.elim
  | .object ms, kind, hk, _, h, path, i, sc, u, hs => by
    refine ⟨List.cons_ne_nil _ _, fun t ht => ?_⟩
    cases kind with
    | units fs =>
      injection ht with ht
      subst ht
      exact guarded_members ms h _ sc 1 (by decide) _ _
    | array ty => nomatch ht
    | _ => cases hk

theorem guarded_elements : ∀ (l : List Value) {kind : FieldKind}, kind.isRepeated = true →
    elementsRegular kind l → ∀ (path : List Place) (i : Nat) (sc : Int) (u : UnitObject)
      (hs : List Handler),
      Guarded (elementEvents l ++ [.endArray]) ⟨u, .field path i kind sc :: hs⟩ fun t =>
        t.handlers = hs
  | [], kind, hk, _, path, i, sc, u, hs => by
    refine ⟨List.cons_ne_nil _ _, fun t ht => ?_⟩
    rw [step_endArray hk, Outcome.running.injEq] at ht
    exact ht ▸ rfl
  | v :: l, kind, hk, h, path, i, sc, u, hs => by
    rw [elementEvents, List.append_assoc]
    refine guarded_append ((guarded_element v hk h.1.1 h.1.2 path i sc u hs).mono fun t ht => ?_)
    obtain ⟨u', hs'⟩ := t
    have ht : hs' = _ := ht
    rw [ht]
    exact guarded_elements l hk h.2 path i sc u' hs

/-- The handler of a unit has a handler for each event up to the end of a regular object. -/
theorem guarded_members : ∀ (ms : List (Name × Value)) {fs : List Field}, membersRegular fs ms →
    ∀ (path : List Place) (sc o : Int) (ho : o ≤ 1) (u : UnitObject) (hs : List Handler),
      Guarded (memberEvents ms ++ [.endObject]) ⟨u, .unit path fs sc o ho :: hs⟩ fun t =>
        t.handlers = hs
  | [], fs, _, path, sc, o, ho, u, hs => by
    refine ⟨List.cons_ne_nil _ _, fun t ht => ?_⟩
    rw [step_endObject_unit, Outcome.running.injEq] at ht
    exact ht ▸ rfl
  | (k, v) :: ms, fs, h, path, sc, o, ho, u, hs => by
    obtain ⟨hv, hms⟩ := h
    rw [memberEvents, List.cons_append, List.append_assoc]
    refine ⟨List.cons_ne_nil _ _, fun t ht => ?_⟩
    cases hf : fieldByName fs k with
    | none =>
      rw [step_key_of_none hf, Outcome.running.injEq] at ht
      subst ht
      simp only [hf] at hv
      exact guarded_append (guarded_unit hv)
    | some p =>
      obtain ⟨i, f⟩ := p
      rw [step_key_of_some hf, Outcome.running.injEq] at ht
      subst ht
      simp only [hf] at hv
      by_cases hm : f.kind = .map
      · rw [hm] at hv ⊢
        exact guarded_append (guarded_unit (noObject_of_regular_map hv))
      · rw [FieldKind.pushHandler_of_ne_map hm]
        refine guarded_append ((guarded_value v hv path i 0 u _).mono fun t ht => ?_)
        obtain ⟨u', hs'⟩ := t
        have ht : hs' = _ ∨ ∃ sc', hs' = _ := ht
        rcases ht with rfl | ⟨sc', rfl⟩
        · exact guarded_members ms hms path _ 0 _ u' hs
        · exact guarded_field ms

end

/-- There is a handler for each event of a regular text. -/
theorem guarded_root {fs : List Field} {v : Value} (hv : RootRegular fs v) (u : UnitObject) :
    Guarded v.events ⟨u, [.unit [] fs 0 0 (by decide)]⟩ fun _ => True := by
  cases v with
  | scalar a => exact guarded_unit (v := .scalar a) trivial
  | array l => exact guarded_unit (v := .array l) trivial
  | object ms =>
    refine ⟨List.cons_ne_nil _ _, fun t ht => ?_⟩
    rw [step_startObject_unit, Outcome.running.injEq] at ht
    subst ht
    exact (guarded_members ms hv [] 0 0 (by decide) u []).mono fun _ _ => trivial

/-! ### What becomes of unknown members -/

/-- The assertion does not throw for a regular text. -/
theorem load_ne_thrown {fs : List Field} {text : Text} (h : RootRegular fs text.value)
    (u x : UnitObject) : loadFromJSON fs text u ≠ .thrown x := by
  have hg := guarded_root h (clear fs u)
  have hn : ∃ n, text.events = text.value.events.take n ∧
      (text.isBroken = true → n < text.value.events.length) := by
    cases text with
    | whole v => exact ⟨v.events.length, (List.take_length).symm, nofun⟩
    | trailing v => exact ⟨v.events.length, (List.take_length).symm, nofun⟩
    | broken v n hn => exact ⟨n, rfl, fun _ => hn⟩
  obtain ⟨n, hn, hb⟩ := hn
  intro hl
  rw [loadFromJSON, hn] at hl
  cases hr : run (text.value.events.take n) ⟨clear fs u, [.unit [] fs 0 0 (by decide)]⟩ with
  | thrown w => exact hg.not_thrown w n hr
  | refused w => simp [hr] at hl
  | running s =>
    simp only [hr] at hl
    split at hl
    · cases hl
    · split at hl
      next he =>
        rw [Bool.and_eq_true] at he
        exact hg.ne_nil (hb he.1) hr (List.isEmpty_iff.mp he.2)
      next => cases hl

/-- **Unknown members are never ignored.**  A text that differs from an accepted one by
members that the units do not know is not accepted.  The list of handlers does not run
empty for a text in which each object that stands in a unit has a reader. -/
theorem unknown_ignored_iff (fs : List Field) (u : UnitObject) :
    (∀ (v v' : Value) (w : UnitObject), loadFromJSON fs (.whole v) u = .ok w → Inserted fs v v' →
      (loadFromJSON fs (.whole v') u = .ok w ↔ v' = v)) ∧
    ∀ text : Text, RootRegular fs text.value → ∀ x, loadFromJSON fs text u ≠ .thrown x := by
  refine ⟨fun v v' w hv hi => ⟨fun h => ?_, fun e => e ▸ hv⟩, fun text h x => load_ne_thrown h u x⟩
  obtain ⟨hm⟩ := hi
  obtain ⟨g, hg, -⟩ := load_whole_eq_ok.mp h
  rw [hm.eq_of_read (Option.isSome_of_eq_some hg)]

section
open Hatn.Common

/-- A unit with a number. -/
def sampleFields : List Field := [.mk [0x6e] false (.plain (intType true .w32) none)]

/-- `{"n":5}` -/
def sampleText : Value := .object [([0x6e], .scalar (.integer 5))]

/-- `{"x":..,"n":5}` -/
def sampleInserted (v : Value) : Value := .object [([0x78], v), ([0x6e], .scalar (.integer 5))]

theorem inserted_sample (v : Value) : Inserted sampleFields sampleText (sampleInserted v) :=
  .mk (.unknown v rfl (.known rfl (.same _ _) .nil))

/-- An unknown number makes the text be refused, an unknown object makes the assertion throw. -/
theorem number_refused_object_throws :
    ¬ (∀ (fs : List Field) (u w : UnitObject) (v v' : Value),
      loadFromJSON fs (.whole v) u = .ok w → Inserted fs v v' →
      loadFromJSON fs (.whole v') u = .ok w) ∧
    ¬ ∀ (fs : List Field) (u x : UnitObject) (text : Text), loadFromJSON fs text u ≠ .thrown x :=
  ⟨(fun h => nomatch h sampleFields (construct sampleFields) [.plain true (.num 5)] sampleText
      (sampleInserted (.scalar (.integer 1))) rfl (inserted_sample _)),
    fun h => h sampleFields (construct sampleFields) [.plain false (.num 0)]
      (.whole (sampleInserted (.object []))) rfl⟩

end

end Hatn.Dataunit.Json
