import Hatn.Db.UpdateUnit

/-!
# Update operators as functions of lists

`RepeatedField.updated` is what an operator makes of the list of elements, the value being the
element that a new one becomes with it.  `RepeatedField.handle_eq_iff` says when the code does
that: elements that are written into are as new ones, and elements that are looked at are set.
-/

namespace Hatn.Db.Update

variable {S : ScalarTypes} {U : UnitTypes S}

namespace Outcome

variable {α β : Type}

@[simp] theorem map_none (g : α → β) : Outcome.map g none = none := rfl

@[simp] theorem map_some (g : α → β) (a : α) (ec : Option DbError) :
    Outcome.map g (some (a, ec)) = some (g a, ec) := rfl

theorem map_map {γ : Type} (g : α → β) (h : β → γ) (o : Outcome α) :
    (o.map g).map h = o.map fun a => h (g a) := by
  cases o <;> rfl

theorem map_eq_some_iff {g : α → β} {o : Outcome α} {b : β} {ec : Option DbError} :
    o.map g = some (b, ec) ↔ ∃ a, o = some (a, ec) ∧ g a = b := by
  cases o with
  | none => simp
  | some r =>
    obtain ⟨a, ec'⟩ := r
    simp only [map_some, Option.some.injEq, Prod.mk.injEq]
    exact ⟨fun ⟨hg, hec⟩ => ⟨a, ⟨rfl, hec⟩, hg⟩, fun ⟨a', ⟨ha, hec⟩, hg⟩ => ⟨ha ▸ hg, hec⟩⟩

end Outcome

/-! ### Values as elements -/

/-- The bytes that a subunit is looked for with. -/
def Element.bytes : Element U → Option (List UInt8)
  | .scalar _ => none
  | .subunit val => val.bind U.serialize
  | .subunitBuf val => some val

namespace RepeatedGetterSetter

variable {α : Type} (A : RepeatedGetterSetter U α)

/-- The element that a new one becomes with a value. -/
def valueOf (e : Element U) : α :=
  match A.setVal A.createValue e with
  | some (x, _) => x
  | none => A.createValue

/-- The value is one of an element. -/
def Accepts (e : Element U) : Prop := A.setVal A.createValue e = some (A.valueOf e, none)

/-- What the element was does not show through the value. -/
def AsNew (x : α) (e : Element U) : Prop := A.setVal x e = A.setVal A.createValue e

/-- The element has these bytes. -/
def hasBytes (bytes : List UInt8) (x : α) : Bool := (A.serialized x).bind Prod.snd = some bytes

/-- The element is equal to the value. -/
def same : Element U → α → Bool
  | .scalar v, x => A.equals x v = some true
  | e, x => e.bytes.any (A.hasBytes · x)

/-- The element with a number added. -/
def added (v : S.Operand) (x : α) : α := (A.incVal x v).getD x

variable {A} {x : α} {e : Element U}

theorem setVal_eq_iff (he : A.Accepts e) :
    A.setVal x e = some (A.valueOf e, none) ↔ A.AsNew x e := by
  rw [AsNew, he]

end RepeatedGetterSetter

namespace RepeatedField

variable {α : Type} (A : RepeatedGetterSetter U α)

/-- **What an operator makes of a repeated field.** -/
def updated (op : Operator) (idx : Nat) (value : Operand U) (f : RepeatedField α) :
    RepeatedField α :=
  match op, value with
  | .set, .vector l => ⟨f.isSet || l.length != f.vector.length, l.map A.valueOf⟩
  | .unset, _ => ⟨false, []⟩
  | .push, .one e => ⟨true, f.vector ++ [A.valueOf e]⟩
  | .pop, _ => ⟨f.isSet || !f.vector.isEmpty, f.vector.dropLast⟩
  | .push_unique, .one e =>
    if f.vector.any (A.same e) then f else ⟨true, f.vector ++ [A.valueOf e]⟩
  | .replace_element, .one e => { f with vector := f.vector.set idx (A.valueOf e) }
  | .erase_element, _ => { f with vector := f.vector.eraseIdx idx }
  | .inc_element, .one (.scalar v) => { f with vector := f.vector.modify idx (A.added v) }
  | _, _ => f

/-- The operator and the value are for a field of such elements. -/
def Accepts (op : Operator) (value : Operand U) : Prop :=
  match op, value with
  | .set, .vector l => ∀ e ∈ l, A.Accepts e
  | .unset, _ | .pop, _ | .erase_element, _ => True
  | .push, .one e | .replace_element, .one e => A.Accepts e
  | .push_unique, .one (.scalar v) => A.Accepts (.scalar v) ∧ ∀ x, (A.equals x v).isSome
  | .push_unique, .one e => A.Accepts e ∧ e.bytes.isSome ∧ ∀ x, (A.serialized x).isSome
  | .inc_element, .one (.scalar v) => S.isArithmetic v = true ∧ ∀ x, (A.incVal x v).isSome
  | _, _ => False

/-- The elements that are looked at, up to the first one with these bytes, stay as they are and can
be serialized. -/
def Looked (bytes : List UInt8) : List α → Prop
  | [] => True
  | x :: xs => (∃ elem, A.serialized x = some (x, some elem)) ∧
    (A.hasBytes bytes x = true ∨ Looked bytes xs)

/-- The operator does not come upon an element that shows through or that is changed by looking
at it. -/
def Kept (op : Operator) (idx : Nat) (value : Operand U) (f : RepeatedField α) : Prop :=
  match op, value with
  | .set, .vector l => ∀ (i : Nat) e x, l[i]? = some e → f.vector[i]? = some x → A.AsNew x e
  | .replace_element, .one e => ∀ x, f.vector[idx]? = some x → A.AsNew x e
  | .push_unique, .one e => ∀ bytes, e.bytes = some bytes → Looked A bytes f.vector
  | _, _ => True

/-! ### The loops -/

variable {A}

theorem setElements_eq_iff : ∀ {es : List (Element U)} {l : List α}, es.length = l.length →
    (∀ e ∈ es, A.Accepts e) →
    (setElements A es l = some (es.map A.valueOf, none) ↔
      ∀ (i : Nat) e x, es[i]? = some e → l[i]? = some x → A.AsNew x e) := by
  intro es
  induction es with
  | nil =>
    intro l hlen _
    obtain rfl : l = [] := List.length_eq_zero_iff.mp hlen.symm
    simp [setElements]
  | cons e es ih =>
    intro l hlen hacc
    cases l with
    | nil => cases hlen
    | cons x l =>
      have he := hacc e List.mem_cons_self
      have htail := ih (l := l) (by simpa using hlen) fun e he => hacc e (List.mem_cons_of_mem _ he)
      have hhead : (∀ e' x', some e = some e' → some x = some x' → A.AsNew x' e') ↔
          A.setVal x e = some (A.valueOf e, none) := by
        rw [RepeatedGetterSetter.setVal_eq_iff he]
        exact ⟨fun h => h e x rfl rfl, fun h e' x' he' hx' => by cases he'; cases hx'; exact h⟩
      rw [← Nat.and_forall_add_one]
      simp only [List.getElem?_cons_zero, List.getElem?_cons_succ]
      rw [← htail, hhead, setElements]
      cases hx : A.setVal x e with
      | none => simp
      | some r =>
        obtain ⟨y, _ | ec⟩ := r
        · simp only [Outcome.map_eq_some_iff, List.map_cons, List.cons.injEq, Option.some.injEq,
            Prod.mk.injEq, and_true]
          exact ⟨fun ⟨l', hl', hy, heq⟩ => ⟨hy, heq ▸ hl'⟩, fun ⟨hy, hl'⟩ => ⟨_, hl', hy, rfl⟩⟩
        · simp

theorem findEqual_eq {v : S.Operand} (h : ∀ x, (A.equals x v).isSome) :
    ∀ l : List α, findEqual A v l = some (l.any (A.same (.scalar v))) := by
  intro l
  induction l with
  | nil => rfl
  | cons x l ih =>
    obtain ⟨equal, hx⟩ := Option.isSome_iff_exists.mp (h x)
    rw [findEqual, hx, Option.bind_some, List.any_cons, RepeatedGetterSetter.same, hx, ih]
    cases equal <;> rfl

/-- What the loop over the bytes finds. -/
theorem findBytes_found {bytes : List UInt8} : ∀ {l l' : List α} {found : Bool},
    findBytes A bytes l = some ((l', found), none) → found = l.any (A.hasBytes bytes) := by
  intro l
  induction l with
  | nil =>
    intro l' found h
    cases h
    rfl
  | cons x l ih =>
    intro l' found h
    rw [findBytes] at h
    rw [List.any_cons, RepeatedGetterSetter.hasBytes]
    cases hx : A.serialized x with
    | none =>
      rw [hx] at h
      cases h
    | some r =>
      obtain ⟨y, _ | elem⟩ := r
      · rw [hx] at h
        cases h
      · simp only [hx] at h
        split at h
        next heq =>
          cases h
          simp [heq]
        next hne =>
          obtain ⟨⟨l'', found'⟩, hl, hr⟩ := Outcome.map_eq_some_iff.mp h
          cases hr
          simp [hne, ih hl]

theorem findBytes_eq_iff {bytes : List UInt8} : ∀ {l : List α},
    findBytes A bytes l = some ((l, l.any (A.hasBytes bytes)), none) ↔ Looked A bytes l := by
  intro l
  induction l with
  | nil => simp [findBytes, Looked]
  | cons x l ih =>
    rw [findBytes, Looked, List.any_cons, RepeatedGetterSetter.hasBytes]
    cases hx : A.serialized x with
    | none => simp
    | some r =>
      obtain ⟨y, _ | elem⟩ := r
      · simp
      · simp only [Option.bind_some, Option.some.injEq, decide_eq_true_eq]
        split
        next heq => simp [heq]
        next hne =>
          simp only [Outcome.map_eq_some_iff, hne, decide_false, Bool.false_or, false_or, ← ih]
          constructor
          · rintro ⟨⟨l', found⟩, hl, hr⟩
            simp only [Prod.mk.injEq, List.cons.injEq] at hr
            obtain ⟨⟨rfl, rfl⟩, hfound⟩ := hr
            exact ⟨⟨elem, rfl⟩, hfound ▸ hl⟩
          · rintro ⟨⟨elem', hy⟩, hl⟩
            cases hy
            exact ⟨_, hl, rfl⟩

/-! ### The operators -/

variable {f : RepeatedField α} {e : Element U}

theorem arrayAppend_eq (he : A.Accepts e) :
    f.arrayAppend A e = some (⟨true, f.vector ++ [A.valueOf e]⟩, none) := by
  rw [arrayAppend, he, Outcome.map_some]

theorem arrayResize_isSet (f : RepeatedField α) (size : Nat) :
    (f.arrayResize A size).isSet = (f.isSet || size != f.vector.length) := by
  rw [arrayResize]
  split
  next hlt => simp [hlt.ne']
  next =>
    split
    next heq => simp [heq]
    next hne => simp [hne]

theorem length_arrayResize (f : RepeatedField α) (size : Nat) :
    (f.arrayResize A size).vector.length = size := by
  rw [arrayResize]
  split
  next hlt => simp; omega
  next hle =>
    split
    next heq => exact heq.symm
    next => simp; omega

/-- The elements that are added take any value as new ones. -/
theorem asNew_arrayResize_iff (es : List (Element U)) :
    (∀ (i : Nat) e x, es[i]? = some e → (f.arrayResize A es.length).vector[i]? = some x →
      A.AsNew x e) ↔ ∀ (i : Nat) e x, es[i]? = some e → f.vector[i]? = some x → A.AsNew x e := by
  refine forall_congr' fun i => forall_congr' fun e => ?_
  by_cases hi : i < es.length
  · rw [arrayResize]
    split
    next hlt =>
      rw [List.getElem?_append]
      split
      next => rfl
      next hle =>
        have hnone : f.vector[i]? = none := List.getElem?_eq_none (by omega)
        rw [List.getElem?_replicate, if_pos (by omega), hnone]
        simp [RepeatedGetterSetter.AsNew]
    next =>
      split
      next => rfl
      next => rw [List.getElem?_take_of_lt hi]
  · rw [List.getElem?_eq_none (by omega)]
    simp

theorem arraySet_eq_iff {idx : Nat} (he : A.Accepts e) :
    f.arraySet A idx e = some ({ f with vector := f.vector.set idx (A.valueOf e) }, none) ↔
      ∀ x, f.vector[idx]? = some x → A.AsNew x e := by
  rw [arraySet]
  cases hx : f.vector[idx]? with
  | none =>
    rw [List.set_eq_of_length_le (List.getElem?_eq_none_iff.mp hx)]
    simp
  | some x =>
    obtain ⟨hidx, -⟩ := List.getElem?_eq_some_iff.mp hx
    have hinj : ∀ y, f.vector.set idx y = f.vector.set idx (A.valueOf e) ↔ y = A.valueOf e := by
      refine fun y => ⟨fun h => ?_, fun h => h ▸ rfl⟩
      have hy := congrArg (fun l : List α => l[idx]?) h
      simpa [hidx] using hy
    simp only [Outcome.map_eq_some_iff, RepeatedField.mk.injEq, true_and, hinj, exists_eq_right,
      Option.some.injEq, forall_eq']
    exact RepeatedGetterSetter.setVal_eq_iff he

theorem arrayInc_eq {idx : Nat} {v : S.Operand} (h : ∀ x, (A.incVal x v).isSome) :
    f.arrayInc A idx v = some ({ f with vector := f.vector.modify idx (A.added v) }, none) := by
  rw [arrayInc]
  cases hx : f.vector[idx]? with
  | none =>
    rw [List.modify_eq_self (List.getElem?_eq_none_iff.mp hx)]
  | some x =>
    obtain ⟨y, hy⟩ := Option.isSome_iff_exists.mp (h x)
    have hset : f.vector.modify idx (A.added v) = f.vector.set idx y := by
      obtain ⟨hidx, hget⟩ := List.getElem?_eq_some_iff.mp hx
      refine List.ext_getElem? fun i => ?_
      rw [List.getElem?_modify, List.getElem?_set]
      by_cases hi : idx = i
      · subst hi
        simp [hidx, hget, RepeatedGetterSetter.added, hy]
      · simp [hi]
    simp only [hy, Option.map_some, hset]

theorem pop_eq : (if 0 < f.arraySize then f.arrayResize A (f.arraySize - 1) else f) =
    ⟨f.isSet || !f.vector.isEmpty, f.vector.dropLast⟩ := by
  obtain ⟨isSet, l⟩ := f
  rw [arraySize]
  cases l with
  | nil => simp
  | cons x l =>
    rw [if_pos (by simp), arrayResize]
    simp [List.dropLast_eq_take]

theorem same_of_bytes {bytes : List UInt8} (hb : e.bytes = some bytes) :
    A.same e = A.hasBytes bytes := by
  funext x
  cases e with
  | scalar v => cases hb
  | subunit val => simp [RepeatedGetterSetter.same, hb]
  | subunitBuf val => simp [RepeatedGetterSetter.same, hb]

/-- Whether there is an equal number, or one that has the same bytes. -/
theorem pushUnique_scalar {v : S.Operand} (he : A.Accepts (.scalar v))
    (h : ∀ x, (A.equals x v).isSome) : f.pushUnique A (.scalar v) =
      some (if f.vector.any (A.same (.scalar v)) then f
        else ⟨true, f.vector ++ [A.valueOf (.scalar v)]⟩, none) := by
  rw [pushUnique, findEqual_eq h, Option.bind_some]
  split
  next => rfl
  next => exact arrayAppend_eq he

theorem pushUniqueSubunitBytes_eq_iff {bytes : List UInt8} (he : A.Accepts e)
    (hb : e.bytes = some bytes) :
    f.pushUniqueSubunitBytes A bytes e = some (if f.vector.any (A.same e) then f
      else ⟨true, f.vector ++ [A.valueOf e]⟩, none) ↔ Looked A bytes f.vector := by
  rw [← findBytes_eq_iff, pushUniqueSubunitBytes, same_of_bytes hb]
  cases hr : findBytes A bytes f.vector with
  | none => simp
  | some r =>
    obtain ⟨⟨l, found⟩, _ | ec⟩ := r
    · have hfound := findBytes_found hr
      subst hfound
      simp only [Option.some.injEq, Prod.mk.injEq, and_true]
      cases f.vector.any (A.hasBytes bytes) with
      | true => simp [RepeatedField.ext_iff]
      | false =>
        simp only [arrayAppend_eq he, Bool.false_eq_true, if_false, Option.some.injEq,
          Prod.mk.injEq, RepeatedField.mk.injEq, true_and, and_true, List.append_cancel_right_eq]
    · simp

/-- **A repeated field becomes what the operator makes of its list**, if and only if the operator
does not come upon an element that shows through or that is changed by looking at it. -/
theorem handle_eq_iff {op : Operator} {idx : Nat} {value : Operand U} (h : Accepts A op value) :
    f.handle A op idx value = some (f.updated A op idx value, none) ↔ f.Kept A op idx value := by
  cases op with
  | set =>
    cases value with
    | one e => cases h
    | vector l =>
      have hset : (f.updated A .set idx (.vector l)) =
          { f.arrayResize A l.length with vector := l.map A.valueOf } :=
        RepeatedField.ext (arrayResize_isSet f l.length).symm rfl
      rw [hset, handle, Outcome.map_eq_some_iff, Kept, ← asNew_arrayResize_iff,
        ← setElements_eq_iff (length_arrayResize f l.length).symm h]
      simp only [RepeatedField.mk.injEq, true_and, exists_eq_right]
  | unset => simp [handle, updated, Kept]
  | inc => cases value <;> cases h
  | push =>
    cases value with
    | vector l => cases h
    | one e => simp [handle, updated, Kept, arrayAppend_eq h]
  | pop => simp [handle, updated, Kept, pop_eq]
  | push_unique =>
    cases value with
    | vector l => cases h
    | one e =>
      cases e with
      | scalar v => simp [handle, updated, Kept, pushUnique_scalar h.1 h.2, Element.bytes]
      | subunit val =>
        obtain ⟨bytes, hb⟩ := Option.isSome_iff_exists.mp h.2.1
        have hiff := pushUniqueSubunitBytes_eq_iff (f := f) h.1 hb
        have hval : val.bind U.serialize = some bytes := hb
        simp only [handle, updated, Kept, pushUnique, hval, hiff, hb, Option.some.injEq, forall_eq']
      | subunitBuf val =>
        have hiff := pushUniqueSubunitBytes_eq_iff (f := f) h.1 rfl
        simp only [handle, updated, Kept, pushUnique, hiff, Element.bytes, Option.some.injEq,
          forall_eq']
  | replace_element =>
    cases value with
    | vector l => cases h
    | one e => exact arraySet_eq_iff h
  | erase_element =>
    simp only [handle, updated, Kept, iff_true, Option.some.injEq, Prod.mk.injEq, and_true]
    split
    next => rfl
    next hidx => rw [List.eraseIdx_of_length_le (by simpa [arraySize] using hidx)]
  | inc_element =>
    cases value with
    | vector l => cases h
    | one e =>
      cases e with
      | scalar v => simp [handle, updated, Kept, h.1, arrayInc_eq h.2]
      | subunit val => cases h
      | subunitBuf val => cases h

end RepeatedField

/-! ### Subunits that are there -/

/-- The field is set and has a unit. -/
def SubunitState.Made {τ : Type} (s : SubunitState S τ) : Prop :=
  s.isSet = true ∧ s.value.isSome = true

/-- Making a subunit leaves it as it is. -/
theorem SubunitState.mark_eq_iff {s : SubunitState S U.UnitType} (type : U.UnitType)
    {u : UnitState S U.UnitType} : mark u = s ↔ s.Made ∧ u = s.mutableValue type := by
  obtain ⟨isSet, value⟩ := s
  cases value with
  | none => simp [mark, Made, SubunitState.value]
  | some v =>
    simp only [mark, Made, SubunitState.isSet, SubunitState.value, mutableValue,
      SubunitState.mk.injEq, Option.some.injEq, Option.isSome_some, and_true, Option.getD_some]
    exact and_congr_left fun _ => eq_comm

/-- A scalar is never what was there before. -/
theorem asNew_scalars (type : S.FieldType) (x : S.Value) (e : Element U) :
    (scalars type).AsNew x e := rfl

theorem parseSubunit_eq_iff {u w : UnitState S U.UnitType} {val : List UInt8} :
    parseSubunit u val = parseSubunit w val ↔ U.deserialize u val = U.deserialize w val := by
  rw [parseSubunit, parseSubunit]
  obtain ⟨x, ok⟩ := U.deserialize u val
  obtain ⟨y, ok'⟩ := U.deserialize w val
  cases ok <;> cases ok' <;> simp [SubunitState.mark]

/-- Only bytes are read into what was there before. -/
theorem asNew_subunits_iff {type : U.UnitType} {s : SubunitState S U.UnitType} {e : Element U} :
    (subunits type).AsNew s e ↔ ∀ val, e = .subunitBuf val →
      U.deserialize (s.mutableValue type) val = U.deserialize (U.construct type) val := by
  cases e with
  | scalar v => simp [RepeatedGetterSetter.AsNew, subunits]
  | subunit val => simp [RepeatedGetterSetter.AsNew, subunits]
  | subunitBuf val =>
    simp only [Element.subunitBuf.injEq, forall_eq']
    exact parseSubunit_eq_iff

/-- Looking at a subunit leaves it as it is. -/
theorem serialized_subunits_iff {type : U.UnitType} {s : SubunitState S U.UnitType} :
    (∃ elem, (subunits type).serialized s = some (s, some elem)) ↔
      s.Made ∧ (U.serialize (s.mutableValue type)).isSome = true := by
  simp only [subunits, Option.some.injEq, Prod.mk.injEq, exists_and_left,
    SubunitState.mark_eq_iff type, and_true, Option.isSome_iff_exists]

/-! ### Fields -/

namespace FieldState

/-- **What an operator makes of a field.** -/
def updated (op : Operator) (idx : Nat) (value : Operand U) :
    FieldState S U.UnitType → FieldState S U.UnitType
  | scalar type isSet x => match op, value with
    | .set, .one e => scalar type true ((scalars type).valueOf e)
    | .unset, _ => scalar type false (S.defaultValue type)
    | .inc, .one (.scalar v) => scalar type true ((scalars (U := U) type).added v x)
    | _, _ => scalar type isSet x
  | subunit type s => match op, value with
    | .set, .one e => subunit type ((subunits type).valueOf e)
    | .unset, _ => subunit type ⟨false, none⟩
    | _, _ => subunit type s
  | repeated type f => repeated type (f.updated (scalars type) op idx value)
  | repeatedSubunit type f => repeatedSubunit type (f.updated (subunits type) op idx value)
  | map isSet entries => match op with
    | .unset => map false []
    | _ => map isSet entries

/-- The operator and the value are for such a field. -/
def Accepts (op : Operator) (value : Operand U) : FieldState S U.UnitType → Prop
  | scalar type _ _ => match op, value with
    | .set, .one e => (scalars type).Accepts e
    | .unset, _ => True
    | .inc, .one (.scalar v) => S.isArithmetic v = true ∧ S.isConvertible type v = true
    | _, _ => False
  | subunit type _ => match op, value with
    | .set, .one e => (subunits type).Accepts e
    | .unset, _ => True
    | _, _ => False
  | repeated type _ => RepeatedField.Accepts (scalars type) op value
  | repeatedSubunit type _ => RepeatedField.Accepts (subunits type) op value
  | map _ _ => op = .unset

/-- What is written into does not show through, and what is looked at is set. -/
def Kept (op : Operator) (idx : Nat) (value : Operand U) : FieldState S U.UnitType → Prop
  | subunit type s => match op, value with
    | .set, .one e => (subunits type).AsNew s e
    | _, _ => True
  | repeatedSubunit type f => f.Kept (subunits type) op idx value
  | scalar _ _ _ | repeated _ _ | map _ _ => True

theorem setVal_map_eq_iff {α : Type} {A : RepeatedGetterSetter U α} {x : α} {e : Element U}
    {mk : α → FieldState S U.UnitType} (hmk : ∀ y z, mk y = mk z ↔ y = z) (he : A.Accepts e) :
    (A.setVal x e).map mk = some (mk (A.valueOf e), none) ↔ A.AsNew x e := by
  rw [Outcome.map_eq_some_iff, ← RepeatedGetterSetter.setVal_eq_iff he]
  simp only [hmk, exists_eq_right]

/-- A repeated field of scalars is always kept. -/
theorem kept_scalars {type : S.FieldType} {op : Operator} {idx : Nat} {value : Operand U}
    {f : RepeatedField S.Value} (h : RepeatedField.Accepts (scalars type) op value) :
    f.Kept (scalars type) op idx value := by
  cases op with
  | set =>
    cases value with
    | one e => trivial
    | vector l => exact fun _ _ _ _ _ => asNew_scalars _ _ _
  | replace_element =>
    cases value with
    | one e => exact fun _ _ => asNew_scalars _ _ _
    | vector l => trivial
  | push_unique =>
    cases value with
    | vector l => trivial
    | one e =>
      -- a repeated field of scalars takes no subunit
      cases e with
      | scalar v => exact fun _ hb => by cases hb
      | subunit val => cases h.1
      | subunitBuf val => cases h.1
  | _ => trivial

/-- **A field becomes what the operator makes of it.** -/
theorem handle_eq_iff {op : Operator} {idx : Nat} {value : Operand U}
    {field : FieldState S U.UnitType} (h : field.Accepts op value) :
    field.handle op idx value = some (field.updated op idx value, none) ↔
      field.Kept op idx value := by
  cases field with
  | scalar type isSet x =>
    cases op with
    | set =>
      cases value with
      | vector l => cases h
      | one e =>
        have hmk : ∀ y z : S.Value, scalar (τ := U.UnitType) type true y = scalar type true z ↔
            y = z := by simp
        exact (setVal_map_eq_iff hmk h).trans (iff_of_true (asNew_scalars type x e) trivial)
    | unset => simp [handle, handleSingle, updated, Kept]
    | inc =>
      cases value with
      | vector l => cases h
      | one e =>
        cases e with
        | scalar v =>
          obtain ⟨harith, hconv⟩ := h
          simp [handle, handleSingle, updated, Kept, scalars, RepeatedGetterSetter.added, harith,
            hconv]
        | subunit val => cases h
        | subunitBuf val => cases h
    | _ => cases h
  | subunit type s =>
    cases op with
    | set =>
      cases value with
      | vector l => cases h
      | one e =>
        have hmk : ∀ y z : SubunitState S U.UnitType, subunit type y = subunit type z ↔ y = z := by
          simp
        exact setVal_map_eq_iff hmk h
    | unset => simp [handle, handleSingle, updated, Kept]
    | _ => cases h
  | repeated type f =>
    rw [handle, updated, Kept, iff_true, Outcome.map_eq_some_iff]
    exact ⟨_, (RepeatedField.handle_eq_iff h).mpr (kept_scalars h), rfl⟩
  | repeatedSubunit type f =>
    rw [handle, updated, Kept, Outcome.map_eq_some_iff, ← RepeatedField.handle_eq_iff h]
    simp only [FieldState.repeatedSubunit.injEq, true_and, exists_eq_right]
  | map isSet entries =>
    obtain rfl : op = .unset := h
    simp [handle, handleMap, updated, Kept]

end FieldState

end Hatn.Db.Update
