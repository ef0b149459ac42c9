import Hatn.Dataunit.Reading

/-!
# The round trip of units

What `deserialize` makes of the bytes that `serialize` has written.
-/

namespace Hatn.Dataunit

open Hatn.Common Hatn.Wire Hatn.Wire.Parser

variable {fuel : Nat} {env : Env} {l : List UInt8}

/-! ### Fields of a unit -/

theorem fieldParsers_eq (env : Env) (buf : List UInt8) (fuel : Nat) : ∀ fs : List Field,
    fieldParsers env buf fuel fs = fs.map (Field.parser env buf fuel) := by
  intro fs
  induction fs with
  | nil => rw [fieldParsers, List.map_nil]
  | cons f fs ih => rw [fieldParsers, List.map_cons, ih]

theorem Field.parser_eq (env : Env) (buf : List UInt8) (fuel : Nat) (f : Field) :
    f.parser env buf fuel = ⟨f.id, f.kind.wireType, f.kind.deserialize env buf fuel⟩ := by
  obtain ⟨id, required, kind⟩ := f
  rw [Field.parser]
  rfl

/-- No two fields of a unit have the same id. -/
def UniqueIds (fs : List Field) : Prop := (fs.map Field.id).Nodup

theorem UniqueIds.eq {fs : List Field} (h : UniqueIds fs) {i j : Nat} (hi : i < fs.length)
    (hj : j < fs.length) (he : fs[i].id = fs[j].id) : i = j := by
  have hi' : i < (fs.map Field.id).length := by simpa using hi
  have hj' : j < (fs.map Field.id).length := by simpa using hj
  have hids : (fs.map Field.id)[i] = (fs.map Field.id)[j] := by simpa using he
  exact h.getElem_inj_iff.mp hids

/-- The unit whose fields have the values `cur` of their ids. -/
def slots (fs : List Field) (cur : Nat → FieldValue) : List FieldValue :=
  fs.map (fun f => cur f.id)

theorem slots_set {fs : List Field} (h : UniqueIds fs) {i : Nat} (hi : i < fs.length)
    (cur : Nat → FieldValue) (v : FieldValue) :
    (slots fs cur).set i v = slots fs (Function.update cur fs[i].id v) := by
  apply List.ext_getElem
  · simp [slots]
  · intro j hj hj'
    simp only [slots, List.length_set, List.length_map] at hj hj'
    rw [List.getElem_set]
    simp only [slots, List.getElem_map]
    by_cases hij : i = j
    · subst hij
      rw [if_pos rfl, Function.update_self]
    · rw [if_neg hij, Function.update_of_ne]
      intro he
      exact hij (h.eq hi hj he.symm)

/-- What `findField` finds is one of the fields, with its place. -/
theorem findField_eq_some {fs : List Field} {id : Nat} {buf : List UInt8}
    {p : UnitFieldParser (List FieldValue)}
    (h : findField (fieldParsers env buf fuel fs) id = some p) :
    ∃ i f, fs[i]? = some f ∧ f.id = id ∧ p = ⟨f.kind.wireType, fun x => do
      let v ← f.kind.deserialize env buf fuel (x.getD i .unset)
      return x.set i v⟩ := by
  obtain ⟨⟨q, i⟩, hq, rfl⟩ := Option.map_eq_some_iff.mp h
  have hmem := List.mem_of_find?_eq_some hq
  rw [fieldParsers_eq, List.mem_zipIdx_iff_getElem?, List.getElem?_map, Option.map_eq_some_iff] at hmem
  obtain ⟨f, hf, rfl⟩ := hmem
  refine ⟨i, f, hf, ?_, by rw [Field.parser_eq]⟩
  have hid := List.find?_some hq
  rw [Field.parser_eq] at hid
  simpa using hid

/-- **A field of the unit is found** by its id. -/
theorem slot_of_mem {fs : List Field} (h : UniqueIds fs) {f : Field} (hf : f ∈ fs)
    (cur : Nat → FieldValue) :
    Slot env fuel (fun buf => findField (fieldParsers env buf fuel fs)) f.id f.kind
      (fun v => slots fs (Function.update cur f.id v)) := by
  intro buf
  obtain ⟨j, hj, hfj⟩ := List.getElem_of_mem hf
  have hsome : (findField (fieldParsers env buf fuel fs) f.id).isSome := by
    rw [findField, Option.isSome_map, List.find?_isSome, fieldParsers_eq]
    refine ⟨(f.parser env buf fuel, j), ?_, by simp [Field.parser_eq]⟩
    rw [List.mem_zipIdx_iff_getElem?, List.getElem?_map, List.getElem?_eq_getElem hj, hfj]
    rfl
  obtain ⟨p, hp⟩ := Option.isSome_iff_exists.mp hsome
  obtain ⟨i, g, hg, hid, rfl⟩ := findField_eq_some hp
  obtain ⟨hi, hgi⟩ := List.getElem?_eq_some_iff.mp hg
  have hgf : g = f := by
    have hij : i = j := h.eq hi hj (by rw [hgi, hfj]; exact hid)
    subst hij
    rw [← hgi, ← hfj]
  subst hgf
  refine ⟨_, hp, rfl, fun v => ?_⟩
  have hget : (slots fs (Function.update cur g.id v)).getD i .unset = v := by
    rw [List.getD_eq_getElem?_getD, slots, List.getElem?_map, hg]
    simp
  have hset : ∀ u, (slots fs (Function.update cur g.id v)).set i u =
      slots fs (Function.update cur g.id u) := by
    intro u
    rw [slots_set h hi, hgi, Function.update_idem]
  simp only [hget, hset]

theorem findField_unknown {fs : List Field} {id : Nat} (h : id ∉ fs.map Field.id)
    (buf : List UInt8) : findField (fieldParsers env buf fuel fs) id = none := by
  rw [findField, Option.map_eq_none_iff, List.find?_eq_none]
  intro p hp he
  rw [fieldParsers_eq, List.mem_zipIdx_iff_getElem?, List.getElem?_map, Option.map_eq_some_iff] at hp
  obtain ⟨g, hg, hgp⟩ := hp
  refine h (List.mem_map.mpr ⟨g, List.mem_of_getElem? hg, ?_⟩)
  rw [← hgp, Field.parser_eq] at he
  simpa using he

/-- The values after the fields `fs` have got the values `vs`. -/
def assign (cur : Nat → FieldValue) : List Field → List FieldValue → Nat → FieldValue
  | f :: fs, v :: vs => assign (Function.update cur f.id v) fs vs
  | _, _ => cur

theorem assign_of_not_mem : ∀ {fs : List Field} {vs : List FieldValue} {cur : Nat → FieldValue}
    {id : Nat}, id ∉ fs.map Field.id → assign cur fs vs id = cur id := by
  intro fs
  induction fs with
  | nil => intro vs cur id _; rfl
  | cons f fs ih =>
    intro vs cur id h
    cases vs with
    | nil => rfl
    | cons v vs =>
      rw [List.map_cons, List.mem_cons, not_or] at h
      rw [assign, ih h.2, Function.update_of_ne h.1]

theorem slots_assign : ∀ {fs : List Field} {vs : List FieldValue} (cur : Nat → FieldValue),
    UniqueIds fs → fs.length = vs.length → slots fs (assign cur fs vs) = vs := by
  intro fs
  induction fs with
  | nil =>
    intro vs cur _ hl
    exact (List.eq_nil_of_length_eq_zero hl.symm).symm
  | cons f fs ih =>
    intro vs cur hu hl
    cases vs with
    | nil => cases hl
    | cons v vs =>
      obtain ⟨hf, hu⟩ := List.nodup_cons.mp hu
      rw [slots, List.map_cons, assign]
      congr 1
      · rw [assign_of_not_mem hf, Function.update_self]
      · exact ih _ hu (by simpa using hl)

/-! ### Reading whole values -/

/-- The writers give this field what the readers need: a tag that they can read, no
element that is not set, and elements where they are packed. -/
def Readable (id : Nat) (k : FieldKind) (v : FieldValue) : Prop :=
  TagFits id k.wireType ∧ none ∉ v.elements ∧
    ∀ t, k = .packed t → v.elements ≠ []

theorem ElemType.form_ne_nil {t : ElemType} {v : Value} (h : t.Form v l) : l ≠ [] := by
  have hsize : ∀ (n : Nat) (x : List UInt8), packUint32 n ++ x ≠ [] := fun n =>
    List.append_ne_nil_of_left_ne_nil (List.length_pos_iff.mp (packUint32_form n).length_pos)
  match t, v with
  | .scalar t, .datum (.num n) =>
    rw [show l = scalarBytes t n from h]
    exact scalarBytes_ne_nil t n
  | .bytes _, .datum (.bytes x) =>
    rw [show l = packUint32 x.length ++ x from h]
    exact hsize _ _
  | .objectId, .datum (.oid x) =>
    rw [show l = packUint32 ObjectId.length ++ x.serialize from h]
    exact hsize _ _
  | .unit fs, .unit vs =>
    obtain ⟨_, _, -, -, rfl⟩ := h
    exact List.append_ne_nil_of_left_ne_nil (List.ne_nil_of_length_pos (by simp)) _
  | .scalar _, .datum (.bytes _) | .scalar _, .datum (.oid _) | .scalar _, .unit _ => exact h.elim
  | .bytes _, .datum (.num _) | .bytes _, .datum (.oid _) | .bytes _, .unit _ => exact h.elim
  | .objectId, .datum (.bytes _) | .objectId, .datum (.num _) | .objectId, .unit _ => exact h.elim
  | .unit _, .datum _ => exact h.elim

theorem fieldsHold_length : ∀ {fs : List Field} {vs : List FieldValue}, fieldsHold env fs vs →
    fs.length = vs.length
  | [], [], _ => rfl
  | _ :: _, _ :: _, h => congrArg Nat.succ (fieldsHold_length h.2)
  | [], _ :: _, h | _ :: _, [], h => h.elim

theorem fieldsSeen_length : ∀ {fs : List Field} {vs us : List FieldValue},
    fs.length = vs.length → fieldsSeen fs vs = .ok us → us.length = vs.length
  | [], [], _, _, h => by
    cases h
    rfl
  | f :: fs, v :: vs, us, hl, h => by
    rw [fieldsSeen] at h
    cases hu : f.seen v with
    | error e => rw [hu] at h; cases h
    | ok u =>
      cases hus : fieldsSeen fs vs with
      | error e => rw [hu, hus] at h; cases h
      | ok ws =>
        rw [hu, hus] at h
        cases h
        exact congrArg Nat.succ (fieldsSeen_length (Nat.succ.inj hl) hus)
  | [], _ :: _, _, hl, _ | _ :: _, [], _, hl, _ => nomatch hl

theorem slots_seen {fs : List Field} {vs : List FieldValue} (cur : Nat → FieldValue)
    (hu : UniqueIds fs) (hl : fs.length = vs.length) :
    (fieldsSeen fs vs).map (fun us => slots fs (assign cur fs us)) = fieldsSeen fs vs := by
  cases hus : fieldsSeen fs vs with
  | error e => rfl
  | ok us => rw [Except.map, slots_assign cur hu (by rw [hl, fieldsSeen_length hl hus])]

theorem ok_bind {ε α β : Type} (a : α) (f : α → Except ε β) : (Except.ok a >>= f) = f a := rfl

/-! ### What is not seen is rejected -/

theorem elementsSeen_error {seen : Value → Except Failure Value} {e : Failure} :
    ∀ {vs : List (Option Value)}, (∀ v e, some v ∈ vs → seen v = .error e → e = .rejected) →
    elementsSeen seen vs = .error e → e = .rejected := by
  intro vs
  induction vs with
  | nil => intro _ h; cases h
  | cons v vs ih =>
    intro hv h
    cases v with
    | none => exact (Except.error.inj h).symm
    | some v =>
      rw [elementsSeen] at h
      cases hu : seen v with
      | error e' =>
        rw [hu] at h
        cases h
        exact hv v e (by simp) hu
      | ok u =>
        cases hus : elementsSeen seen vs with
        | error e' =>
          rw [hu, hus] at h
          cases h
          exact ih (fun w e hw => hv w e (List.mem_cons_of_mem _ hw)) hus
        | ok us =>
          rw [hu, hus] at h
          cases h

theorem map_error {ε α β : Type} {f : α → β} {r : Except ε α} {e : ε} (h : r.map f = .error e) :
    r = .error e := by
  cases r with
  | error e' =>
    cases h
    rfl
  | ok a => cases h

mutual

theorem ElemType.seen_error : ∀ {t : ElemType} {v : Value} {e : Failure}, t.seen v = .error e →
    e = .rejected
  | .scalar _, _, _, h | .bytes _, _, _, h | .objectId, _, _, h | .unit _, .datum _, _, h => nomatch h
  | .unit fs, .unit vs, e, h => by
    rw [ElemType.seen] at h
    cases hus : fieldsSeen fs vs with
    | error e' =>
      rw [hus] at h
      cases h
      exact fieldsSeen_error hus
    | ok us =>
      rw [hus, ok_bind] at h
      split at h
      · cases h
      · exact (Except.error.inj h).symm

theorem FieldKind.seen_error : ∀ {k : FieldKind} {v : FieldValue} {e : Failure},
    k.seen v = .error e → e = .rejected
  | .single _, .single _, _, h => ElemType.seen_error (map_error h)
  | .counted _, .repeated _, _, h =>
    elementsSeen_error (fun _ _ _ hv => ElemType.seen_error hv) (map_error h)
  | .unpacked t, .repeated vs, e, h => by
    rw [FieldKind.seen] at h
    split at h
    · cases h
    · exact elementsSeen_error (fun _ _ _ hv => ElemType.seen_error hv) (map_error h)
  | .map _ _, .map es, e, h => by
    rw [FieldKind.seen] at h
    split at h <;> cases h
  | .single _, .unset, _, h | .single _, .repeated _, _, h | .single _, .map _, _, h => nomatch h
  | .counted _, .unset, _, h | .counted _, .single _, _, h | .counted _, .map _, _, h => nomatch h
  | .unpacked _, .unset, _, h | .unpacked _, .single _, _, h | .unpacked _, .map _, _, h => nomatch h
  | .packed _, _, _, h => nomatch h
  | .map _ _, .unset, _, h | .map _ _, .single _, _, h | .map _ _, .repeated _, _, h => nomatch h

theorem Field.seen_error : ∀ {f : Field} {v : FieldValue} {e : Failure}, f.seen v = .error e →
    e = .rejected
  | .mk _ _ _, _, _, h => FieldKind.seen_error h

theorem fieldsSeen_error : ∀ {fs : List Field} {vs : List FieldValue} {e : Failure},
    fieldsSeen fs vs = .error e → e = .rejected
  | [], _, _, h | _ :: _, [], _, h => nomatch h
  | f :: fs, v :: vs, e, h => by
    rw [fieldsSeen] at h
    cases hu : f.seen v with
    | error e' =>
      rw [hu] at h
      cases h
      exact Field.seen_error hu
    | ok u =>
      cases hus : fieldsSeen fs vs with
      | error e' =>
        rw [hu, hus] at h
        cases h
        exact fieldsSeen_error hus
      | ok us =>
        rw [hu, hus] at h
        cases h

end

/-! ### Fields in any order -/

/-- A field on the wire: what is seen of it, and its bytes. -/
structure Part where
  id : Nat
  seen : Except Failure FieldValue
  bytes : List UInt8

/-- The fields of a unit with their bytes. -/
def unitParts : List Field → List FieldValue → List (List UInt8) → List Part
  | f :: fs, v :: vs, x :: xs => ⟨f.id, f.seen v, x⟩ :: unitParts fs vs xs
  | _, _, _ => []

/-- A reader of units with the fields `known` takes the part as it is seen. -/
def Part.Taken (fuel : Nat) (env : Env) (known : List Field) (p : Part) : Prop :=
  ∀ cur : Nat → FieldValue, cur p.id = .unset →
    Rounds (Within fuel) (fun x buf => fieldRound (findField (fieldParsers env buf fuel known)) buf x)
      p.bytes (slots known cur)
      (p.seen.map (fun u => slots known (Function.update cur p.id u)))

/-- What the parts make of a unit, in their order. -/
def partsSeen (known : List Field) : (Nat → FieldValue) → List Part →
    Except Failure (List FieldValue)
  | cur, [] => .ok (slots known cur)
  | cur, p :: ps => do
    let u ← p.seen
    partsSeen known (Function.update cur p.id u) ps

theorem rounds_parts {known : List Field} : ∀ {ps : List Part} {cur : Nat → FieldValue},
    (∀ p ∈ ps, p.Taken fuel env known) → (ps.map Part.id).Nodup → (∀ p ∈ ps, cur p.id = .unset) →
    Rounds (Within fuel) (fun x buf => fieldRound (findField (fieldParsers env buf fuel known)) buf x)
      (ps.flatMap Part.bytes) (slots known cur) (partsSeen known cur ps) := by
  intro ps
  induction ps with
  | nil => intro cur _ _ _; exact .nil
  | cons p ps ih =>
    intro cur ht hn hcur
    obtain ⟨hp, hn⟩ := List.nodup_cons.mp hn
    have hfirst := ht p (by simp) cur (hcur p (by simp))
    rw [List.flatMap_cons, partsSeen]
    cases hu : p.seen with
    | error e =>
      rw [hu] at hfirst
      have hall : Rounds (Within fuel) _ (p.bytes ++ ps.flatMap Part.bytes) (slots known cur)
          (Except.error e >>= fun _ => .error e) := hfirst.append nofun
      exact hall
    | ok u =>
      rw [hu] at hfirst
      have hrest := @ih (Function.update cur p.id u)
        (fun q hq => ht q (List.mem_cons_of_mem _ hq)) hn
        (fun q hq => by
          rw [Function.update_of_ne, hcur q (List.mem_cons_of_mem _ hq)]
          intro he
          exact hp (List.mem_map.mpr ⟨q, hq, he⟩))
      exact hfirst.append fun y hy => by
        cases hy
        exact hrest

/-- **The order of the parts does not matter.** -/
theorem partsSeen_perm {known : List Field} {ps qs : List Part} (h : ps.Perm qs) :
    (ps.map Part.id).Nodup → (∀ p ∈ ps, ∀ e, p.seen = .error e → e = .rejected) →
    ∀ cur, partsSeen known cur ps = partsSeen known cur qs := by
  induction h with
  | nil => intro _ _ cur; rfl
  | cons p _ ih =>
    intro hn he cur
    rw [partsSeen, partsSeen]
    cases p.seen with
    | error e => rfl
    | ok u =>
      exact ih (List.nodup_cons.mp hn).2 (fun q hq => he q (List.mem_cons_of_mem _ hq)) _
  | swap p q l =>
    intro hn he cur
    have hne : q.id ≠ p.id := by
      intro h
      rw [List.map_cons, List.map_cons, h] at hn
      exact (List.nodup_cons.mp hn).1 (by simp)
    simp only [partsSeen]
    cases hq : q.seen with
    | error e =>
      cases hp : p.seen with
      | error e' =>
        rw [he q (by simp) e hq, he p (by simp) e' hp]
        rfl
      | ok u => rfl
    | ok w =>
      cases hp : p.seen with
      | error e' => rfl
      | ok u =>
        simp only [ok_bind]
        rw [Function.update_comm hne]
  | trans h₁ _ ih₁ ih₂ =>
    intro hn he cur
    rw [ih₁ hn he cur]
    exact ih₂ ((h₁.map Part.id).nodup_iff.mp hn) (fun p hp => he p (h₁.mem_iff.mpr hp)) cur

theorem partsSeen_unit {known : List Field} : ∀ {fs : List Field} {vs : List FieldValue}
    {xs : List (List UInt8)} {cur : Nat → FieldValue}, fieldForms fs vs xs →
    partsSeen known cur (unitParts fs vs xs) =
      (fieldsSeen fs vs).map (fun us => slots known (assign cur fs us)) := by
  intro fs
  induction fs with
  | nil => intro vs xs cur _; rfl
  | cons f fs ih =>
    intro vs xs cur h
    cases vs with
    | nil => rfl
    | cons v vs =>
      obtain ⟨x, rest, -, hrest, rfl⟩ := h
      rw [unitParts, partsSeen, fieldsSeen]
      cases hu : f.seen v with
      | error e => rfl
      | ok u =>
        rw [ok_bind, ih hrest]
        cases fieldsSeen fs vs <;> rfl

theorem unitParts_bytes : ∀ {fs : List Field} {vs : List FieldValue} {xs : List (List UInt8)},
    fieldForms fs vs xs → (unitParts fs vs xs).map Part.bytes = xs := by
  intro fs
  induction fs with
  | nil =>
    intro vs xs h
    exact h.symm
  | cons f fs ih =>
    intro vs xs h
    cases vs with
    | nil => exact h.symm
    | cons v vs =>
      obtain ⟨x, rest, -, hrest, rfl⟩ := h
      rw [unitParts, List.map_cons, ih hrest]

theorem unitParts_ids : ∀ {fs : List Field} {vs : List FieldValue} {xs : List (List UInt8)},
    ((unitParts fs vs xs).map Part.id).Sublist (fs.map Field.id) := by
  intro fs
  induction fs with
  | nil => intro vs xs; exact .slnil
  | cons f fs ih =>
    intro vs xs
    cases vs with
    | nil => exact List.nil_sublist _
    | cons v vs =>
      cases xs with
      | nil => exact List.nil_sublist _
      | cons x xs => exact ih.cons_cons _

theorem unitParts_seen : ∀ {fs : List Field} {vs : List FieldValue} {xs : List (List UInt8)},
    ∀ p ∈ unitParts fs vs xs, ∀ e, p.seen = .error e → e = .rejected := by
  intro fs
  induction fs with
  | nil => intro vs xs p hp; cases hp
  | cons f fs ih =>
    intro vs xs p hp e he
    cases vs with
    | nil => cases hp
    | cons v vs =>
      cases xs with
      | nil => cases hp
      | cons x xs =>
        rcases List.mem_cons.mp hp with rfl | hp
        · exact Field.seen_error he
        · exact ih p hp e he

/-- A list that is an image up to order is the image of a list up to order. -/
theorem exists_perm_of_perm_map {α β : Type} {f : α → β} {m l : List β} (h : m.Perm l) :
    ∀ {as : List α}, as.map f = l → ∃ bs : List α, bs.Perm as ∧ bs.map f = m := by
  induction h with
  | nil => intro as ha; exact ⟨as, .refl _, ha⟩
  | cons x _ ih =>
    intro as ha
    obtain ⟨a, as', has, hax, ha'⟩ := List.map_eq_cons_iff.mp ha
    obtain ⟨bs, hb, hm⟩ := ih ha'
    refine ⟨a :: bs, has ▸ hb.cons a, ?_⟩
    rw [List.map_cons, hax, hm]
  | swap x y l =>
    intro as ha
    obtain ⟨a, as', has, hax, ha'⟩ := List.map_eq_cons_iff.mp ha
    obtain ⟨b, as'', has', hby, hl⟩ := List.map_eq_cons_iff.mp ha'
    refine ⟨b :: a :: as'', ?_, ?_⟩
    · rw [has, has']
      exact .swap a b as''
    · rw [List.map_cons, List.map_cons, hax, hby, hl]
  | trans _ _ ih₁ ih₂ =>
    intro as ha
    obtain ⟨bs, hb, hm⟩ := ih₂ ha
    obtain ⟨cs, hc, hm'⟩ := ih₁ hm
    exact ⟨cs, hc.trans hb, hm'⟩

/-- **The fields of a unit are read in any order.** -/
theorem rounds_unit {fs : List Field} {vs : List FieldValue} {xs order : List (List UInt8)}
    (hu : UniqueIds fs) (hv : fieldsHold env fs vs) (hx : fieldForms fs vs xs)
    (ht : ∀ p ∈ unitParts fs vs xs, p.Taken fuel env fs) (ho : order.Perm xs) :
    Rounds (Within fuel) (fun x buf => fieldRound (findField (fieldParsers env buf fuel fs)) buf x)
      order.flatten (freshFields fs) (fieldsSeen fs vs) := by
  obtain ⟨ps, hps, rfl⟩ := exists_perm_of_perm_map ho (unitParts_bytes hx)
  have hn : ((unitParts fs vs xs).map Part.id).Nodup := unitParts_ids.nodup hu
  have hn' : (ps.map Part.id).Nodup := (hps.map Part.id).nodup_iff.mpr hn
  have hrounds := @rounds_parts fuel env fs ps (fun _ => .unset)
    (fun p hp => ht p (hps.mem_iff.mp hp)) hn' (fun _ _ => rfl)
  rw [partsSeen_perm hps hn' fun p hp => unitParts_seen p (hps.mem_iff.mp hp), partsSeen_unit hx,
    slots_seen _ hu (fieldsHold_length hv)] at hrounds
  exact hrounds

/-! ### Reading whole values -/

theorem length_le_flatten {xs order : List (List UInt8)} (h : order.Perm xs) {x : List UInt8}
    (hx : x ∈ xs) : x.length ≤ order.flatten.length :=
  (List.sublist_flatten_of_mem (h.mem_iff.mpr hx)).length_le

mutual

/-- **Elements** are read as they are seen. -/
theorem ElemType.readsItem : ∀ (t : ElemType) (v : Value), t.EachUnit UniqueIds →
    t.Holds env v → t.EachSet Readable v →
    ReadsItem fuel (fun buf => t.read env buf fuel t.fresh) t.Form t.seen v
  | .scalar t, .datum (.num n), _, hv, _ => by
    intro l he _
    refine ⟨ElemType.form_ne_nil he, ?_⟩
    cases he
    simp only [ElemType.read]
    exact Reads.map (fun n => Value.datum (.num n)) (reads_scalar hv)
  | .bytes m, .datum (.bytes x), _, hv, _ => by
    intro l he hl
    refine ⟨ElemType.form_ne_nil he, ?_⟩
    cases he
    rw [List.length_append] at hl
    simp only [ElemType.read]
    exact Reads.map (fun x => Value.datum (.bytes x)) (reads_bytes hv (by omega))
  | .objectId, .datum (.oid x), _, hv, _ => by
    intro l he _
    refine ⟨ElemType.form_ne_nil he, ?_⟩
    cases he
    simp only [ElemType.read]
    exact Reads.map (fun x => Value.datum (.oid x)) (reads_objectId hv)
  | .unit fs, .unit vs, hu, hv, hr => by
    intro l he hl
    refine ⟨ElemType.form_ne_nil he, ?_⟩
    obtain ⟨xs, order, hx, ho, rfl⟩ := he
    rw [unitBytes, List.length_append] at hl
    have htaken := fieldsTaken fs fs vs xs hu.1 (fun _ h => h) hu.2 hv hr hx
      (fun x hm => by have := length_le_flatten ho hm; omega)
    have hrounds := rounds_unit hu.1 hv hx htaken ho
    have hread := Reads.map Value.unit (reads_unit (requiredSet fs) hrounds (by omega))
    simp only [ElemType.read, ElemType.seen, ElemType.fresh, currentFields]
    cases hus : fieldsSeen fs vs with
    | error e =>
      rw [hus] at hread
      exact hread
    | ok us =>
      rw [hus] at hread
      by_cases hc : requiredSet fs us = true
      · simpa only [Except.map, ok_bind, if_pos hc] using hread
      · simpa only [Except.map, ok_bind, if_neg hc] using hread
  | .scalar _, .datum (.bytes _), _, hv, _ | .scalar _, .datum (.oid _), _, hv, _
  | .scalar _, .unit _, _, hv, _ => hv.elim
  | .bytes _, .datum (.num _), _, hv, _ | .bytes _, .datum (.oid _), _, hv, _
  | .bytes _, .unit _, _, hv, _ => hv.elim
  | .objectId, .datum (.bytes _), _, hv, _ | .objectId, .datum (.num _), _, hv, _
  | .objectId, .unit _, _, hv, _ => hv.elim
  | .unit _, .datum _, _, hv, _ => hv.elim

/-- **A set field** is read in rounds of the loop. -/
theorem FieldKind.rounds {α : Type} {find : List UInt8 → Nat → Option (UnitFieldParser α)}
    {id : Nat} {set : FieldValue → α} : ∀ (k : FieldKind) (v : FieldValue) {l : List UInt8},
    Slot env fuel find id k set → k.EachUnit UniqueIds → k.Holds env v → k.EachSet Readable v →
    Readable id k v → k.Form id v l → l.length < 2 ^ 31 →
    Rounds (Within fuel) (fun x buf => fieldRound (find buf) buf x) l (set .unset)
      ((k.seen v).map set)
  | .single t, .single v, l, hs, hu, hv, hr, hp, he, hl => by
    obtain ⟨b, hb, rfl⟩ := he
    rw [List.length_append] at hl
    obtain ⟨-, hread⟩ := t.readsItem v hu hv hr b hb (by omega)
    refine .single (tagBytes_append_ne_nil _ _ _)
      (hs.reads hp.1 .unset ?_)
    simp only [FieldKind.deserialize, FieldKind.seen]
    exact Reads.map FieldValue.single hread
  | .counted t, .repeated vs, l, hs, hu, hv, hr, hp, he, hl => by
    obtain ⟨b, hb, rfl⟩ := he
    rw [List.length_append] at hl
    rw [List.append_assoc]
    refine .single (tagBytes_append_ne_nil _ _ _)
      (hs.reads hp.1 .unset ?_)
    simp only [FieldKind.deserialize, FieldKind.seen]
    exact reads_counted (fun v hm => t.readsItem v hu (hv.2 v hm) (hr v hm)) hp.2.1 hb (by omega)
  | .unpacked t, .repeated vs, l, hs, hu, hv, hr, hp, he, hl => by
    have hrounds := hs.rounds_unpacked hp.1 .unset
      (fun v hm => t.readsItem v hu (hv.2 v hm) (hr v hm)) hp.2.1 he hl
    rw [FieldKind.seen]
    cases vs with
    | nil => exact hrounds
    | cons v vs =>
      rw [List.isEmpty_cons, if_neg Bool.false_ne_true]
      cases hus : elementsSeen (fun v => t.seen v) (v :: vs) <;> rw [hus] at hrounds <;> exact hrounds
  | .packed t, .repeated vs, l, hs, _, hv, _, hp, he, hl => by
    obtain ⟨b, hb, rfl⟩ := he
    have hlen : b.length ≤ (packedBytes b).length := by
      rw [packedBytes, List.length_append]
      omega
    rw [List.length_append] at hl
    refine .single (tagBytes_append_ne_nil _ _ _)
      (hs.reads hp.1 .unset ?_)
    simp only [FieldKind.deserialize, FieldKind.seen]
    exact reads_packed (hp.2.2 t rfl) hv hb (by omega)
  | .map key value, .map es, l, hs, _, hv, _, hp, he, hl => by
    have hrounds := hs.rounds_map hp.1 .unset hv.1 hv.2 nofun he hl
    rw [FieldKind.seen]
    cases es <;> exact hrounds
  | .single _, .unset, _, _, _, _, _, _, he, _ | .single _, .repeated _, _, _, _, _, _, _, he, _
  | .single _, .map _, _, _, _, _, _, _, he, _ => he.elim
  | .counted _, .unset, _, _, _, _, _, _, he, _ | .counted _, .single _, _, _, _, _, _, _, he, _
  | .counted _, .map _, _, _, _, _, _, _, he, _ => he.elim
  | .unpacked _, .unset, _, _, _, _, _, _, he, _ | .unpacked _, .single _, _, _, _, _, _, _, he, _
  | .unpacked _, .map _, _, _, _, _, _, _, he, _ => he.elim
  | .packed _, .unset, _, _, _, _, _, _, he, _ | .packed _, .single _, _, _, _, _, _, _, he, _
  | .packed _, .map _, _, _, _, _, _, _, he, _ => he.elim
  | .map _ _, .unset, _, _, _, _, _, _, he, _ | .map _ _, .single _, _, _, _, _, _, _, he, _
  | .map _ _, .repeated _, _, _, _, _, _, _, he, _ => he.elim

theorem Field.rounds {α : Type} {find : List UInt8 → Nat → Option (UnitFieldParser α)}
    {set : FieldValue → α} : ∀ (f : Field) (v : FieldValue) {l : List UInt8},
    Slot env fuel find f.id f.kind set → f.EachUnit UniqueIds → f.Holds env v →
    f.EachSet Readable v → f.Form v l → l.length < 2 ^ 31 →
    Rounds (Within fuel) (fun x buf => fieldRound (find buf) buf x) l (set .unset)
      ((f.seen v).map set)
  | .mk id required kind, v, l, hs, hu, hv, hr, he, hl => by
    by_cases hset : v.isSet = true
    · have hk : kind.Form id v l := by
        cases v with
        | unset => cases hset
        | single | repeated | map => exact he
      exact kind.rounds v hs hu hv hr.2 (hr.1 hset) hk hl
    · cases v with
      | unset =>
        obtain ⟨-, rfl⟩ : required = false ∧ l = [] := he
        have hseen : (Field.mk id required kind).seen .unset = .ok .unset := by
          cases kind <;> rfl
        rw [hseen]
        exact .nil
      | single | repeated | map => exact absurd rfl hset

/-- **The fields of a unit** are taken as they are seen. -/
theorem fieldsTaken : ∀ (known fs : List Field) (vs : List FieldValue) (xs : List (List UInt8)),
    UniqueIds known → (∀ f ∈ fs, f ∈ known) → fieldsEachUnit UniqueIds fs → fieldsHold env fs vs →
    EachSet Readable fs vs → fieldForms fs vs xs → (∀ x ∈ xs, x.length < 2 ^ 31) →
    ∀ p ∈ unitParts fs vs xs, p.Taken fuel env known
  | known, f :: fs, v :: vs, _, hk, hsub, hu, hv, hr, hx, hl, p, hp => by
    obtain ⟨x, rest, hx, hrest, rfl⟩ := hx
    rcases List.mem_cons.mp hp with rfl | hp
    · intro cur hcur
      have hstart : Function.update cur f.id .unset = cur := by
        rw [← hcur, Function.update_eq_self]
      have hrounds := f.rounds v (slot_of_mem hk (hsub f (by simp)) cur) hu.1 hv.1 hr.1 hx
        (hl x (by simp))
      rw [hstart] at hrounds
      exact hrounds
    · exact fieldsTaken known fs vs rest hk (fun g hg => hsub g (List.mem_cons_of_mem _ hg)) hu.2
        hv.2 hr.2 hrest (fun y hy => hl y (List.mem_cons_of_mem _ hy)) p hp
  | _, [], [], _, _, _, _, _, _, _, _, _, hp => nomatch hp
  | _, [], _ :: _, _, _, _, _, hv, _, _, _, _, _ => hv.elim
  | _, _ :: _, [], _, _, _, _, hv, _, _, _, _, _ => hv.elim

end

/-- **What `deserialize` makes of the fields of a unit in any order**, when their tags can
be read. -/
theorem outcome_deserialize_form {fs : List Field} {vs : List FieldValue}
    {xs order : List (List UInt8)} (hu : EachUnit UniqueIds fs) (hv : fieldsHold env fs vs)
    (hr : EachSet Readable fs vs) (hx : fieldForms fs vs xs) (ho : order.Perm xs)
    (hl : order.flatten.length < 2 ^ 31) (hf : order.flatten.length < fuel) :
    (deserialize env fs order.flatten fuel).outcome 0 =
      (seen fs vs).map (fun us => (us, order.flatten.length)) := by
  have htaken : ∀ p ∈ unitParts fs vs xs, p.Taken fuel env fs := fieldsTaken fs fs vs xs hu.1 (fun _ h => h) hu.2 hv hr hx
    (fun x hm => by have := length_le_flatten ho hm; omega)
  have hrounds := @rounds_unit fuel env fs vs xs order hu.1 hv hx htaken ho
  have hread := outcome_deserializeFields hrounds (requiredSet fs) ⟨hl, hf⟩ (Nat.zero_le _)
    (List.append_nil _).symm
  rw [Nat.zero_add] at hread
  exact hread

/-- **What `deserialize` makes of the bytes of a value**, when their tags can be read. -/
theorem outcome_deserialize {fs : List Field} {vs : List FieldValue} (hu : EachUnit UniqueIds fs)
    (hv : fieldsHold env fs vs) (hr : EachSet Readable fs vs) (he : encodeFields fs vs = some l)
    (hl : l.length < 2 ^ 31) (hf : l.length < fuel) :
    (deserialize env fs l fuel).outcome 0 = (seen fs vs).map (fun us => (us, l.length)) := by
  obtain ⟨xs, hx, rfl⟩ := fieldForms_of_encode fs vs he
  exact outcome_deserialize_form hu hv hr hx (.refl _) hl hf

end Hatn.Dataunit
