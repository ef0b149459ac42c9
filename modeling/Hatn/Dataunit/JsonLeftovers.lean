import Hatn.Dataunit.JsonReading

/-!
# What a unit keeps when JSON is loaded into it

`loadFromJSON` clears the unit first, but `clear` leaves the flags of the fields as they
are, and those within subunits that were set before.  `Same` compares two units of a schema,
`Agrees` says of two units with any contents that loading cannot tell them apart.
-/

namespace Hatn.Dataunit.Json

open Hatn.Json

/-! ### Units that are the same -/

mutual

/-- Two fields have the same flag and the same value.  The content of a subunit without one is
that of a new unit. -/
def FieldKind.Same : FieldKind → FieldObject → FieldObject → Prop
  | .plain _ _, .plain b v, .plain b' v' => b = b' ∧ v = v'
  | .subunit fs, .subunit b x, .subunit b' x' =>
    b = b' ∧ Same fs (x.getD (construct fs)) (x'.getD (construct fs))
  | .array _, .array b l, .array b' l' => b = b' ∧ l = l'
  | .units _, .units b l, .units b' l' => b = b' ∧ l = l'
  | .map, .map b, .map b' => b = b'
  | _, _, _ => False

def Same : List Field → UnitObject → UnitObject → Prop
  | [], [], [] => True
  | .mk _ _ kind :: fs, x :: xs, x' :: xs' => kind.Same x x' ∧ Same fs xs xs'
  | _, _, _ => False

end

mutual

/-- As `Same`, but of a subunit that is not set only the flag is looked at. -/
def FieldKind.SameSeen : FieldKind → FieldObject → FieldObject → Prop
  | .plain _ _, .plain b v, .plain b' v' => b = b' ∧ v = v'
  | .subunit fs, .subunit b x, .subunit b' x' =>
    b = b' ∧ (b = true → SameSeen fs (x.getD (construct fs)) (x'.getD (construct fs)))
  | .array _, .array b l, .array b' l' => b = b' ∧ l = l'
  | .units _, .units b l, .units b' l' => b = b' ∧ l = l'
  | .map, .map b, .map b' => b = b'
  | _, _, _ => False

def SameSeen : List Field → UnitObject → UnitObject → Prop
  | [], [], [] => True
  | .mk _ _ kind :: fs, x :: xs, x' :: xs' => kind.SameSeen x x' ∧ SameSeen fs xs xs'
  | _, _, _ => False

end

mutual

theorem FieldKind.Same.seen : ∀ {kind : FieldKind} {x x' : FieldObject}, kind.Same x x' →
    kind.SameSeen x x'
  | .plain _ _, .plain _ _, .plain _ _, h => h
  | .subunit _, .subunit _ _, .subunit _ _, h => ⟨h.1, fun _ => Same.seen h.2⟩
  | .array _, .array _ _, .array _ _, h => h
  | .units _, .units _ _, .units _ _, h => h
  | .map, .map _, .map _, h => h

theorem Same.seen : ∀ {fs : List Field} {u u' : UnitObject}, Same fs u u' → SameSeen fs u u'
  | [], [], [], _ => trivial
  | .mk _ _ _ :: _, _ :: _, _ :: _, h => ⟨h.1.seen, Same.seen h.2⟩

end

mutual

theorem FieldKind.same_construct : ∀ kind : FieldKind, kind.Same kind.construct kind.construct
  | .plain _ _ => ⟨rfl, rfl⟩
  | .subunit fs => ⟨rfl, same_construct fs⟩
  | .array _ => ⟨rfl, rfl⟩
  | .units _ => ⟨rfl, rfl⟩
  | .map => rfl

theorem same_construct : ∀ fs : List Field, Same fs (construct fs) (construct fs)
  | [] => trivial
  | .mk _ _ kind :: fs => ⟨kind.same_construct, same_construct fs⟩

end

/-! ### Units that agree before they are cleared -/

mutual

/-- When it is cleared, the field is as a new one: no flag is set in it, and no default value
is lost. -/
def FieldKind.LikeNew : FieldKind → FieldObject → Prop
  | .plain t default?, .plain b _ => b = false ∧ t.zero = default?.getD t.zero
  | .subunit _, .subunit _ none => True
  | .subunit fs, .subunit _ (some u) => LikeNew fs u
  | .array _, .array b _ => b = false
  | .units _, .units b _ => b = false
  | .map, .map b => b = false
  | _, _ => False

def LikeNew : List Field → UnitObject → Prop
  | [], [] => True
  | .mk _ _ kind :: fs, x :: xs => kind.LikeNew x ∧ LikeNew fs xs
  | _, _ => False

end

mutual

/-- Two fields have the same flag, and subunits have the same flags within, set or not; a
subunit with a content agrees with one without if the content is like a new one. -/
def FieldKind.Agrees : FieldKind → FieldObject → FieldObject → Prop
  | .plain _ _, .plain b _, .plain b' _ => b = b'
  | .subunit _, .subunit _ none, .subunit _ none => True
  | .subunit fs, .subunit _ (some u), .subunit _ none => LikeNew fs u
  | .subunit fs, .subunit _ none, .subunit _ (some u) => LikeNew fs u
  | .subunit fs, .subunit _ (some u), .subunit _ (some u') => Agrees fs u u'
  | .array _, .array b _, .array b' _ => b = b'
  | .units _, .units b _, .units b' _ => b = b'
  | .map, .map b, .map b' => b = b'
  | _, _, _ => False

def Agrees : List Field → UnitObject → UnitObject → Prop
  | [], [], [] => True
  | .mk _ _ kind :: fs, x :: xs, x' :: xs' => kind.Agrees x x' ∧ Agrees fs xs xs'
  | _, _, _ => False

end

mutual

theorem FieldKind.likeNew_iff : ∀ (kind : FieldKind) (x : FieldObject),
    kind.LikeNew x ↔ kind.Same (kind.clear x) kind.construct
  | .plain t d, x => by cases x <;> simp [FieldKind.LikeNew, FieldKind.clear, FieldKind.Same, FieldKind.construct]
  | .subunit fs, x => by
    cases x with
    | subunit b u =>
      cases u with
      | none => exact (true_iff _).mpr ⟨rfl, same_construct fs⟩
      | some u => exact (likeNew_iff fs u).trans (and_iff_right rfl).symm
    | _ => simp [FieldKind.LikeNew, FieldKind.clear, FieldKind.Same, FieldKind.construct]
  | .array t, x => by cases x <;> simp [FieldKind.LikeNew, FieldKind.clear, FieldKind.Same, FieldKind.construct]
  | .units fs, x => by cases x <;> simp [FieldKind.LikeNew, FieldKind.clear, FieldKind.Same, FieldKind.construct]
  | .map, x => by cases x <;> simp [FieldKind.LikeNew, FieldKind.clear, FieldKind.Same, FieldKind.construct]

theorem likeNew_iff : ∀ (fs : List Field) (u : UnitObject),
    LikeNew fs u ↔ Same fs (clear fs u) (construct fs)
  | [], [] => Iff.rfl
  | [], _ :: _ => Iff.rfl
  | .mk _ _ _ :: _, [] => Iff.rfl
  | .mk _ _ kind :: fs, x :: xs => and_congr (kind.likeNew_iff x) (likeNew_iff fs xs)

end

mutual

theorem FieldKind.Same.symm : ∀ {kind : FieldKind} {x x' : FieldObject}, kind.Same x x' →
    kind.Same x' x
  | .plain _ _, .plain _ _, .plain _ _, h => ⟨h.1.symm, h.2.symm⟩
  | .subunit _, .subunit _ _, .subunit _ _, h => ⟨h.1.symm, Same.symm h.2⟩
  | .array _, .array _ _, .array _ _, h => ⟨h.1.symm, h.2.symm⟩
  | .units _, .units _ _, .units _ _, h => ⟨h.1.symm, h.2.symm⟩
  | .map, .map _, .map _, h => Eq.symm h

theorem Same.symm : ∀ {fs : List Field} {u u' : UnitObject}, Same fs u u' → Same fs u' u
  | [], [], [], _ => trivial
  | .mk _ _ _ :: _, _ :: _, _ :: _, h => ⟨h.1.symm, Same.symm h.2⟩

end

mutual

theorem FieldKind.agrees_iff : ∀ (kind : FieldKind) (x x' : FieldObject),
    kind.Agrees x x' ↔ kind.Same (kind.clear x) (kind.clear x')
  | .plain t d, x, x' => by cases x <;> cases x' <;> simp [FieldKind.Agrees, FieldKind.clear, FieldKind.Same]
  | .subunit fs, x, x' => by
    cases x with
    | subunit b u =>
      cases x' with
      | subunit b' u' =>
        cases u with
        | none =>
          cases u' with
          | none => exact (true_iff _).mpr ⟨rfl, same_construct fs⟩
          | some u' => exact (likeNew_iff fs u').trans ⟨fun h => ⟨rfl, h.symm⟩, fun h => h.2.symm⟩
        | some u =>
          cases u' with
          | none => exact (likeNew_iff fs u).trans (and_iff_right rfl).symm
          | some u' => exact (agrees_iff fs u u').trans (and_iff_right rfl).symm
      | _ => cases u <;> simp [FieldKind.Agrees, FieldKind.clear, FieldKind.Same]
    | _ => cases x' <;> simp [FieldKind.Agrees, FieldKind.clear, FieldKind.Same]
  | .array t, x, x' => by cases x <;> cases x' <;> simp [FieldKind.Agrees, FieldKind.clear, FieldKind.Same]
  | .units fs, x, x' => by cases x <;> cases x' <;> simp [FieldKind.Agrees, FieldKind.clear, FieldKind.Same]
  | .map, x, x' => by cases x <;> cases x' <;> simp [FieldKind.Agrees, FieldKind.clear, FieldKind.Same]

theorem agrees_iff : ∀ (fs : List Field) (u u' : UnitObject),
    Agrees fs u u' ↔ Same fs (clear fs u) (clear fs u')
  | [], u, u' => by cases u <;> cases u' <;> exact Iff.rfl
  | .mk _ _ kind :: fs, u, u' => by
    cases u with
    | nil => cases u' <;> exact Iff.rfl
    | cons x xs =>
      cases u' with
      | nil => exact Iff.rfl
      | cons x' xs' => exact and_congr (kind.agrees_iff x x') (agrees_iff fs xs xs')

end

/-! ### Changes of two units that are the same -/

theorem Same.getElem? : ∀ {fs : List Field} {u u' : UnitObject}, Same fs u u' → ∀ {i : Nat}
    {f : Field}, fs[i]? = some f → ∃ x x', u[i]? = some x ∧ u'[i]? = some x' ∧ f.kind.Same x x'
  | [], [], [], _, _, _, hf => nomatch hf
  | .mk _ _ _ :: _, x :: _, x' :: _, h, 0, _, hf => by
    injection hf with hf
    exact ⟨x, x', rfl, rfl, hf ▸ h.1⟩
  | .mk _ _ _ :: _, _ :: _, _ :: _, h, _ + 1, _, hf => Same.getElem? h.2 hf

theorem Same.modify : ∀ {fs : List Field} {u u' : UnitObject}, Same fs u u' → ∀ {i : Nat}
    {f : Field} {g : FieldObject → FieldObject}, fs[i]? = some f →
    (∀ x x', u[i]? = some x → u'[i]? = some x' → f.kind.Same x x' → f.kind.Same (g x) (g x')) →
    Same fs (u.modify i g) (u'.modify i g)
  | [], [], [], _, _, _, _, hf, _ => nomatch hf
  | .mk _ _ _ :: _, x :: _, x' :: _, h, 0, _, _, hf, hg => by
    injection hf with hf
    subst hf
    exact ⟨hg x x' rfl rfl h.1, h.2⟩
  | .mk _ _ _ :: _, _ :: _, _ :: _, h, _ + 1, _, _, hf, hg => ⟨h.1, Same.modify h.2 hf hg⟩

/-- The fields of the unit at the end of a way. -/
def schemaAt : List Field → List Place → Option (List Field)
  | fs, [] => some fs
  | fs, .subunit i :: path =>
    match fs[i]? with
    | some (.mk _ _ (.subunit gs)) => schemaAt gs path
    | _ => none
  | fs, .element i :: path =>
    match fs[i]? with
    | some (.mk _ _ (.units gs)) => schemaAt gs path
    | _ => none

/-- The subunits on the way have contents, up to the first element of repeated subunits. -/
def Reachable : List Place → UnitObject → Prop
  | .subunit i :: path, u => ∃ b v, u[i]? = some (.subunit b (some v)) ∧ Reachable path v
  | _, _ => True

theorem schemaAt_append : ∀ {path : List Place} {fs gs : List Field} {place : Place},
    schemaAt fs path = some gs → schemaAt fs (path ++ [place]) = schemaAt gs [place]
  | [], fs, gs, place, h => by
    injection h with h
    rw [h]
    rfl
  | .subunit i :: path, fs, gs, place, h => by
    rw [schemaAt] at h
    rw [List.cons_append, schemaAt]
    split at h
    next hs => exact schemaAt_append h
    next => cases h
  | .element i :: path, fs, gs, place, h => by
    rw [schemaAt] at h
    rw [List.cons_append, schemaAt]
    split at h
    next hs => exact schemaAt_append h
    next => cases h

/-- **A change at the end of a way keeps two units the same** if it keeps the units there the
same. -/
theorem Same.modifyAt : ∀ {path : List Place} {fs gs : List Field} {u u' : UnitObject}
    {g : UnitObject → UnitObject}, schemaAt fs path = some gs → Reachable path u →
    Reachable path u' → (∀ v v', Same gs v v' → Same gs (g v) (g v')) → Same fs u u' →
    Same fs (modifyAt path g u) (modifyAt path g u')
  | [], fs, gs, u, u', g, hs, _, _, hg, h => by
    injection hs with hs
    exact hg u u' (hs ▸ h) |> fun k => hs ▸ k
  | .subunit i :: path, fs, gs, u, u', g, hs, hr, hr', hg, h => by
    rw [schemaAt] at hs
    split at hs
    next ks hf =>
      refine h.modify hf fun x x' hx hx' hk => ?_
      obtain ⟨b, v, hv, hr⟩ := hr
      obtain ⟨b', v', hv', hr'⟩ := hr'
      rw [hv] at hx
      rw [hv'] at hx'
      injection hx with hx
      injection hx' with hx'
      subst hx hx'
      exact ⟨hk.1, Same.modifyAt hs hr hr' hg hk.2⟩
    next => cases hs
  | .element i :: path, fs, gs, u, u', g, hs, hr, hr', hg, h => by
    rw [schemaAt] at hs
    split at hs
    next ks hf =>
      refine h.modify hf fun x x' hx hx' hk => ?_
      cases x with
      | units b l =>
        cases x' with
        | units b' l' =>
          obtain ⟨rfl, rfl⟩ := hk
          exact ⟨rfl, rfl⟩
        | _ => exact hk.elim
      | _ => cases x' <;> exact hk.elim
    next => cases hs

/-- A change of a field that leaves the content of a subunit with one as it is. -/
def KeepsContent (g : FieldObject → FieldObject) : Prop :=
  ∀ b v, ∃ b', g (.subunit b (some v)) = .subunit b' (some v)

theorem Reachable.modify {g : FieldObject → FieldObject} {j : Nat} {path : List Place}
    {u : UnitObject} (hg : ∀ b v path, Reachable path v →
      ∃ b' v', g (.subunit b (some v)) = .subunit b' (some v') ∧ Reachable path v')
    (h : Reachable path u) : Reachable path (List.modify u j g) := by
  cases path with
  | nil => trivial
  | cons place path =>
    cases place with
    | element i => trivial
    | subunit i =>
      obtain ⟨b, v, hv, hr⟩ := h
      by_cases hj : j = i
      · obtain ⟨b', v', e, hr'⟩ := hg b v path hr
        refine ⟨b', v', ?_, hr'⟩
        rw [List.getElem?_modify, hv, ← e]
        simp [hj]
      · refine ⟨b, v, ?_, hr⟩
        rw [List.getElem?_modify, hv]
        simp [hj]

/-- What can be reached can be reached behind a change of a field. -/
theorem Reachable.modifyAt {g : FieldObject → FieldObject} (hg : KeepsContent g) {j : Nat} :
    ∀ {path' path : List Place} {u : UnitObject}, Reachable path u →
      Reachable path (modifyAt path' (fun v => v.modify j g) u) := by
  intro path'
  induction path' with
  | nil =>
    intro path u h
    refine h.modify fun b v path hv => ?_
    obtain ⟨b', e⟩ := hg b v
    exact ⟨b', v, e, hv⟩
  | cons place path' ih =>
    intro path u h
    cases place with
    | subunit k => exact h.modify fun b v path hv => ⟨b, _, rfl, ih hv⟩
    | element k => exact h.modify fun b v path hv => ⟨b, v, rfl, hv⟩

theorem Reachable.element {i : Nat} : ∀ {path : List Place} {u : UnitObject}, Reachable path u →
    Reachable (path ++ [.element i]) u
  | [], _, _ => trivial
  | .subunit _ :: _, _, ⟨b, v, hv, hr⟩ => ⟨b, v, hv, hr.element⟩
  | .element _ :: _, _, _ => trivial

/-- Behind `mutableValue` the content of the subunit can be reached. -/
theorem Reachable.mutableValue (fresh : UnitObject) : ∀ {path : List Place} {fs gs ks : List Field} {name : Name}
    {r : Bool} {i : Nat} {u u' : UnitObject},
    schemaAt fs path = some gs → gs[i]? = some (.mk name r (.subunit ks)) → Same fs u u' →
    Reachable path u → Reachable path u' →
    Reachable (path ++ [.subunit i])
      (Hatn.Dataunit.Json.modifyAt path (fun v => v.modify i (·.mutableValue fresh)) u)
  | [], fs, gs, ks, name, r, i, u, u', hs, hf, h, _, _ => by
    injection hs with hs
    subst hs
    obtain ⟨x, x', hx, -, hk⟩ := h.getElem? hf
    cases x with
    | subunit b v =>
      refine ⟨true, v.getD fresh, ?_, trivial⟩
      rw [Hatn.Dataunit.Json.modifyAt, List.getElem?_modify, hx]
      simp [FieldObject.mutableValue]
    | _ => cases x' <;> exact hk.elim
  | .subunit k :: path, fs, gs, ks, name, r, i, u, u', hs, hf, h, hr, hr' => by
    rw [schemaAt] at hs
    split at hs
    next ls hl =>
      obtain ⟨b, v, hv, hr⟩ := hr
      obtain ⟨b', v', hv', hr'⟩ := hr'
      obtain ⟨x, x', hx, hx', hk⟩ := h.getElem? hl
      rw [hv] at hx
      rw [hv'] at hx'
      injection hx with hx
      injection hx' with hx'
      subst hx hx'
      refine ⟨b, _, ?_, Reachable.mutableValue fresh hs hf hk.2 hr hr'⟩
      rw [Hatn.Dataunit.Json.modifyAt, Place.modify, List.getElem?_modify, hv]
      simp [FieldObject.modifyValue]
    next => cases hs
  | .element k :: path, _, _, _, _, _, _, _, _, _, _, _, _, _ => trivial

/-! ### Two runs side by side -/

/-- The handler points into two units of the schema. -/
def Handler.Placed (fs : List Field) (u u' : UnitObject) : Handler → Prop
  | unit path fields _ _ _ =>
    schemaAt fs path = some fields ∧ Reachable path u ∧ Reachable path u'
  | field path i kind _ =>
    (∃ gs name r, schemaAt fs path = some gs ∧ gs[i]? = some (.mk name r kind)) ∧
      Reachable path u ∧ Reachable path u'

/-- Two states with the same handlers and the same units. -/
structure Alike (fs : List Field) (s s' : State) : Prop where
  handlers : s.handlers = s'.handlers
  same : Same fs s.unit s'.unit
  placed : ∀ x ∈ s.handlers, x.Placed fs s.unit s'.unit

/-- A change of fields of this kind that two runs can make. -/
structure FieldKind.Respects (kind : FieldKind) (g : FieldObject → FieldObject) : Prop where
  same : ∀ x x', kind.Same x x' → kind.Same (g x) (g x')
  keeps : KeepsContent g

namespace Alike
variable {fs : List Field} {s s' : State}

theorem push (h : Alike fs s s') {x : Handler} (hx : x.Placed fs s.unit s'.unit) :
    Alike fs (s.push x) (s'.push x) where
  handlers := congrArg (x :: ·) h.handlers
  same := h.same
  placed := List.forall_mem_cons.mpr ⟨hx, h.placed⟩

theorem modifyField (h : Alike fs s s') {path : List Place} {i : Nat} {kind : FieldKind} {sc : Int}
    (hp : (Handler.field path i kind sc).Placed fs s.unit s'.unit)
    {g : FieldObject → FieldObject} (hg : kind.Respects g) :
    Alike fs (s.modifyField path i g) (s'.modifyField path i g) where
  handlers := h.handlers
  same := by
    obtain ⟨⟨gs, name, r, hs, hf⟩, hr, hr'⟩ := hp
    exact h.same.modifyAt hs hr hr' fun v v' hv =>
      hv.modify hf fun x x' _ _ hx => hg.same x x' hx
  placed := by
    intro x hx
    have := h.placed x hx
    cases x with
    | unit path' fields sc' o ho =>
      exact ⟨this.1, this.2.1.modifyAt hg.keeps, this.2.2.modifyAt hg.keeps⟩
    | field path' j kind' sc' =>
      exact ⟨this.1, this.2.1.modifyAt hg.keeps, this.2.2.modifyAt hg.keeps⟩

end Alike

/-- Outcomes of two runs that cannot be told apart. -/
def Outcome.Alike (fs : List Field) : Outcome → Outcome → Prop
  | running s, running s' => Json.Alike fs s s'
  | refused u, refused u' => Same fs u u'
  | thrown u, thrown u' => Same fs u u'
  | _, _ => False

theorem respects_setValue (t : PlainType) (d : Option PlainValue) (g : PlainValue → PlainValue) :
    (FieldKind.plain t d).Respects (·.setValue g) where
  same
    | .plain _ _, .plain _ _, h => ⟨rfl, congrArg g h.2⟩
  keeps _ _ := ⟨_, rfl⟩

theorem respects_markSet (t : PlainType) (d : Option PlainValue) (b : Bool) :
    (FieldKind.plain t d).Respects (·.markSet b) where
  same
    | .plain _ _, .plain _ _, h => ⟨rfl, h.2⟩
  keeps _ _ := ⟨_, rfl⟩

theorem respects_appendValue (t : PlainType) (v : PlainValue) :
    (FieldKind.array t).Respects (·.appendValue v) where
  same
    | .array _ _, .array _ _, h => ⟨rfl, by rw [h.2]⟩
  keeps _ _ := ⟨_, rfl⟩

theorem respects_createAndAppendValue (fs : List Field) (fresh : UnitObject) :
    (FieldKind.units fs).Respects (·.createAndAppendValue fresh) where
  same
    | .units _ _, .units _ _, h => ⟨rfl, by rw [h.2]⟩
  keeps _ _ := ⟨_, rfl⟩

theorem respects_mutableLast (fs : List Field) : (FieldKind.units fs).Respects (·.mutableLast) where
  same
    | .units _ _, .units _ _, h => ⟨h.1, by rw [h.2]⟩
  keeps _ _ := ⟨_, rfl⟩

theorem respects_mutableValue (fs : List Field) :
    (FieldKind.subunit fs).Respects (·.mutableValue (construct fs)) where
  same
    | .subunit _ _, .subunit _ _, h => ⟨rfl, h.2⟩
  keeps _ _ := ⟨true, rfl⟩

section
variable {fs : List Field} {s s' : State} {path : List Place} {sc : Int} {event : Event}

theorem UnitReader.handle_alike {fields : List Field} {o : Int} {ho : o ≤ 1} (h : Alike fs s s')
    (hp : (Handler.unit path fields sc o ho).Placed fs s.unit s'.unit) :
    (UnitReader.handle path fields sc o event s).1 =
      (UnitReader.handle path fields sc o event s').1 ∧
    Alike fs (UnitReader.handle path fields sc o event s).2
      (UnitReader.handle path fields sc o event s').2 := by
  have again : Alike fs (s.push (.unit path fields (sc + o) 0 (by decide)))
      (s'.push (.unit path fields (sc + o) 0 (by decide))) := h.push hp
  cases event with
  | key k =>
    simp only [UnitReader.handle, if_neg (not_skipping sc ho)]
    cases hf : fieldByName fields k with
    | none => exact ⟨rfl, again⟩
    | some p =>
      obtain ⟨i, f⟩ := p
      refine ⟨rfl, ?_⟩
      have hi := (fieldByName_getElem? hf).1
      obtain ⟨name, r, kind⟩ := f
      have placed : (Handler.field path i kind 0).Placed fs s.unit s'.unit :=
        ⟨⟨fields, name, r, hp.1, hi⟩, hp.2⟩
      cases kind with
      | map => exact again
      | _ => exact again.push placed
  | endObject => exact ⟨rfl, h⟩
  | startObject => exact ⟨rfl, again⟩
  | _ => exact ⟨rfl, again⟩

theorem FieldReader.handle_alike {i : Nat} {kind : FieldKind} (h : Alike fs s s')
    (hp : (Handler.field path i kind sc).Placed fs s.unit s'.unit) :
    (FieldReader.handle path i kind sc event s).1 =
      (FieldReader.handle path i kind sc event s').1 ∧
    Alike fs (FieldReader.handle path i kind sc event s).2
      (FieldReader.handle path i kind sc event s').2 := by
  have again : Alike fs (s.push (.field path i kind sc)) (s'.push (.field path i kind sc)) :=
    h.push hp
  cases kind with
  | plain t d =>
    cases event with
    | scalar a =>
      simp only [FieldReader.handle]
      cases t.read a with
      | some g => exact ⟨rfl, h.modifyField hp (respects_setValue t d g)⟩
      | none =>
        refine ⟨rfl, ?_⟩
        simp only
        split
        · exact h.modifyField hp (respects_markSet t d false)
        · exact h
    | _ => exact ⟨rfl, h⟩
  | subunit ks =>
    cases event with
    | scalar a => cases a <;> exact ⟨rfl, h⟩
    | startObject =>
      refine ⟨rfl, (h.modifyField hp (respects_mutableValue ks)).push ?_⟩
      obtain ⟨⟨gs, name, r, hs, hf⟩, hr, hr'⟩ := hp
      refine ⟨?_, Reachable.mutableValue _ hs hf h.same hr hr',
        Reachable.mutableValue _ hs hf h.same.symm hr' hr⟩
      rw [schemaAt_append hs, schemaAt, hf]
      rfl
    | _ => exact ⟨rfl, h⟩
  | array t =>
    cases event with
    | scalar a =>
      simp only [FieldReader.handle]
      cases t.read a with
      | some g => exact ⟨rfl, again.modifyField hp (respects_appendValue t _)⟩
      | none => exact ⟨rfl, again⟩
    | startArray => exact ⟨rfl, again⟩
    | _ => exact ⟨rfl, h⟩
  | units ks =>
    cases event with
    | scalar a =>
      cases a with
      | null => exact ⟨rfl, again.modifyField hp (respects_createAndAppendValue ks _)⟩
      | _ => exact ⟨rfl, h⟩
    | startArray => exact ⟨rfl, again⟩
    | startObject =>
      have appended := again.modifyField hp (respects_createAndAppendValue ks (construct ks))
      have last := appended.modifyField (appended.placed _ List.mem_cons_self)
        (respects_mutableLast ks)
      refine ⟨rfl, last.push ?_⟩
      obtain ⟨⟨gs, name, r, hs, hf⟩, hr, hr'⟩ := last.placed _ List.mem_cons_self
      refine ⟨?_, hr.element, hr'.element⟩
      rw [schemaAt_append hs, schemaAt, hf]
      rfl
    | _ => exact ⟨rfl, h⟩
  | map => cases event <;> exact ⟨rfl, h⟩

end

/-- **What one event does to two units that are the same cannot be told apart.** -/
theorem step_alike {fs : List Field} {s s' : State} (h : Alike fs s s') (event : Event) :
    (step event s).Alike fs (step event s') := by
  obtain ⟨u, hs⟩ := s
  obtain ⟨u', hs'⟩ := s'
  obtain rfl : hs = hs' := h.handlers
  cases hs with
  | nil => exact h.same
  | cons x hs =>
    have rest : Alike fs ⟨u, hs⟩ ⟨u', hs⟩ :=
      ⟨rfl, h.same, fun y hy => h.placed y (List.mem_cons_of_mem _ hy)⟩
    have hx := h.placed x List.mem_cons_self
    have handled : (x.handle event ⟨u, hs⟩).1 = (x.handle event ⟨u', hs⟩).1 ∧
        Alike fs (x.handle event ⟨u, hs⟩).2 (x.handle event ⟨u', hs⟩).2 := by
      cases x with
      | unit path fields sc o ho => exact UnitReader.handle_alike rest hx
      | field path i kind sc => exact FieldReader.handle_alike rest hx
    obtain ⟨he, ha⟩ := handled
    simp only [step]
    generalize x.handle event ⟨u, hs⟩ = r at he ha
    generalize x.handle event ⟨u', hs⟩ = r' at he ha
    obtain ⟨ok, t⟩ := r
    obtain ⟨ok', t'⟩ := r'
    obtain rfl : ok = ok' := he
    cases ok with
    | true => exact ha
    | false => exact ha.same

/-- **Two runs over the same events cannot be told apart.** -/
theorem run_alike {fs : List Field} : ∀ (events : List Event) {s s' : State}, Alike fs s s' →
    (run events s).Alike fs (run events s') := by
  intro events
  induction events with
  | nil => intro s s' h; exact h
  | cons event events ih =>
    intro s s' h
    have hs := step_alike h event
    rw [run, run]
    cases hr : step event s <;> cases hr' : step event s' <;> rw [hr, hr'] at hs
    case running.running => exact ih hs
    all_goals first | exact hs | exact hs.elim

mutual

/-- Clearing keeps what is the same the same. -/
theorem FieldKind.Same.clear : ∀ {kind : FieldKind} {x x' : FieldObject}, kind.Same x x' →
    kind.SameSeen (kind.clear x) (kind.clear x')
  | .plain _ _, .plain _ _, .plain _ _, h => ⟨h.1, rfl⟩
  | .subunit _, .subunit _ u, .subunit _ u', _ => by
    cases u <;> cases u' <;> exact ⟨rfl, nofun⟩
  | .array _, .array _ _, .array _ _, h => ⟨h.1, rfl⟩
  | .units _, .units _ _, .units _ _, h => ⟨h.1, rfl⟩
  | .map, .map _, .map _, h => h

theorem Same.clear : ∀ {fs : List Field} {u u' : UnitObject}, Same fs u u' →
    SameSeen fs (Hatn.Dataunit.Json.clear fs u) (Hatn.Dataunit.Json.clear fs u')
  | [], [], [], _ => trivial
  | .mk _ _ _ :: _, _ :: _, _ :: _, h => ⟨h.1.clear, Same.clear h.2⟩

end

/-- The same result, with units that cannot be told apart. -/
def Loaded.Same (fs : List Field) : Loaded → Loaded → Prop
  | ok u, ok u' => SameSeen fs u u'
  | failed u, failed u' => SameSeen fs u u'
  | thrown u, thrown u' => SameSeen fs u u'
  | _, _ => False

/-- Loading does not tell units apart that are the same when they are cleared. -/
theorem load_same {fs : List Field} {u u' : UnitObject}
    (h : Same fs (clear fs u) (clear fs u')) (text : Text) :
    (loadFromJSON fs text u).Same fs (loadFromJSON fs text u') := by
  have start : Alike fs ⟨clear fs u, [.unit [] fs 0 0 (by decide)]⟩
      ⟨clear fs u', [.unit [] fs 0 0 (by decide)]⟩ := by
    refine ⟨rfl, h, fun x hx => ?_⟩
    rw [List.mem_singleton.mp hx]
    exact ⟨rfl, trivial, trivial⟩
  have hr := run_alike text.events start
  rw [loadFromJSON, loadFromJSON]
  generalize run text.events ⟨clear fs u, _⟩ = x at hr
  generalize run text.events ⟨clear fs u', _⟩ = x' at hr
  cases x <;> cases x'
  case running.running s s' =>
    simp only
    rw [← hr.handlers]
    split
    · exact hr.same.seen
    · split
      · exact hr.same.seen
      · exact hr.same.clear
  case refused.refused v v' => exact Same.clear hr
  case thrown.thrown v v' => exact Same.seen hr
  all_goals exact hr.elim

/-! ### Texts that tell units apart -/

theorem SameSeen.getElem? : ∀ {fs : List Field} {u u' : UnitObject}, SameSeen fs u u' →
    ∀ {i : Nat} {f : Field}, fs[i]? = some f →
    ∃ x x', u[i]? = some x ∧ u'[i]? = some x' ∧ f.kind.SameSeen x x'
  | [], [], [], _, _, _, hf => nomatch hf
  | .mk _ _ _ :: _, x :: _, x' :: _, h, 0, _, hf => by
    injection hf with hf
    exact ⟨x, x', rfl, rfl, hf ▸ h.1⟩
  | .mk _ _ _ :: _, _ :: _, _ :: _, h, _ + 1, _, hf => SameSeen.getElem? h.2 hf

/-- Units are the same if what is seen of them is, and the contents of their subunits are. -/
theorem SameSeen.same : ∀ {fs : List Field} {u u' : UnitObject}, SameSeen fs u u' →
    (∀ (i : Nat) (f : Field) (ks : List Field) b x b' x', fs[i]? = some f →
      f.kind = .subunit ks → u[i]? = some (.subunit b x) → u'[i]? = some (.subunit b' x') →
      Same ks (x.getD (construct ks)) (x'.getD (construct ks))) →
    Same fs u u'
  | [], [], [], _, _ => trivial
  | .mk name r kind :: fs, x :: u, x' :: u', h, hk => by
    refine ⟨?_, h.2.same fun i f ks b v b' v' hf he hv hv' =>
      hk (i + 1) f ks b v b' v' hf he hv hv'⟩
    cases kind with
    | subunit ks =>
      cases x with
      | subunit b v =>
        cases x' with
        | subunit b' v' =>
          exact ⟨h.1.1, hk 0 (.mk name r (.subunit ks)) ks b v b' v' rfl rfl rfl rfl⟩
        | _ => exact h.1.elim
      | _ => cases x' <;> exact h.1.elim
    | plain t d => cases x <;> cases x' <;> exact h.1
    | array t => cases x <;> cases x' <;> exact h.1
    | units ks => cases x <;> cases x' <;> exact h.1
    | map => cases x <;> cases x' <;> exact h.1

/-- What is seen of two units after every reading tells whether they are the same. -/
def Reveals (fs : List Field) : Prop :=
  Distinct fs → ∀ u u', (∀ ms g, readMembers fs ms = some g → SameSeen fs (g u) (g u')) →
    Same fs u u'

theorem reveals_of_subunits {fs : List Field}
    (h : ∀ f ∈ fs, ∀ ks, f.kind = .subunit ks → Reveals ks) : Reveals fs := by
  intro hd u u' hr
  have seen : SameSeen fs u u' := hr [] id rfl
  refine seen.same fun i f ks b x b' x' hf hk hx hx' => ?_
  have hm := List.mem_of_getElem? hf
  have hdk : Distinct ks := by
    have := hd.kind hm
    rw [hk] at this
    exact this
  refine h f hm ks hk hdk _ _ fun ms g hg => ?_
  -- a text with the subunit alone
  have hread : readMembers fs [(f.name, .object ms)] = some fun v =>
      v.modify i fun y => (y.mutableValue (construct ks)).modifyValue g := by
    refine readMembers_singleton (hd.fieldByName hf) ?_
    rw [hk, FieldKind.readValue, hg]
    rfl
  obtain ⟨y, y', hy, hy', he⟩ := (hr _ _ hread).getElem? hf
  rw [List.getElem?_modify, hx] at hy
  rw [List.getElem?_modify, hx'] at hy'
  simp only [if_true, Option.map_eq_map, Option.map_some, Option.some.injEq] at hy hy'
  subst hy hy'
  rw [hk] at he
  exact he.2 rfl

mutual

theorem FieldKind.reveals : ∀ (kind : FieldKind) (ks : List Field), kind = .subunit ks → Reveals ks
  | .subunit gs, ks, h => by
    injection h with h
    exact h ▸ reveals_of_subunits (reveals_subunits gs)
  | .plain _ _, _, h => by cases h
  | .array _, _, h => by cases h
  | .units _, _, h => by cases h
  | .map, _, h => by cases h

theorem reveals_subunits : ∀ (fs : List Field), ∀ f ∈ fs, ∀ ks, f.kind = .subunit ks → Reveals ks
  | .mk name r kind :: fs, f, hf, ks, h => by
    rcases List.mem_cons.mp hf with rfl | hf
    · exact kind.reveals ks h
    · exact reveals_subunits fs f hf ks h

end

/-- **Loading tells two units apart unless they agree.** -/
theorem agrees_of_load {fs : List Field} (hd : Distinct fs) {u u' : UnitObject}
    (h : ∀ v, (loadFromJSON fs (.whole v) u).Same fs (loadFromJSON fs (.whole v) u')) :
    Agrees fs u u' := by
  rw [agrees_iff]
  refine reveals_of_subunits (reveals_subunits fs) hd _ _ fun ms g hg => ?_
  have e : loadFromJSON fs (.whole (.object ms)) u = .ok (g (clear fs u)) :=
    load_whole_eq_ok.mpr ⟨g, hg, rfl⟩
  have e' : loadFromJSON fs (.whole (.object ms)) u' = .ok (g (clear fs u')) :=
    load_whole_eq_ok.mpr ⟨g, hg, rfl⟩
  have := h (.object ms)
  rw [e, e'] at this
  exact this

/-! ### What is set after a failed load -/

/-- The field cannot be set after a failed load: it is a subunit, or a map that is not set. -/
def FieldKind.StaysUnset : FieldKind → FieldObject → Prop
  | .subunit _, .subunit _ _ => True
  | .map, .map b => b = false
  | _, _ => False

/-- All the fields of a unit are subunits, or maps that are not set. -/
def StaysUnset : List Field → UnitObject → Prop
  | [], [] => True
  | f :: fs, x :: xs => f.kind.StaysUnset x ∧ StaysUnset fs xs
  | _, _ => False

/-- A change of a field that sets no map. -/
def KeepsUnset (g : FieldObject → FieldObject) : Prop :=
  ∀ (kind : FieldKind) (x : FieldObject), kind.StaysUnset x → kind.StaysUnset (g x)

theorem FieldKind.StaysUnset.forms {kind : FieldKind} {x : FieldObject} (h : kind.StaysUnset x) :
    (∃ ks b v, kind = .subunit ks ∧ x = .subunit b v) ∨ kind = .map ∧ x = .map false := by
  cases kind with
  | subunit ks =>
    cases x with
    | subunit b v => exact .inl ⟨ks, b, v, rfl, rfl⟩
    | _ => exact False.elim h
  | map =>
    cases x with
    | map b => exact .inr ⟨rfl, congrArg FieldObject.map h⟩
    | _ => exact False.elim h
  | _ => cases x <;> exact False.elim h

/-- A change keeps fields unset that takes subunits to subunits and leaves maps alone. -/
theorem keepsUnset_of {g : FieldObject → FieldObject}
    (hs : ∀ b v, ∃ b' v', g (.subunit b v) = .subunit b' v') (hm : g (.map false) = .map false) :
    KeepsUnset g := by
  intro kind x h
  rcases h.forms with ⟨ks, b, v, rfl, rfl⟩ | ⟨rfl, rfl⟩
  · obtain ⟨b', v', e⟩ := hs b v
    rw [e]
    trivial
  · rw [hm]
    rfl

theorem StaysUnset.modify {g : FieldObject → FieldObject} (hg : KeepsUnset g) :
    ∀ {fs : List Field} {u : UnitObject}, StaysUnset fs u → ∀ i, StaysUnset fs (u.modify i g)
  | [], [], h, i => by
    rw [List.modify_nil]
    exact h
  | _ :: _, x :: _, h, 0 => ⟨hg _ x h.1, h.2⟩
  | _ :: _, _ :: _, h, i + 1 => ⟨h.1, h.2.modify hg i⟩

theorem StaysUnset.modifyAt {g : FieldObject → FieldObject} (hg : KeepsUnset g) {fs : List Field}
    {u : UnitObject} (h : StaysUnset fs u) (path : List Place) (i : Nat) :
    StaysUnset fs (modifyAt path (fun v => v.modify i g) u) := by
  cases path with
  | nil => exact h.modify hg i
  | cons place path =>
    cases place with
    | subunit k => exact h.modify (keepsUnset_of (fun b v => ⟨b, _, rfl⟩) rfl) k
    | element k => exact h.modify (keepsUnset_of (fun b v => ⟨b, _, rfl⟩) rfl) k

theorem handle_staysUnset {fs : List Field} (x : Handler) (event : Event) {s : State}
    (h : StaysUnset fs s.unit) : StaysUnset fs (x.handle event s).2.unit := by
  cases x with
  | unit path fields sc o ho =>
    cases event with
    | key k =>
      simp only [Handler.handle, UnitReader.handle, if_neg (not_skipping sc ho)]
      cases fieldByName fields k with
      | none => exact h
      | some p =>
        obtain ⟨i, name, r, kind⟩ := p
        cases kind <;> exact h
    | _ => exact h
  | field path i kind sc =>
    have changed : ∀ {g : FieldObject → FieldObject},
        (∀ b v, ∃ b' v', g (.subunit b v) = .subunit b' v') → g (.map false) = .map false →
        ∀ {t : State}, StaysUnset fs t.unit → StaysUnset fs (t.modifyField path i g).unit :=
      fun hs hm _ ht => ht.modifyAt (keepsUnset_of hs hm) path i
    cases kind with
    | plain t d =>
      cases event with
      | scalar a =>
        simp only [Handler.handle, FieldReader.handle]
        cases t.read a with
        | some g => exact changed (fun b v => ⟨b, v, rfl⟩) rfl h
        | none =>
          simp only
          split
          · exact changed (fun b v => ⟨false, v, rfl⟩) rfl h
          · exact h
      | _ => exact h
    | subunit ks =>
      cases event with
      | scalar a => cases a <;> exact h
      | startObject => exact changed (fun b v => ⟨true, _, rfl⟩) rfl h
      | _ => exact h
    | array t =>
      cases event with
      | scalar a =>
        simp only [Handler.handle, FieldReader.handle]
        cases t.read a with
        | some g => exact changed (fun b v => ⟨b, v, rfl⟩) rfl h
        | none => exact h
      | _ => exact h
    | units ks =>
      cases event with
      | scalar a =>
        cases a with
        | null => exact changed (fun b v => ⟨b, v, rfl⟩) rfl h
        | _ => exact h
      | startObject =>
        exact changed (fun b v => ⟨b, v, rfl⟩) rfl (changed (fun b v => ⟨b, v, rfl⟩) rfl h)
      | _ => exact h
    | map => cases event <;> exact h

/-- The unit in an outcome. -/
def Outcome.unit : Outcome → UnitObject
  | running s => s.unit
  | refused u => u
  | thrown u => u

theorem step_staysUnset {fs : List Field} (event : Event) {s : State}
    (h : StaysUnset fs s.unit) : StaysUnset fs (step event s).unit := by
  obtain ⟨u, hs⟩ := s
  cases hs with
  | nil => exact h
  | cons x hs =>
    have hx : StaysUnset fs (x.handle event ⟨u, hs⟩).2.unit := handle_staysUnset x event h
    simp only [step]
    generalize x.handle event ⟨u, hs⟩ = r at hx
    obtain ⟨ok, t⟩ := r
    cases ok <;> exact hx

theorem run_staysUnset {fs : List Field} : ∀ (events : List Event) {s : State},
    StaysUnset fs s.unit → StaysUnset fs (run events s).unit := by
  intro events
  induction events with
  | nil => intro s h; exact h
  | cons event events ih =>
    intro s h
    have hs := step_staysUnset event h
    rw [run]
    cases hr : step event s with
    | running t =>
      rw [hr] at hs
      exact ih hs
    | refused u =>
      rw [hr] at hs
      exact hs
    | thrown u =>
      rw [hr] at hs
      exact hs

theorem StaysUnset.clear : ∀ {fs : List Field} {u : UnitObject}, StaysUnset fs u →
    StaysUnset fs (Hatn.Dataunit.Json.clear fs u) ∧
      ∀ x ∈ Hatn.Dataunit.Json.clear fs u, x.isSet = false
  | [], [], _ => ⟨trivial, nofun⟩
  | .mk name r kind :: fs, x :: u, h => by
    obtain ⟨hu, hx⟩ := h.2.clear
    rw [Hatn.Dataunit.Json.clear]
    rcases h.1.forms with ⟨ks, b, v, hk, rfl⟩ | ⟨hk, rfl⟩ <;>
      (have hk : kind = _ := hk) <;> subst hk
    · cases v with
      | none => exact ⟨⟨trivial, hu⟩, List.forall_mem_cons.mpr ⟨rfl, hx⟩⟩
      | some v => exact ⟨⟨trivial, hu⟩, List.forall_mem_cons.mpr ⟨rfl, hx⟩⟩
    · exact ⟨⟨rfl, hu⟩, List.forall_mem_cons.mpr ⟨rfl, hx⟩⟩

/-- A failed load leaves no field set if the fields cannot be set. -/
theorem unset_of_failed {fs : List Field} {u w : UnitObject} (h : StaysUnset fs u) {text : Text}
    (hl : loadFromJSON fs text u = .failed w) : ∀ x ∈ w, x.isSet = false := by
  have hr : StaysUnset fs (run text.events ⟨clear fs u, [.unit [] fs 0 0 (by decide)]⟩).unit :=
    run_staysUnset text.events h.clear.1
  rw [loadFromJSON] at hl
  generalize run text.events ⟨clear fs u, _⟩ = r at hl hr
  cases r with
  | thrown v => cases hl
  | refused v =>
    injection hl with hl
    exact hl ▸ (StaysUnset.clear hr).2
  | running s =>
    simp only at hl
    split at hl
    · cases hl
    · split at hl
      · cases hl
      · injection hl with hl
        exact hl ▸ (StaysUnset.clear hr).2

/-- A text that breaks behind a member. -/
theorem load_broken_member {fs : List Field} {k : Name} {v : Value} {i : Nat} {f : Field}
    {g : FieldObject → FieldObject} (hf : fieldByName fs k = some (i, f))
    (hg : f.kind.readValue v = some g) (u : UnitObject) :
    ∃ text, loadFromJSON fs text u = .failed (clear fs ((clear fs u).modify i g)) := by
  have hn : v.events.length + 2 < (Value.object [(k, v)]).events.length := by
    simp [Value.events, memberEvents]
  refine ⟨.broken _ _ hn, ?_⟩
  have ht : (Value.object [(k, v)]).events.take (v.events.length + 2) =
      .startObject :: .key k :: v.events := by
    simp [Value.events, memberEvents]
  rw [loadFromJSON, Text.events, ht, run, step_startObject_unit, Outcome.andThen, run,
    step_key_of_some hf, FieldKind.pushHandler_of_ne_map (FieldKind.ne_map_of_readValue hg),
    Outcome.andThen, State.push, run_value v hg]
  rfl

theorem clear_getElem? : ∀ {fs : List Field} {u : UnitObject} {i : Nat} {f : Field}
    {x : FieldObject}, fs[i]? = some f → u[i]? = some x → (clear fs u)[i]? = some (f.kind.clear x)
  | .mk _ _ _ :: _, _ :: _, 0, _, _, hf, hx => by
    injection hf with hf
    injection hx with hx
    subst hf hx
    rfl
  | .mk _ _ _ :: fs, _ :: u, i + 1, f, x, hf, hx => by
    have hf' : fs[i]? = some f := hf
    have hx' : u[i]? = some x := hx
    have ih : (clear fs u)[i]? = some (f.kind.clear x) := clear_getElem? hf' hx'
    exact ih

theorem Fits.getElem? : ∀ {fs : List Field} {u : UnitObject}, Fits fs u → ∀ {i : Nat}
    {f : Field}, fs[i]? = some f → ∃ x, u[i]? = some x ∧ f.kind.Fits x
  | [], [], _, _, _, hf => nomatch hf
  | .mk _ _ _ :: _, x :: _, h, 0, _, hf => by
    injection hf with hf
    exact ⟨x, rfl, hf ▸ h.1⟩
  | .mk _ _ _ :: _, _ :: _, h, _ + 1, _, hf => Fits.getElem? h.2 hf

/-- Units have fields that cannot be set if each of their fields cannot. -/
theorem staysUnset_of_getElem? : ∀ {fs : List Field} {u : UnitObject}, Fits fs u →
    (∀ (i : Nat) (f : Field) x, fs[i]? = some f → u[i]? = some x → f.kind.StaysUnset x) →
    StaysUnset fs u
  | [], [], _, _ => trivial
  | .mk _ _ _ :: _, x :: _, hu, h =>
    ⟨h 0 _ x rfl rfl, staysUnset_of_getElem? hu.2 fun i f y hf hy => h (i + 1) f y hf hy⟩

/-- **A field that can be set is set after some failed load.** -/
theorem staysUnset_of_failed {fs : List Field} (hd : Distinct fs) {u : UnitObject} (hu : Fits fs u)
    (h : ∀ text w, loadFromJSON fs text u = .failed w → ∀ x ∈ w, x.isSet = false) :
    StaysUnset fs u := by
  refine staysUnset_of_getElem? hu fun i f x hf hx => ?_
  obtain ⟨x', hx', hfit⟩ := hu.getElem? hf
  rw [hx] at hx'
  injection hx' with hx'
  subst hx'
  have hc := clear_getElem? hf hx
  -- a member of this field, then the end of the text
  have marked : ∀ {v : Value} {g : FieldObject → FieldObject}, f.kind.readValue v = some g →
      (f.kind.clear (g (f.kind.clear x))).isSet = false := by
    intro v g hg
    obtain ⟨text, ht⟩ := load_broken_member (hd.fieldByName hf) hg u
    have hg' : ((clear fs u).modify i g)[i]? = some (g (f.kind.clear x)) := by
      rw [List.getElem?_modify, hc]
      simp
    exact h text _ ht _ (List.mem_of_getElem? (clear_getElem? hf hg'))
  obtain ⟨name, r, kind⟩ := f
  change FieldKind.StaysUnset kind x
  change FieldKind.Fits kind x at hfit
  change ∀ {v : Value} {g : FieldObject → FieldObject}, kind.readValue v = some g →
    (kind.clear (g (kind.clear x))).isSet = false at marked
  cases kind with
  | plain t d =>
    cases x with
    | plain b v =>
      obtain ⟨a, ha⟩ := t.accepts
      obtain ⟨g, hg⟩ := Option.isSome_iff_exists.mp ha
      have := @marked (.scalar a) (·.setValue g) (by rw [FieldKind.readValue, hg]; rfl)
      cases this
    | _ => exact False.elim hfit
  | subunit ks =>
    cases x with
    | subunit b v => trivial
    | _ => exact False.elim hfit
  | array t =>
    cases x with
    | array b l =>
      obtain ⟨a, ha⟩ := t.accepts
      obtain ⟨g, hg⟩ := Option.isSome_iff_exists.mp ha
      have := @marked (.array [.scalar a]) (id ∘ fun x => x.appendValue (g t.zero)) (by
        rw [FieldKind.readValue, readElements, FieldKind.readElement, hg]
        rfl)
      cases this
    | _ => exact False.elim hfit
  | units ks =>
    cases x with
    | units b l =>
      have := @marked (.array [.scalar .null])
        (id ∘ fun x => x.createAndAppendValue (construct ks)) rfl
      cases this
    | _ => exact False.elim hfit
  | map =>
    cases x with
    | map b =>
      have hf' : loadFromJSON fs (.whole (.scalar .null)) u = .failed (clear fs (clear fs u)) := rfl
      have := h _ _ hf' _ (List.mem_of_getElem? (clear_getElem? hf hc))
      exact this
    | _ => exact False.elim hfit

/-- **What loading forgets.**  Loading any text into two units has the same result, with the
same flags and values, exactly when the units agree in their flags, also in those that
subunits keep.  Every failed load leaves no field set exactly when no field can be set. -/
theorem load_forgets_iff (fs : List Field) (hd : Distinct fs) (u u' : UnitObject)
    (hu : Fits fs u) (hu' : Fits fs u') :
    ((∀ text, (loadFromJSON fs text u).Same fs (loadFromJSON fs text u')) ↔ Agrees fs u u') ∧
    ((∀ text w, loadFromJSON fs text u = .failed w ∨ loadFromJSON fs text u' = .failed w →
        ∀ x ∈ w, x.isSet = false) ↔
      StaysUnset fs u ∧ StaysUnset fs u') := by
  refine ⟨⟨fun h => agrees_of_load hd fun v => h _, fun h => load_same ((agrees_iff fs u u').mp h)⟩,
    fun h => ⟨?_, ?_⟩, ?_⟩
  · exact staysUnset_of_failed hd hu fun text w hw => h text w (.inl hw)
  · exact staysUnset_of_failed hd hu' fun text w hw => h text w (.inr hw)
  · rintro ⟨hs, hs'⟩ text w (hw | hw)
    · exact unset_of_failed hs hw
    · exact unset_of_failed hs' hw

section
open Hatn.Common

/-- A unit with a number. -/
def numberFields : List Field := [.mk [0x6e] false (.plain (intType true .w32) none)]

/-- Loading tells a unit with a number that is set from a new one, and a failed load leaves
the number set. -/
theorem load_forgets_number :
    ((∀ text, (loadFromJSON numberFields text [.plain true (.num 7)]).Same numberFields
        (loadFromJSON numberFields text [.plain false (.num 0)])) ↔
      Agrees numberFields [.plain true (.num 7)] [.plain false (.num 0)]) ∧
    ((∀ text w, loadFromJSON numberFields text [.plain true (.num 7)] = .failed w ∨
        loadFromJSON numberFields text [.plain false (.num 0)] = .failed w →
        ∀ x ∈ w, x.isSet = false) ↔
      StaysUnset numberFields [.plain true (.num 7)] ∧
        StaysUnset numberFields [.plain false (.num 0)]) :=
  load_forgets_iff numberFields ⟨nofun, trivial, trivial⟩ _ _ ⟨trivial, trivial⟩ ⟨trivial, trivial⟩

/-- An empty object leaves the old flag of a number, and so does a text that is refused. -/
theorem old_flag_stays :
    ¬ (∀ (fs : List Field) (u u' : UnitObject) (text : Text), Distinct fs → Fits fs u → Fits fs u' →
      (loadFromJSON fs text u).Same fs (loadFromJSON fs text u')) ∧
    ¬ ∀ (fs : List Field) (u w : UnitObject) (text : Text), Distinct fs → Fits fs u →
      loadFromJSON fs text u = .failed w → ∀ x ∈ w, x.isSet = false := by
  have hd : Distinct numberFields := ⟨nofun, trivial, trivial⟩
  constructor
  · intro h
    have := h numberFields [.plain true (.num 7)] [.plain false (.num 0)] (.whole (.object [])) hd
      ⟨trivial, trivial⟩ ⟨trivial, trivial⟩
    cases this.1.1
  · intro h
    cases h numberFields [.plain true (.num 7)] [.plain true (.num 0)] (.whole (.scalar .null)) hd
      ⟨trivial, trivial⟩ rfl _ List.mem_cons_self

end

end Hatn.Dataunit.Json
