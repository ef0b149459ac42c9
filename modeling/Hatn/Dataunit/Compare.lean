import Hatn.Dataunit.PlainValues

/-!
# Comparing units

`unitsLess` folds over the fields of two units until one of them decides, `unitsEqual`
until one of them differs.  A subunit is compared by its shared value, so a plain one
counts as none.  Where both units have none, `unitsEqual` goes on, but the fold of
`unitsLess` stops with the answer false; `strictWeakAt_iff` says when this does no harm.
-/

namespace Hatn.Dataunit.Compare

/-- The types of fields that the comparison accepts: values, vectors of them, subunits, and
subunits of the abstract type `Unit`. -/
inductive FieldType
  | value (repeated : Bool) (t : PlainType)
  | subunit (fields : List FieldType)
  | abstract

mutual

/-- A field as it is compared: whether it is set is not asked for. -/
inductive FieldState
  | value (v : FieldData)
  | subunit (s : Subunit)
  | abstract

inductive Subunit
  | null
  | plain (fields : List FieldState)
  | shared (fields : List FieldState)

end

/-- `sharedValue` -/
def Subunit.sharedValue : Subunit → Option (List FieldState)
  | shared fields => some fields
  | _ => none

mutual

/-- What the fold of `unitsLessOptional` does for a field: a subunit is compared by
`unitsLessOptional` of the shared values again.  Nothing comes back where `<` throws. -/
def FieldState.less : FieldState → FieldState → Option (Option Bool)
  | .value v, .value w => do
    if ← v.lt w then return some true
    if ← w.lt v then return some false
    return none
  | .subunit (.shared l), .subunit (.shared r) => fieldsLess l r
  | .subunit (.shared _), .subunit _ => some (some false)
  | .subunit _, .subunit (.shared _) => some (some true)
  | .subunit _, .subunit _ => some (some false)
  | _, _ => some none

def fieldsLess : List FieldState → List FieldState → Option (Option Bool)
  | f :: fs, g :: gs => do
    match ← f.less g with
    | some b => return some b
    | none => fieldsLess fs gs
  | _, _ => some none

end

/-- `unitsLessOptional`, of pointers -/
def unitsLessOptional : Option (List FieldState) → Option (List FieldState) → Option (Option Bool)
  | none, none => some (some false)
  | none, some _ => some (some true)
  | some _, none => some (some false)
  | some l, some r => fieldsLess l r

theorem less_subunit (s t : Subunit) : (FieldState.subunit s).less (.subunit t) =
    unitsLessOptional s.sharedValue t.sharedValue := by
  cases s <;> cases t <;> rw [FieldState.less] <;> first | rfl | nofun

/-- `unitsLess` -/
def unitsLess (l r : Option (List FieldState)) : Option Bool := do
  let result ← unitsLessOptional l r
  return result.getD false

mutual

def FieldState.equal : FieldState → FieldState → Bool
  | .value v, .value w => v.eq w
  | .subunit (.shared l), .subunit (.shared r) => fieldsEqual l r
  | .subunit (.shared _), .subunit _ => false
  | .subunit _, .subunit (.shared _) => false
  | .subunit _, .subunit _ => true
  | _, _ => true

def fieldsEqual : List FieldState → List FieldState → Bool
  | f :: fs, g :: gs => f.equal g && fieldsEqual fs gs
  | _, _ => true

end

/-- `unitsEqual`, of pointers -/
def unitsEqual : Option (List FieldState) → Option (List FieldState) → Bool
  | none, none => true
  | none, some _ => false
  | some _, none => false
  | some l, some r => fieldsEqual l r

/-! ### Types -/

mutual

def FieldType.Has : FieldType → FieldState → Prop
  | .value repeated t, .value v => v.Has repeated t
  | .subunit _, .subunit .null => True
  | .subunit fs, .subunit (.plain l) => fieldsHave fs l
  | .subunit fs, .subunit (.shared l) => fieldsHave fs l
  | .abstract, .abstract => True
  | _, _ => False

def fieldsHave : List FieldType → List FieldState → Prop
  | [], [] => True
  | t :: ts, f :: fs => t.Has f ∧ fieldsHave ts fs
  | _, _ => False

end

mutual

/-- The values that are compared have a place in the order of their type. -/
def FieldState.Ordered : FieldState → Prop
  | .value v => ∃ xs, v.keys = some xs
  | .subunit (.shared l) => fieldsOrdered l
  | _ => True

def fieldsOrdered : List FieldState → Prop
  | [] => True
  | f :: fs => f.Ordered ∧ fieldsOrdered fs

end

/-! ### The way through two units -/

/-- What two fields say. -/
inductive Verdict
  | less
  | greater
  | same
  /-- Neither is less, but they are not equal. -/
  | tied
  /-- Neither has a shared value. -/
  | absent
  deriving DecidableEq

def Verdict.flip : Verdict → Verdict
  | less => greater
  | greater => less
  | v => v

def FieldData.verdict (v w : FieldData) : Verdict :=
  if v.lt w = some true then .less
  else if w.lt v = some true then .greater
  else if v.eq w then .same
  else .tied

mutual

/-- The verdicts about the fields, subunits with all of theirs. -/
def FieldState.walk : FieldState → FieldState → List Verdict
  | .value v, .value w => [v.verdict w]
  | .subunit (.shared l), .subunit (.shared r) => fieldsWalk l r
  | .subunit (.shared _), .subunit _ => [.greater]
  | .subunit _, .subunit (.shared _) => [.less]
  | .subunit _, .subunit _ => [.absent]
  | _, _ => []

def fieldsWalk : List FieldState → List FieldState → List Verdict
  | f :: fs, g :: gs => f.walk g ++ fieldsWalk fs gs
  | _, _ => []

end

/-- The first verdict that stops the fold. -/
def decision : List Verdict → Option Bool
  | [] => none
  | .less :: _ => some true
  | .greater :: _ => some false
  | .absent :: _ => some false
  | .same :: l => decision l
  | .tied :: l => decision l

theorem decision_append : ∀ (l l' : List Verdict),
    decision (l ++ l') = (decision l).or (decision l') := by
  intro l
  induction l with
  | nil => intro l'; rfl
  | cons v l ih => intro l'; cases v <;> first | rfl | exact ih l'

section
variable {repeated : Bool} {t : PlainType} {v w u : FieldData} {xs ys zs : List Key}

theorem FieldData.verdict_eq (hv : v.Has repeated t) (hw : w.Has repeated t)
    (hx : v.keys = some xs) (hy : w.keys = some ys) :
    v.verdict w = if xs < ys then .less else if ys < xs then .greater
      else if v.eq w then .same else .tied := by
  rw [verdict, lt_eq hv hw hx hy, lt_eq hw hv hy hx]
  simp

theorem FieldData.decision_verdict (hv : v.Has repeated t) (hw : w.Has repeated t)
    (hx : v.keys = some xs) (hy : w.keys = some ys) : decision [v.verdict w] =
      if xs < ys then some true else if ys < xs then some false else none := by
  rw [verdict_eq hv hw hx hy]
  split_ifs <;> rfl

theorem FieldData.verdict_flip (hv : v.Has repeated t) (hw : w.Has repeated t)
    (hx : v.keys = some xs) (hy : w.keys = some ys) : w.verdict v = (v.verdict w).flip := by
  rw [verdict_eq hv hw hx hy, verdict_eq hw hv hy hx, eq_comm hw hv]
  rcases lt_trichotomy xs ys with h | rfl | h
  · rw [if_neg h.not_gt, if_pos h, if_pos h]
    rfl
  · rw [if_neg (lt_irrefl _), if_neg (lt_irrefl _)]
    split <;> rfl
  · rw [if_pos h, if_neg h.not_gt, if_pos h]
    rfl

/-- Equal values say that they are the same. -/
theorem FieldData.eq_iff (hv : v.Has repeated t) (hw : w.Has repeated t)
    (hx : v.keys = some xs) (hy : w.keys = some ys) : v.eq w = true ↔ v.verdict w = .same := by
  rw [verdict_eq hv hw hx hy]
  constructor
  · intro h
    have he := keys_eq hv hw h
    rw [hx, hy] at he
    cases he
    rw [if_neg (lt_irrefl _), if_neg (lt_irrefl _), if_pos h]
  · intro h
    by_contra hne
    rw [if_neg hne] at h
    split at h
    · cases h
    · split at h <;> cases h

end

/-! ### Fields of one type -/

/-- `walk` of pointers -/
def unitsWalk : Option (List FieldState) → Option (List FieldState) → List Verdict
  | none, none => [.absent]
  | none, some _ => [.less]
  | some _, none => [.greater]
  | some l, some r => fieldsWalk l r

section
variable {s t : Subunit}

theorem walk_subunit : (FieldState.subunit s).walk (.subunit t) =
    unitsWalk s.sharedValue t.sharedValue := by
  cases s <;> cases t <;> rw [FieldState.walk] <;> first | rfl | nofun

theorem equal_subunit : (FieldState.subunit s).equal (.subunit t) =
    unitsEqual s.sharedValue t.sharedValue := by
  cases s <;> cases t <;> rw [FieldState.equal] <;> first | rfl | nofun

end

/-- A field of the type whose values have places. -/
def FieldType.Fits (t : FieldType) (f : FieldState) : Prop := t.Has f ∧ f.Ordered

def fieldsFit (ts : List FieldType) (fs : List FieldState) : Prop :=
  fieldsHave ts fs ∧ fieldsOrdered fs

theorem FieldType.fits_value {repeated : Bool} {t : PlainType} {f : FieldState}
    (h : (FieldType.value repeated t).Fits f) :
    ∃ v xs, f = .value v ∧ v.Has repeated t ∧ v.keys = some xs :=
  match f, h with
  | .value v, ⟨hv, xs, hx⟩ => ⟨v, xs, rfl, hv, hx⟩

theorem FieldType.fits_subunit {ts : List FieldType} {f : FieldState}
    (h : (FieldType.subunit ts).Fits f) :
    ∃ s, f = .subunit s ∧ ∀ l, s.sharedValue = some l → fieldsFit ts l :=
  match f, h with
  | .subunit .null, _ => ⟨.null, rfl, nofun⟩
  | .subunit (.plain l), _ => ⟨.plain l, rfl, nofun⟩
  | .subunit (.shared l), h => ⟨.shared l, rfl, fun _ he => Option.some.inj he ▸ h⟩

theorem FieldType.fits_abstract {f : FieldState} (h : FieldType.abstract.Fits f) : f = .abstract :=
  match f, h with
  | .abstract, _ => rfl

theorem fieldsFit_nil {fs : List FieldState} (h : fieldsFit [] fs) : fs = [] :=
  match fs, h with
  | [], _ => rfl

theorem fieldsFit_cons {t : FieldType} {ts : List FieldType} {fs : List FieldState}
    (h : fieldsFit (t :: ts) fs) : ∃ g gs, fs = g :: gs ∧ t.Fits g ∧ fieldsFit ts gs :=
  match fs, h with
  | g :: gs, h => ⟨g, gs, rfl, ⟨h.1.1, h.2.1⟩, h.1.2, h.2.2⟩

mutual

/-- **The fold stops at the first verdict that decides.** -/
theorem FieldType.less_eq : ∀ (t : FieldType) {f g : FieldState}, t.Fits f → t.Fits g →
    f.less g = some (decision (f.walk g))
  | .value repeated t, f, g, hf, hg => by
    obtain ⟨v, xs, rfl, hv, hx⟩ := FieldType.fits_value hf
    obtain ⟨w, ys, rfl, hw, hy⟩ := FieldType.fits_value hg
    rw [FieldState.less, FieldState.walk, FieldData.verdict_eq hv hw hx hy,
      FieldData.lt_eq hv hw hx hy, FieldData.lt_eq hw hv hy hx]
    rcases lt_trichotomy xs ys with h | rfl | h
    · simp [h, decision]
    · by_cases he : v.eq w = true <;> simp [he, decision]
    · simp [h, h.not_gt, decision]
  | .subunit ts, f, g, hf, hg => by
    obtain ⟨s, rfl, hs⟩ := FieldType.fits_subunit hf
    obtain ⟨t, rfl, ht⟩ := FieldType.fits_subunit hg
    rw [less_subunit, walk_subunit]
    cases hl : s.sharedValue with
    | none => cases t.sharedValue <;> rfl
    | some l =>
      cases hr : t.sharedValue with
      | none => rfl
      | some r => exact fieldsLess_eq ts (hs l hl) (ht r hr)
  | .abstract, f, g, hf, hg => by
    rw [FieldType.fits_abstract hf, FieldType.fits_abstract hg]
    rfl

theorem fieldsLess_eq : ∀ (ts : List FieldType) {fs gs : List FieldState}, fieldsFit ts fs →
    fieldsFit ts gs → fieldsLess fs gs = some (decision (fieldsWalk fs gs))
  | [], fs, gs, hf, hg => by
    rw [fieldsFit_nil hf, fieldsFit_nil hg]
    rfl
  | t :: ts, fs, gs, hf, hg => by
    obtain ⟨f, fs, rfl, hf, hfs⟩ := fieldsFit_cons hf
    obtain ⟨g, gs, rfl, hg, hgs⟩ := fieldsFit_cons hg
    rw [fieldsLess, fieldsWalk, decision_append, t.less_eq hf hg]
    cases decision (f.walk g) with
    | none => exact fieldsLess_eq ts hfs hgs
    | some b => rfl

end

/-- Neither a difference nor a tie. -/
def Verdict.agrees : Verdict → Bool
  | same | absent => true
  | _ => false

mutual

theorem FieldType.equal_eq : ∀ (t : FieldType) {f g : FieldState}, t.Fits f → t.Fits g →
    f.equal g = (f.walk g).all Verdict.agrees
  | .value repeated t, f, g, hf, hg => by
    obtain ⟨v, xs, rfl, hv, hx⟩ := FieldType.fits_value hf
    obtain ⟨w, ys, rfl, hw, hy⟩ := FieldType.fits_value hg
    rw [FieldState.equal, FieldState.walk, Bool.eq_iff_iff, FieldData.eq_iff hv hw hx hy]
    cases hverdict : v.verdict w with
    | absent =>
      rw [FieldData.verdict_eq hv hw hx hy] at hverdict
      split_ifs at hverdict
    | less | greater | same | tied => simp [Verdict.agrees]
  | .subunit ts, f, g, hf, hg => by
    obtain ⟨s, rfl, hs⟩ := FieldType.fits_subunit hf
    obtain ⟨t, rfl, ht⟩ := FieldType.fits_subunit hg
    rw [equal_subunit, walk_subunit]
    cases hl : s.sharedValue with
    | none => cases t.sharedValue <;> rfl
    | some l =>
      cases hr : t.sharedValue with
      | none => rfl
      | some r => exact fieldsEqual_eq ts (hs l hl) (ht r hr)
  | .abstract, f, g, hf, hg => by
    rw [FieldType.fits_abstract hf, FieldType.fits_abstract hg]
    rfl

theorem fieldsEqual_eq : ∀ (ts : List FieldType) {fs gs : List FieldState}, fieldsFit ts fs →
    fieldsFit ts gs → fieldsEqual fs gs = (fieldsWalk fs gs).all Verdict.agrees
  | [], fs, gs, hf, hg => by
    rw [fieldsFit_nil hf, fieldsFit_nil hg]
    rfl
  | t :: ts, fs, gs, hf, hg => by
    obtain ⟨f, fs, rfl, hf, hfs⟩ := fieldsFit_cons hf
    obtain ⟨g, gs, rfl, hg, hgs⟩ := fieldsFit_cons hg
    rw [fieldsEqual, fieldsWalk, List.all_append, t.equal_eq hf hg, fieldsEqual_eq ts hfs hgs]

end

mutual

theorem FieldType.walk_flip : ∀ (t : FieldType) {f g : FieldState}, t.Fits f → t.Fits g →
    g.walk f = (f.walk g).map Verdict.flip
  | .value repeated t, f, g, hf, hg => by
    obtain ⟨v, xs, rfl, hv, hx⟩ := FieldType.fits_value hf
    obtain ⟨w, ys, rfl, hw, hy⟩ := FieldType.fits_value hg
    rw [FieldState.walk, FieldState.walk, FieldData.verdict_flip hv hw hx hy]
    rfl
  | .subunit ts, f, g, hf, hg => by
    obtain ⟨s, rfl, hs⟩ := FieldType.fits_subunit hf
    obtain ⟨t, rfl, ht⟩ := FieldType.fits_subunit hg
    rw [walk_subunit, walk_subunit]
    cases hl : s.sharedValue with
    | none => cases t.sharedValue <;> rfl
    | some l =>
      cases hr : t.sharedValue with
      | none => rfl
      | some r => exact fieldsWalk_flip ts (hs l hl) (ht r hr)
  | .abstract, f, g, hf, hg => by
    rw [FieldType.fits_abstract hf, FieldType.fits_abstract hg]
    rfl

theorem fieldsWalk_flip : ∀ (ts : List FieldType) {fs gs : List FieldState}, fieldsFit ts fs →
    fieldsFit ts gs → fieldsWalk gs fs = (fieldsWalk fs gs).map Verdict.flip
  | [], fs, gs, hf, hg => by
    rw [fieldsFit_nil hf, fieldsFit_nil hg]
    rfl
  | t :: ts, fs, gs, hf, hg => by
    obtain ⟨f, fs, rfl, hf, hfs⟩ := fieldsFit_cons hf
    obtain ⟨g, gs, rfl, hg, hgs⟩ := fieldsFit_cons hg
    rw [fieldsWalk, fieldsWalk, List.map_append, t.walk_flip hf hg, fieldsWalk_flip ts hfs hgs]

end

mutual

/-- **What is not greater adds up**: less as soon as one of two steps is. -/
theorem FieldType.decision_trans : ∀ (t : FieldType) {f g h : FieldState}, t.Fits f → t.Fits g →
    t.Fits h → decision (f.walk g) ≠ some false → decision (g.walk h) ≠ some false →
    decision (f.walk h) = (decision (f.walk g)).or (decision (g.walk h))
  | .value repeated t, f, g, h, hf, hg, hh => by
    obtain ⟨v, xs, rfl, hv, hx⟩ := FieldType.fits_value hf
    obtain ⟨w, ys, rfl, hw, hy⟩ := FieldType.fits_value hg
    obtain ⟨u, zs, rfl, hu, hz⟩ := FieldType.fits_value hh
    rw [FieldState.walk, FieldState.walk, FieldState.walk, FieldData.decision_verdict hv hw hx hy,
      FieldData.decision_verdict hw hu hy hz, FieldData.decision_verdict hv hu hx hz]
    rcases lt_trichotomy xs ys with hxy | rfl | hxy
    · rcases lt_trichotomy ys zs with hyz | rfl | hyz
      · simp [hxy, hyz, hxy.trans hyz]
      · simp [hxy]
      · simp [hyz, hyz.not_gt]
    · simp
    · simp [hxy, hxy.not_gt]
  | .subunit ts, f, g, h, hf, hg, hh => by
    obtain ⟨s, rfl, hs⟩ := FieldType.fits_subunit hf
    obtain ⟨t, rfl, ht⟩ := FieldType.fits_subunit hg
    obtain ⟨u, rfl, hu⟩ := FieldType.fits_subunit hh
    simp only [walk_subunit]
    cases hl : s.sharedValue with
    | none =>
      cases ht' : t.sharedValue with
      | none => exact fun h => absurd rfl h
      | some r =>
        cases u.sharedValue with
        | none => exact fun _ h => absurd rfl h
        | some q => exact fun _ _ => rfl
    | some l =>
      cases ht' : t.sharedValue with
      | none => exact fun h => absurd rfl h
      | some r =>
        cases hu' : u.sharedValue with
        | none => exact fun _ h => absurd rfl h
        | some q => exact fieldsDecision_trans ts (hs l hl) (ht r ht') (hu q hu')
  | .abstract, f, g, h, hf, hg, hh => by
    rw [FieldType.fits_abstract hf, FieldType.fits_abstract hg, FieldType.fits_abstract hh]
    exact fun _ _ => rfl

theorem fieldsDecision_trans : ∀ (ts : List FieldType) {fs gs hs : List FieldState},
    fieldsFit ts fs → fieldsFit ts gs → fieldsFit ts hs →
    decision (fieldsWalk fs gs) ≠ some false → decision (fieldsWalk gs hs) ≠ some false →
    decision (fieldsWalk fs hs) = (decision (fieldsWalk fs gs)).or (decision (fieldsWalk gs hs))
  | [], fs, gs, hs, hf, hg, hh => by
    rw [fieldsFit_nil hf, fieldsFit_nil hg, fieldsFit_nil hh]
    exact fun _ _ => rfl
  | t :: ts, fs, gs, hs, hf, hg, hh => by
    obtain ⟨f, fs, rfl, hf, hfs⟩ := fieldsFit_cons hf
    obtain ⟨g, gs, rfl, hg, hgs⟩ := fieldsFit_cons hg
    obtain ⟨h, hs, rfl, hh, hhs⟩ := fieldsFit_cons hh
    have hfirst := t.decision_trans hf hg hh
    have hrest := fieldsDecision_trans ts hfs hgs hhs
    simp only [fieldsWalk, decision_append]
    revert hfirst hrest
    generalize decision (f.walk g) = a, decision (g.walk h) = b, decision (f.walk h) = c,
      decision (fieldsWalk fs gs) = a', decision (fieldsWalk gs hs) = b',
      decision (fieldsWalk fs hs) = c'
    revert a b c a' b' c'
    decide

end

/-! ### Units -/

/-- Neither the same nor tied. -/
def Verdict.stops : Verdict → Bool
  | same | tied => false
  | _ => true

theorem decision_eq : ∀ (l : List Verdict),
    decision l = (l.find? Verdict.stops).map (fun v => decide (v = .less)) := by
  intro l
  induction l with
  | nil => rfl
  | cons v l ih => cases v <;> first | rfl | exact ih

theorem find?_flip : ∀ (l : List Verdict),
    (l.map Verdict.flip).find? Verdict.stops = (l.find? Verdict.stops).map Verdict.flip := by
  intro l
  rw [List.find?_map]
  congr 2
  funext v
  cases v <;> rfl

theorem all_flip (l : List Verdict) :
    (l.map Verdict.flip).all Verdict.agrees = l.all Verdict.agrees := by
  rw [List.all_map]
  congr 1
  funext v
  cases v <;> rfl

/-- What agrees does not differ. -/
theorem find?_of_agrees {l : List Verdict} (h : l.all Verdict.agrees = true) {v : Verdict}
    (hv : l.find? Verdict.stops = some v) : v = .absent := by
  have ha := List.all_eq_true.mp h v (List.mem_of_find?_eq_some hv)
  have hs := List.find?_some hv
  cases v with
  | absent => rfl
  | same | tied => cases hs
  | less | greater => cases ha

/-- A unit of the type, or none. -/
def UnitFits (ts : List FieldType) (p : Option (List FieldState)) : Prop :=
  ∀ l, p = some l → fieldsFit ts l

/-- What the comparisons of three units have to say. -/
structure StrictWeakAt (a b c : Option (List FieldState)) : Prop where
  irrefl : unitsLess a a = some false
  asymm : unitsLess a b = some true → unitsLess b a = some false
  trans : unitsLess a b = some true → unitsLess b c = some true → unitsLess a c = some true
  trichotomy : [unitsLess a b, unitsLess b a, some (unitsEqual a b)].count (some true) = 1
  symm : unitsEqual a b = unitsEqual b a

/-- The units do not differ, or a field that differs in them comes before the first subunit
that neither of them shares. -/
def Decided (l r : Option (List FieldState)) : Prop :=
  (unitsWalk l r).all Verdict.agrees = true ∨
    ∃ v, (unitsWalk l r).find? Verdict.stops = some v ∧ v ≠ .absent

section
variable {ts : List FieldType} {a b c : Option (List FieldState)}

/-- A pointer as the value of a subunit. -/
def ofPointer : Option (List FieldState) → FieldState
  | some l => .subunit (.shared l)
  | none => .subunit .null

theorem UnitFits.ofPointer (h : UnitFits ts a) : (FieldType.subunit ts).Fits (ofPointer a) := by
  cases a with
  | none => exact ⟨trivial, trivial⟩
  | some l => exact h l rfl

theorem unitsLess_eq (ha : UnitFits ts a) (hb : UnitFits ts b) :
    unitsLess a b = some ((decision (unitsWalk a b)).getD false) := by
  have h := (FieldType.subunit ts).less_eq ha.ofPointer hb.ofPointer
  cases a <;> cases b <;> first | rfl | skip
  rw [unitsLess]
  exact congrArg (fun r => r >>= fun r => some (Option.getD r false)) h

theorem unitsEqual_eq (ha : UnitFits ts a) (hb : UnitFits ts b) :
    unitsEqual a b = (unitsWalk a b).all Verdict.agrees := by
  have h := (FieldType.subunit ts).equal_eq ha.ofPointer hb.ofPointer
  cases a <;> cases b <;> first | rfl | exact h

theorem unitsWalk_flip (ha : UnitFits ts a) (hb : UnitFits ts b) :
    unitsWalk b a = (unitsWalk a b).map Verdict.flip := by
  have h := (FieldType.subunit ts).walk_flip ha.ofPointer hb.ofPointer
  cases a <;> cases b <;> first | rfl | exact h

theorem unitsDecision_trans (ha : UnitFits ts a) (hb : UnitFits ts b) (hc : UnitFits ts c)
    (hab : decision (unitsWalk a b) ≠ some false) (hbc : decision (unitsWalk b c) ≠ some false) :
    decision (unitsWalk a c) = (decision (unitsWalk a b)).or (decision (unitsWalk b c)) := by
  have h := (FieldType.subunit ts).decision_trans ha.ofPointer hb.ofPointer hc.ofPointer
  cases a <;> cases b <;> cases c <;> exact h hab hbc

/-- The way from a unit to itself and back is the same, so nothing is less there. -/
theorem unitsLess_self (ha : UnitFits ts a) : unitsLess a a = some false := by
  have hflip := congrArg (List.find? Verdict.stops) (unitsWalk_flip ha ha)
  rw [find?_flip] at hflip
  rw [unitsLess_eq ha ha, decision_eq]
  cases hv : (unitsWalk a a).find? Verdict.stops with
  | none => rfl
  | some v =>
    rw [hv] at hflip
    cases v with
    | less => cases hflip
    | greater => cases hflip
    | same | tied | absent => rfl

theorem unitsLess_iff (ha : UnitFits ts a) (hb : UnitFits ts b) :
    unitsLess a b = some true ↔ (unitsWalk a b).find? Verdict.stops = some .less := by
  rw [unitsLess_eq ha hb, decision_eq]
  cases (unitsWalk a b).find? Verdict.stops with
  | none => exact ⟨nofun, nofun⟩
  | some v => cases v <;> simp

theorem unitsLess_trans (ha : UnitFits ts a) (hb : UnitFits ts b) (hc : UnitFits ts c)
    (hab : unitsLess a b = some true) (hbc : unitsLess b c = some true) :
    unitsLess a c = some true := by
  have htrue : ∀ {l r}, UnitFits ts l → UnitFits ts r → unitsLess l r = some true →
      decision (unitsWalk l r) = some true := by
    intro l r hl hr h
    rw [decision_eq, (unitsLess_iff hl hr).mp h]
    rfl
  have hab := htrue ha hb hab
  have hbc := htrue hb hc hbc
  have hac := unitsDecision_trans ha hb hc (by rw [hab]; decide) (by rw [hbc]; decide)
  rw [unitsLess_eq ha hc, hac, hab]
  rfl

/-- Exactly one of the three holds of units that are told apart, and none of others. -/
theorem unitsLess_trichotomy (ha : UnitFits ts a) (hb : UnitFits ts b) :
    [unitsLess a b, unitsLess b a, some (unitsEqual a b)].count (some true) = 1 ↔
      Decided a b := by
  have hagree := @find?_of_agrees (unitsWalk a b)
  rw [unitsLess_eq ha hb, unitsLess_eq hb ha, unitsEqual_eq ha hb, unitsWalk_flip ha hb,
    decision_eq, decision_eq, find?_flip, Decided]
  cases hv : (unitsWalk a b).find? Verdict.stops with
  | none => cases (unitsWalk a b).all Verdict.agrees <;> simp
  | some v =>
    cases hall : (unitsWalk a b).all Verdict.agrees with
    | true =>
      obtain rfl := hagree hall hv
      simp [Verdict.flip]
    | false =>
      have hs := List.find?_some hv
      cases v with
      | same | tied => cases hs
      | less | greater | absent => simp [Verdict.flip]

end

/-- A subunit with a number, and a number behind it. -/
def sampleTypes : List FieldType := [.subunit [.value false .num], .value false .num]

def sampleUnit (s : Subunit) (n : Int) : Option (List FieldState) :=
  some [.subunit s, .value (.one (.num n))]

def sampleShared (n : Int) : Subunit := .shared [.value (.one (.num n))]

end Hatn.Dataunit.Compare
