import Hatn.Dataunit.JsonLeftovers

/-!
# Integers that are read from JSON

The reader of an integer field casts the number that is written to the type of the field,
whatever the number is.  It is compared with a reader that stores the number as it is: both leave
the same unit behind each event if and only if the numbers are in the range of the types
(`stores_exactly_iff`).
-/

namespace Hatn.Dataunit.Json

open Hatn.Common Hatn.Json

/-! ### Numbers in a text -/

/-- What is reported of an integer that is written: one that does not have 64 bits is reported as
a floating point number. -/
def reportedNumber (toDouble : Int → Nat) (n : Int) : Scalar :=
  if -2 ^ 63 ≤ n ∧ n < 2 ^ 64 then .integer n else .double (toDouble n)

def reportedScalar (toDouble : Int → Nat) : Scalar → Scalar
  | .integer n => reportedNumber toDouble n
  | a => a

mutual

/-- What is reported of a value whose integers are of any size. -/
def reported (toDouble : Int → Nat) : Value → Value
  | .scalar a => .scalar (reportedScalar toDouble a)
  | .array l => .array (reportedElements toDouble l)
  | .object ms => .object (reportedMembers toDouble ms)

def reportedElements (toDouble : Int → Nat) : List Value → List Value
  | [] => []
  | v :: l => reported toDouble v :: reportedElements toDouble l

def reportedMembers (toDouble : Int → Nat) : List (Name × Value) → List (Name × Value)
  | [] => []
  | (k, v) :: ms => (k, reported toDouble v) :: reportedMembers toDouble ms

end

/-! ### A reader that stores numbers as they are -/

/-- An integer type without a width. -/
def exactType : PlainType where
  read
    | .bool b => some fun _ => .num (if b then 1 else 0)
    | .integer n => some fun _ => .num n
    | _ => none
  zero := .num 0
  dropsFlag _ := false
  accepts := ⟨.bool true, rfl⟩

def PlainType.IsInt (t : PlainType) : Prop := ∃ signed w, t = intType signed w

open Classical in
/-- Integer types lose their width, other types stay. -/
noncomputable def PlainType.exact (t : PlainType) : PlainType := if t.IsInt then exactType else t

mutual

noncomputable def FieldKind.exact : FieldKind → FieldKind
  | .plain t default? => .plain t.exact default?
  | .subunit fs => .subunit (exactFields fs)
  | .array t => .array t.exact
  | .units fs => .units (exactFields fs)
  | .map => .map

noncomputable def exactFields : List Field → List Field
  | [] => []
  | .mk name required kind :: fs => .mk name required kind.exact :: exactFields fs

end

/-- Two runs have the same unit behind each event. -/
def Together (es : List Event) (s s' : State) : Prop :=
  ∀ n, (run (es.take n) s).unit = (run (es.take n) s').unit

/-- **Numbers are stored as they are written**: with each event, the unit is that of a reader that
stores them so. -/
def StoresExactly (fs : List Field) (v : Value) (u : UnitObject) : Prop :=
  Together v.events ⟨clear fs u, [.unit [] fs 0 0 Int.one_nonneg]⟩
    ⟨clear fs u, [.unit [] (exactFields fs) 0 0 Int.one_nonneg]⟩

/-! ### Numbers that are in range -/

/-- A number is within the range of the type if that is an integer type. -/
def PlainType.Holds (t : PlainType) : Scalar → Prop
  | .integer n => ∀ signed w, t = intType signed w → InRange signed w n
  | _ => True

mutual

/-- Each integer that the value gives to an integer field is in the range of its type. -/
def FieldKind.Holds : FieldKind → Value → Prop
  | .plain t _, .scalar a => t.Holds a
  | .subunit fs, .object ms => MembersHold fs ms
  | .array t, .array l => ElementsHold (.array t) l
  | .units fs, .array l => ElementsHold (.units fs) l
  | _, _ => True

def FieldKind.ElementHolds : FieldKind → Value → Prop
  | .array t, .scalar a => t.Holds a
  | .units fs, .object ms => MembersHold fs ms
  | _, _ => True

def ElementsHold (kind : FieldKind) : List Value → Prop
  | [] => True
  | v :: l => kind.ElementHolds v ∧ ElementsHold kind l

def MembersHold (fs : List Field) : List (Name × Value) → Prop
  | [] => True
  | (k, v) :: ms =>
    match fieldByName fs k with
    | some (_, f) => f.kind.Holds v ∧ MembersHold fs ms
    | none => MembersHold fs ms

end

/-- Of a value that is read into a unit. -/
def RootHolds (fs : List Field) : Value → Prop
  | .object ms => MembersHold fs ms
  | _ => True

/-! ### Casts -/

theorem inRange_castTo (signed : Bool) (w : Width) (n : Int) :
    InRange signed w (castTo signed w n) := by
  have hpos : (0 : Int) < 2 ^ w.bits := by positivity
  cases signed with
  | false =>
    simp only [InRange, castTo, Bool.false_eq_true, if_false]
    exact ⟨Int.emod_nonneg n (ne_of_gt hpos), Int.emod_lt_of_pos n hpos⟩
  | true =>
    simp only [InRange, castTo, if_true]
    have hle := Int.le_bmod (x := n) (m := 2 ^ w.bits) (by positivity)
    have hlt := Int.bmod_lt (x := n) (m := 2 ^ w.bits) (by positivity)
    cases w <;> simp only [Width.bits] at hle hlt ⊢ <;> norm_num at hle hlt ⊢ <;> omega

/-- A cast keeps the number exactly if it is in range. -/
theorem castTo_eq_iff {signed : Bool} {w : Width} {n : Int} :
    castTo signed w n = n ↔ InRange signed w n :=
  ⟨fun h => h ▸ inRange_castTo signed w n, castTo_of_inRange⟩

theorem PlainType.exact_zero (t : PlainType) : t.exact.zero = t.zero := by
  unfold exact
  split
  next h =>
    obtain ⟨signed, w, rfl⟩ := h
    rfl
  next => rfl

/-- The reader of the type without a width accepts the same, and it makes the same of it if the
number is in range. -/
theorem PlainType.exact_read {t : PlainType} {a : Scalar} {r : PlainValue → PlainValue}
    (h : t.read a = some r) :
    ∃ r', t.exact.read a = some r' ∧ ∀ x, (r x = r' x ↔ t.Holds a) := by
  unfold exact
  split
  next hint =>
    obtain ⟨signed, w, rfl⟩ := hint
    cases a with
    | bool b =>
      obtain rfl := Option.some.inj h
      exact ⟨_, rfl, fun x => iff_of_true rfl trivial⟩
    | integer n =>
      obtain rfl := Option.some.inj h
      refine ⟨fun _ => .num n, rfl, fun x => ?_⟩
      constructor
      · intro heq signed' w' htype
        have hcast : castTo signed w n = n := PlainValue.num.inj heq
        have hread :
            (intType signed w).read (.integer n) = (intType signed' w').read (.integer n) :=
          congrArg (fun t => t.read (.integer n)) htype
        have hsame : castTo signed w n = castTo signed' w' n :=
          PlainValue.num.inj (congrFun (Option.some.inj hread) x)
        exact castTo_eq_iff.mp (hsame.symm.trans hcast)
      · intro hholds
        exact congrArg PlainValue.num (castTo_eq_iff.mpr (hholds signed w rfl))
    | _ => cases h
  next hint =>
    refine ⟨r, h, fun x => iff_of_true rfl ?_⟩
    cases a with
    | integer n => exact fun signed w htype => absurd ⟨signed, w, htype⟩ hint
    | _ => trivial

/-! ### Units at the end of a way -/

/-- The unit at the end of a way. -/
def unitAt : List Place → UnitObject → Option UnitObject
  | [], u => some u
  | .subunit i :: path, u =>
    match u[i]? with
    | some (.subunit _ (some v)) => unitAt path v
    | _ => none
  | .element i :: path, u =>
    match u[i]? with
    | some (.units _ l) => l.getLast?.bind fun e => unitAt path e.2
    | _ => none

theorem unitAt_append {path path' : List Place} : ∀ {u x : UnitObject}, unitAt path u = some x →
    unitAt (path ++ path') u = unitAt path' x := by
  induction path with
  | nil =>
    intro u x h
    injection h with h
    rw [List.nil_append, h]
  | cons place path ih =>
    intro u x h
    cases place with
    | subunit i =>
      rw [unitAt] at h
      rw [List.cons_append, unitAt]
      split at h
      next b v hv => exact ih h
      next => cases h
    | element i =>
      rw [unitAt] at h
      rw [List.cons_append, unitAt]
      split at h
      next b l hl =>
        obtain ⟨e, he, h⟩ := Option.bind_eq_some_iff.mp h
        rw [he]
        exact ih h
      next => cases h

theorem unitAt_modifyAt {path : List Place} {g : UnitObject → UnitObject} :
    ∀ {u x : UnitObject}, unitAt path u = some x →
      unitAt path (modifyAt path g u) = some (g x) := by
  induction path with
  | nil =>
    intro u x h
    injection h with h
    rw [modifyAt, unitAt, h]
  | cons place path ih =>
    intro u x h
    cases place with
    | subunit i =>
      rw [unitAt] at h
      split at h
      next b v hv =>
        have hmodify : (modifyAt (.subunit i :: path) g u)[i]? =
            some (.subunit b (some (modifyAt path g v))) := by
          rw [modifyAt, Place.modify, List.getElem?_modify_eq, hv]
          rfl
        rw [unitAt, hmodify]
        exact ih h
      next => cases h
    | element i =>
      rw [unitAt] at h
      split at h
      next b l hl =>
        obtain ⟨e, he, hat⟩ := Option.bind_eq_some_iff.mp h
        obtain ⟨l, rfl⟩ := List.getLast?_eq_some_iff.mp he
        have hmodify : (modifyAt (.element i :: path) g u)[i]? =
            some (.units b (l ++ [(e.1, modifyAt path g e.2)])) := by
          rw [modifyAt, Place.modify, List.getElem?_modify_eq, hl]
          exact congrArg (fun l => some (FieldObject.units b l)) (List.modifyLast_concat ..)
        rw [unitAt, hmodify]
        simp only [List.getLast?_append, List.getLast?_singleton, Option.some_or, Option.bind_some]
        exact ih hat
      next => cases h

theorem Fits.modify : ∀ {fs : List Field} {u : UnitObject}, Fits fs u → ∀ {i : Nat} {f : Field}
    {g : FieldObject → FieldObject}, fs[i]? = some f →
    (∀ y, f.kind.Fits y → f.kind.Fits (g y)) → Fits fs (u.modify i g)
  | [], [], _, _, _, _, hf, _ => nomatch hf
  | .mk _ _ _ :: _, x :: _, h, 0, _, _, hf, hg => by
    injection hf with hf
    subst hf
    exact ⟨hg x h.1, h.2⟩
  | .mk _ _ _ :: _, _ :: _, h, _ + 1, _, _, hf, hg => ⟨h.1, Fits.modify h.2 hf hg⟩

/-- A way leads to a unit with these fields. -/
def Leads (path : List Place) (fs : List Field) (u : UnitObject) : Prop :=
  ∃ x, unitAt path u = some x ∧ Fits fs x

namespace Leads

variable {path : List Place} {fs gs : List Field} {u : UnitObject} {i : Nat} {f : Field}
  {name : Name} {required : Bool} {g g' : FieldObject → FieldObject}

theorem modify (h : Leads path fs u) (hf : fs[i]? = some f)
    (hg : ∀ y, f.kind.Fits y → f.kind.Fits (g y)) :
    Leads path fs (modifyAt path (fun x => x.modify i g) u) := by
  obtain ⟨x, hx, hfits⟩ := h
  exact ⟨_, unitAt_modifyAt hx, hfits.modify hf hg⟩

/-- What a field is changed to can be seen. -/
theorem modify_inj (h : Leads path fs u) (hf : fs[i]? = some f)
    (heq : modifyAt path (fun x => x.modify i g) u = modifyAt path (fun x => x.modify i g') u) :
    ∃ y, f.kind.Fits y ∧ g y = g' y := by
  obtain ⟨x, hx, hfits⟩ := h
  obtain ⟨y, hy, hfit⟩ := hfits.getElem? hf
  have hunit : x.modify i g = x.modify i g' :=
    Option.some.inj ((unitAt_modifyAt hx).symm.trans ((congrArg (unitAt path) heq).trans
      (unitAt_modifyAt hx)))
  have hfield : (x.modify i g)[i]? = (x.modify i g')[i]? := congrArg (·[i]?) hunit
  rw [List.getElem?_modify_eq, List.getElem?_modify_eq, hy] at hfield
  exact ⟨y, hfit, Option.some.inj hfield⟩

/-- On to the content of a subunit. -/
theorem subunit (h : Leads path fs u) (hf : fs[i]? = some (.mk name required (.subunit gs))) :
    Leads (path ++ [.subunit i]) gs
      (modifyAt path (fun x => x.modify i (·.mutableValue (construct gs))) u) := by
  obtain ⟨x, hx, hfits⟩ := h
  obtain ⟨y, hy, hfit⟩ := hfits.getElem? hf
  cases y with
  | subunit b v =>
    refine ⟨v.getD (construct gs), ?_, ?_⟩
    · rw [unitAt_append (unitAt_modifyAt hx), unitAt, List.getElem?_modify_eq, hy]
      rfl
    · cases v with
      | none => exact construct_fits gs
      | some v => exact hfit
  | _ => exact hfit.elim

/-- On to an element that is appended. -/
theorem element (h : Leads path fs u) (hf : fs[i]? = some (.mk name required (.units gs))) :
    Leads (path ++ [.element i]) gs (modifyAt path (fun x => x.modify i (·.mutableLast))
      (modifyAt path (fun x => x.modify i (·.createAndAppendValue (construct gs))) u)) := by
  obtain ⟨x, hx, hfits⟩ := h
  obtain ⟨y, hy, hfit⟩ := hfits.getElem? hf
  cases y with
  | units b l =>
    refine ⟨construct gs, ?_, construct_fits gs⟩
    rw [unitAt_append (unitAt_modifyAt (unitAt_modifyAt hx)), unitAt, List.getElem?_modify_eq,
      List.getElem?_modify_eq, hy]
    simp only [Option.map_eq_map, Option.map_some, FieldObject.createAndAppendValue,
      FieldObject.mutableLast, List.modifyLast_concat, List.getLast?_append,
      List.getLast?_singleton, Option.some_or, Option.bind_some]
    rfl
  | _ => exact hfit.elim

end Leads

/-! ### Clearing and reading keep the form -/

mutual

theorem FieldKind.clear_fits : ∀ {kind : FieldKind} {x : FieldObject}, kind.Fits x →
    kind.Fits (kind.clear x)
  | .plain _ _, .plain _ _, _ => trivial
  | .subunit _, .subunit _ none, _ => trivial
  | .subunit _, .subunit _ (some _), h => clear_fits h
  | .array _, .array _ _, _ => trivial
  | .units _, .units _ _, _ => fun _ he => nomatch he
  | .map, .map _, _ => trivial

theorem clear_fits : ∀ {fs : List Field} {u : UnitObject}, Fits fs u → Fits fs (clear fs u)
  | [], [], _ => trivial
  | .mk _ _ _ :: _, _ :: _, h => ⟨FieldKind.clear_fits h.1, clear_fits h.2⟩

end

mutual

theorem FieldKind.readValue_fits : ∀ (v : Value) {kind : FieldKind}
    {g : FieldObject → FieldObject}, kind.readValue v = some g → ∀ y, kind.Fits y →
    kind.Fits (g y)
  | .scalar a, kind, g, hg, y, hy => by
    cases kind with
    | plain t d =>
      obtain ⟨r, -, rfl⟩ := Option.map_eq_some_iff.mp hg
      cases y with
      | plain b x => exact trivial
      | _ => exact hy.elim
    | subunit fs =>
      cases a with
      | null =>
        obtain rfl := Option.some.inj hg
        exact hy
      | _ => simp [FieldKind.readValue] at hg
    | _ => simp [FieldKind.readValue] at hg
  | .object ms, kind, g, hg, y, hy => by
    cases kind with
    | subunit fs =>
      rw [FieldKind.readValue, Option.map_eq_some_iff] at hg
      obtain ⟨r, hr, rfl⟩ := hg
      cases y with
      | subunit b x =>
        cases x with
        | none => exact readMembers_fits ms hr _ (construct_fits fs)
        | some x => exact readMembers_fits ms hr x hy
      | _ => exact hy.elim
    | _ => simp [FieldKind.readValue] at hg
  | .array l, kind, g, hg, y, hy => by
    cases kind with
    | array t => exact readElements_fits l (by rwa [FieldKind.readValue] at hg) y hy
    | units fs => exact readElements_fits l (by rwa [FieldKind.readValue] at hg) y hy
    | _ => simp [FieldKind.readValue] at hg

theorem FieldKind.readElement_fits : ∀ (v : Value) {kind : FieldKind}
    {g : FieldObject → FieldObject}, kind.readElement v = some g → ∀ y, kind.Fits y →
    kind.Fits (g y)
  | .scalar a, kind, g, hg, y, hy => by
    cases kind with
    | array t =>
      obtain ⟨r, -, rfl⟩ := Option.map_eq_some_iff.mp hg
      cases y with
      | array b l => exact trivial
      | _ => exact hy.elim
    | units fs =>
      cases a with
      | null =>
        obtain rfl := Option.some.inj hg
        cases y with
        | units b l => exact List.forall_mem_append.mpr ⟨hy, by simpa using construct_fits fs⟩
        | _ => exact hy.elim
      | _ => simp [FieldKind.readElement] at hg
    | _ => simp [FieldKind.readElement] at hg
  | .object ms, kind, g, hg, y, hy => by
    cases kind with
    | units fs =>
      rw [FieldKind.readElement, Option.map_eq_some_iff] at hg
      obtain ⟨r, hr, rfl⟩ := hg
      cases y with
      | units b l =>
        simp only [FieldObject.createAndAppendValue, FieldObject.mutableLast,
          FieldObject.modifyLast, List.modifyLast_concat]
        refine List.forall_mem_append.mpr ⟨hy, ?_⟩
        simpa using readMembers_fits ms hr _ (construct_fits fs)
      | _ => exact hy.elim
    | _ => simp [FieldKind.readElement] at hg
  | .array l, kind, g, hg, y, hy => by
    cases kind <;> simp [FieldKind.readElement] at hg

theorem readElements_fits : ∀ (l : List Value) {kind : FieldKind} {g : FieldObject → FieldObject},
    readElements kind l = some g → ∀ y, kind.Fits y → kind.Fits (g y)
  | [], kind, g, hg, y, hy => by
    obtain rfl := Option.some.inj hg
    exact hy
  | v :: l, kind, g, hg, y, hy => by
    rw [readElements] at hg
    split at hg
    next r r' hr hr' =>
      obtain rfl := Option.some.inj hg
      exact readElements_fits l hr' _ (FieldKind.readElement_fits v hr y hy)
    next => cases hg

theorem readMembers_fits : ∀ (ms : List (Name × Value)) {fs : List Field}
    {g : UnitObject → UnitObject}, readMembers fs ms = some g → ∀ u, Fits fs u → Fits fs (g u)
  | [], fs, g, hg, u, hu => by
    obtain rfl := Option.some.inj hg
    exact hu
  | (k, v) :: ms, fs, g, hg, u, hu => by
    rw [readMembers] at hg
    split at hg
    next i f hf =>
      split at hg
      next r r' hr hr' =>
        obtain rfl := Option.some.inj hg
        exact readMembers_fits ms hr' _
          (hu.modify (fieldByName_getElem? hf).1 (FieldKind.readValue_fits v hr))
      next => cases hg
    next => cases hg

end

/-! ### What the exact reader makes of numbers in range -/

theorem construct_exactFields : ∀ fs : List Field, construct (exactFields fs) = construct fs := by
  intro fs
  induction fs with
  | nil => rfl
  | cons f fs htail =>
    obtain ⟨_, _, kind⟩ := f
    have hkind : kind.exact.construct = kind.construct := by
      cases kind with
      | plain t d =>
        rw [FieldKind.exact, FieldKind.construct, t.exact_zero]
        rfl
      | _ => rfl
    simp only [construct, exactFields, List.map_cons, Field.kind, hkind] at htail ⊢
    rw [htail]

theorem fieldByName_exactFields : ∀ {fs : List Field} {k : Name} {i : Nat} {f : Field},
    fieldByName fs k = some (i, f) →
    fieldByName (exactFields fs) k = some (i, .mk f.name f.required f.kind.exact)
  | [], _, _, _, h => nomatch h
  | .mk name required kind :: fs, k, i, f, h => by
    rw [fieldByName] at h
    rw [exactFields, fieldByName]
    split at h
    next heq =>
      obtain ⟨rfl, rfl⟩ := Prod.mk.inj (Option.some.inj h)
      exact if_pos heq
    next hne =>
      obtain ⟨⟨j, f'⟩, hj, heq⟩ := Option.map_eq_some_iff.mp h
      obtain ⟨rfl, rfl⟩ := Prod.mk.inj heq
      have hname : ¬(Field.mk name required kind.exact).name = k := hne
      rw [if_neg hname, fieldByName_exactFields hj]
      rfl

mutual

theorem FieldKind.exact_readValue : ∀ (v : Value) {kind : FieldKind}
    {g : FieldObject → FieldObject}, kind.readValue v = some g → kind.Holds v →
    kind.exact.readValue v = some g
  | .scalar a, kind, g, hg, h => by
    cases kind with
    | plain t d =>
      obtain ⟨r, hr, rfl⟩ := Option.map_eq_some_iff.mp hg
      obtain ⟨r', hr', heq⟩ := PlainType.exact_read hr
      obtain rfl : r = r' := funext fun x => (heq x).mpr h
      exact Option.map_eq_some_iff.mpr ⟨r, hr', rfl⟩
    | subunit fs =>
      cases a with
      | null => exact hg
      | _ => simp [FieldKind.readValue] at hg
    | _ => simp [FieldKind.readValue] at hg
  | .object ms, kind, g, hg, h => by
    cases kind with
    | subunit fs =>
      rw [FieldKind.readValue, Option.map_eq_some_iff] at hg
      obtain ⟨r, hr, rfl⟩ := hg
      rw [FieldKind.Holds] at h
      rw [FieldKind.exact, FieldKind.readValue, exact_readMembers ms hr h, construct_exactFields]
      rfl
    | _ => simp [FieldKind.readValue] at hg
  | .array l, kind, g, hg, h => by
    cases kind with
    | array t =>
      rw [FieldKind.readValue] at hg
      rw [FieldKind.Holds] at h
      exact exact_readElements l hg h
    | units fs =>
      rw [FieldKind.readValue] at hg
      rw [FieldKind.Holds] at h
      exact exact_readElements l hg h
    | _ => simp [FieldKind.readValue] at hg

theorem FieldKind.exact_readElement : ∀ (v : Value) {kind : FieldKind}
    {g : FieldObject → FieldObject}, kind.readElement v = some g → kind.ElementHolds v →
    kind.exact.readElement v = some g
  | .scalar a, kind, g, hg, h => by
    cases kind with
    | array t =>
      obtain ⟨r, hr, rfl⟩ := Option.map_eq_some_iff.mp hg
      obtain ⟨r', hr', heq⟩ := PlainType.exact_read hr
      rw [FieldKind.exact, FieldKind.readElement, hr', Option.map_some, t.exact_zero,
        ← (heq t.zero).mpr h]
    | units fs =>
      cases a with
      | null =>
        obtain rfl := Option.some.inj hg
        rw [FieldKind.exact, FieldKind.readElement, construct_exactFields]
      | _ => simp [FieldKind.readElement] at hg
    | _ => simp [FieldKind.readElement] at hg
  | .object ms, kind, g, hg, h => by
    cases kind with
    | units fs =>
      rw [FieldKind.readElement, Option.map_eq_some_iff] at hg
      obtain ⟨r, hr, rfl⟩ := hg
      rw [FieldKind.ElementHolds] at h
      rw [FieldKind.exact, FieldKind.readElement, exact_readMembers ms hr h, construct_exactFields]
      rfl
    | _ => simp [FieldKind.readElement] at hg
  | .array l, kind, g, hg, h => by
    cases kind <;> simp [FieldKind.readElement] at hg

theorem exact_readElements : ∀ (l : List Value) {kind : FieldKind}
    {g : FieldObject → FieldObject}, readElements kind l = some g → ElementsHold kind l →
    readElements kind.exact l = some g
  | [], kind, g, hg, h => hg
  | v :: l, kind, g, hg, h => by
    rw [readElements] at hg
    split at hg
    next r r' hr hr' =>
      obtain rfl := Option.some.inj hg
      rw [readElements, FieldKind.exact_readElement v hr h.1, exact_readElements l hr' h.2]
    next => cases hg

theorem exact_readMembers : ∀ (ms : List (Name × Value)) {fs : List Field}
    {g : UnitObject → UnitObject}, readMembers fs ms = some g → MembersHold fs ms →
    readMembers (exactFields fs) ms = some g
  | [], fs, g, hg, h => hg
  | (k, v) :: ms, fs, g, hg, h => by
    rw [readMembers] at hg
    split at hg
    next i f hf =>
      split at hg
      next r r' hr hr' =>
        obtain rfl := Option.some.inj hg
        rw [MembersHold, hf] at h
        have hv : (Field.mk f.name f.required f.kind.exact).kind.readValue v = some r :=
          FieldKind.exact_readValue v hr h.1
        rw [readMembers, fieldByName_exactFields hf]
        simp only [hv, exact_readMembers ms hr' h.2]
      next => cases hg
    next => cases hg

end

/-! ### Two runs -/

section

variable {e : Event} {es es' : List Event} {s s' t t' : State} {u : UnitObject}
  {hs hs' : List Handler}

theorem Together.left (h : Together (es ++ es') s s') : Together es s s' := by
  intro n
  have htake : (es ++ es').take (min n es.length) = es.take n := by
    rw [List.take_append_of_le_length (Nat.min_le_right ..), ← List.take_eq_take_min]
  have hn := h (min n es.length)
  rwa [htake] at hn

/-- Two runs over two parts have the same units over each of them. -/
theorem together_append (ht : run es s = .running t) (ht' : run es s' = .running t') :
    Together (es ++ es') s s' ↔ Together es s s' ∧ Together es' t t' := by
  have hskip : ∀ n, (es ++ es').take (es.length + n) = es ++ es'.take n :=
    fun n => List.take_length_add_append n
  constructor
  · refine fun h => ⟨h.left, fun n => ?_⟩
    have hn := h (es.length + n)
    rwa [hskip, run_append, run_append, ht, ht'] at hn
  · rintro ⟨h, h'⟩ n
    obtain hn | hn := Nat.le_total n es.length
    · rw [List.take_append_of_le_length hn]
      exact h n
    · obtain ⟨m, rfl⟩ := Nat.exists_eq_add_of_le hn
      rw [hskip, run_append, run_append, ht, ht']
      exact h' m

/-- The second part is looked at only where the first one is the same. -/
theorem together_append_iff {P Q : Prop} (hfirst : Together es s s' ↔ P)
    (hrest : P → ∃ t t', run es s = .running t ∧ run es s' = .running t' ∧
      (Together es' t t' ↔ Q)) : Together (es ++ es') s s' ↔ P ∧ Q := by
  constructor
  · intro h
    have hp := hfirst.mp h.left
    obtain ⟨t, t', ht, ht', hq⟩ := hrest hp
    exact ⟨hp, hq.mp ((together_append ht ht').mp h).2⟩
  · rintro ⟨hp, hq'⟩
    obtain ⟨t, t', ht, ht', hq⟩ := hrest hp
    exact (together_append ht ht').mpr ⟨hfirst.mpr hp, hq.mpr hq'⟩

theorem together_singleton : Together [e] ⟨u, hs⟩ ⟨u, hs'⟩ ↔
    (step e ⟨u, hs⟩).unit = (step e ⟨u, hs'⟩).unit := by
  constructor
  · intro h
    have hone := h 1
    rwa [List.take_succ_cons, List.take_zero, run_singleton, run_singleton] at hone
  · intro h n
    cases n with
    | zero => rfl
    | succ n =>
      rw [List.take_succ_cons, List.take_nil, run_singleton, run_singleton]
      exact h

theorem together_cons (ht : step e ⟨u, hs⟩ = .running t) (ht' : step e ⟨u, hs'⟩ = .running t') :
    Together (e :: es) ⟨u, hs⟩ ⟨u, hs'⟩ ↔ Together es t t' := by
  have hstep : ∀ {s t : State} (n : Nat), step e s = .running t →
      run ((e :: es).take (n + 1)) s = run (es.take n) t := by
    intro s t n h
    rw [List.take_succ_cons, run, h]
    rfl
  constructor
  · intro h n
    have hn := h (n + 1)
    rwa [hstep n ht, hstep n ht'] at hn
  · intro h n
    cases n with
    | zero => rfl
    | succ n =>
      rw [hstep n ht, hstep n ht']
      exact h n

end

/-! ### Two readers -/

section

variable {path : List Place} {fs : List Field} {i : Nat} {name : Name} {required : Bool}
  {kind : FieldKind} {u : UnitObject} {hs hs' : List Handler} {sc : Int}

/-- What two readers of a field make of a scalar is the same if and only if `P` holds. -/
theorem together_scalar {P : Prop} {f : Field} {a : Scalar} {g g' : FieldObject → FieldObject}
    (hpath : Leads path fs u) (hf : fs[i]? = some f)
    (hstep : (step (.scalar a) ⟨u, hs⟩).unit = modifyAt path (fun x => x.modify i g) u)
    (hstep' : (step (.scalar a) ⟨u, hs'⟩).unit = modifyAt path (fun x => x.modify i g') u)
    (hto : ∀ y, f.kind.Fits y → g y = g' y → P) (hfrom : P → g = g') :
    Together [.scalar a] ⟨u, hs⟩ ⟨u, hs'⟩ ↔ P := by
  rw [together_singleton, hstep, hstep']
  constructor
  · intro heq
    obtain ⟨y, hy, hsame⟩ := hpath.modify_inj hf heq
    exact hto y hy hsame
  · intro h
    rw [hfrom h]

theorem step_plain {t : PlainType} {d : Option PlainValue} {a : Scalar}
    {r : PlainValue → PlainValue} (hr : t.read a = some r) :
    step (.scalar a) ⟨u, .field path i (.plain t d) sc :: hs⟩ =
      .running (State.modifyField path i (·.setValue r) ⟨u, hs⟩) := by
  simp only [step, Handler.handle, FieldReader.handle, hr]

theorem step_array {t : PlainType} {a : Scalar} {r : PlainValue → PlainValue}
    (hr : t.read a = some r) :
    step (.scalar a) ⟨u, .field path i (.array t) sc :: hs⟩ =
      .running (State.modifyField path i (·.appendValue (r t.zero))
        ⟨u, .field path i (.array t) sc :: hs⟩) := by
  simp only [step, Handler.handle, FieldReader.handle, hr]
  rfl

theorem step_startObject_subunit {gs : List Field} :
    step .startObject ⟨u, .field path i (.subunit gs) sc :: hs⟩ =
      .running ⟨modifyAt path (fun x => x.modify i (·.mutableValue (construct gs))) u,
        .unit (path ++ [.subunit i]) gs sc 1 (by decide) :: hs⟩ := rfl

theorem step_startObject_units {gs : List Field} :
    step .startObject ⟨u, .field path i (.units gs) sc :: hs⟩ =
      .running ⟨modifyAt path (fun x => x.modify i (·.mutableLast))
          (modifyAt path (fun x => x.modify i (·.createAndAppendValue (construct gs))) u),
        .unit (path ++ [.element i]) gs sc 1 (by decide) ::
          .field path i (.units gs) sc :: hs⟩ := rfl

theorem step_startArray {kind : FieldKind} (hk : kind.isRepeated = true) :
    step .startArray ⟨u, .field path i kind sc :: hs⟩ =
      .running ⟨u, .field path i kind sc :: hs⟩ := by
  cases kind <;> first | rfl | exact absurd hk Bool.false_ne_true

theorem step_key_field {k : Name} {f : Field} {s o : Int} {h : o ≤ 1}
    (hf : fieldByName fs k = some (i, f)) (hkind : f.kind ≠ .map) :
    step (.key k) ⟨u, .unit path fs s o h :: hs⟩ =
      .running ⟨u, .field path i f.kind 0 :: .unit path fs (s + o) 0 (by decide) :: hs⟩ := by
  rw [step_key_of_some hf, FieldKind.pushHandler_of_ne_map hkind]
  rfl

theorem FieldKind.exact_ne_map {kind : FieldKind} (h : kind ≠ .map) : kind.exact ≠ .map := by
  cases kind with
  | map => exact absurd rfl h
  | _ => exact nofun

theorem FieldKind.exact_isRepeated (kind : FieldKind) :
    kind.exact.isRepeated = kind.isRepeated := by
  cases kind <;> rfl

theorem together_plain {t : PlainType} {d : Option PlainValue} {a : Scalar}
    {r : PlainValue → PlainValue} (hr : t.read a = some r) (hpath : Leads path fs u)
    (hf : fs[i]? = some (.mk name required (.plain t d))) :
    Together [.scalar a] ⟨u, .field path i (.plain t d) sc :: hs⟩
      ⟨u, .field path i (.plain t.exact d) sc :: hs'⟩ ↔ t.Holds a := by
  obtain ⟨r', hr', heq⟩ := PlainType.exact_read hr
  refine together_scalar hpath hf (congrArg Outcome.unit (step_plain hr))
    (congrArg Outcome.unit (step_plain hr')) ?_ ?_
  · intro y hy hsame
    cases y with
    | plain b x => exact (heq x).mp (FieldObject.plain.inj hsame).2
    | _ => exact hy.elim
  · intro h
    obtain rfl : r = r' := funext fun x => (heq x).mpr h
    rfl

theorem together_appended {t : PlainType} {a : Scalar} {r : PlainValue → PlainValue}
    (hr : t.read a = some r) (hpath : Leads path fs u)
    (hf : fs[i]? = some (.mk name required (.array t))) :
    Together [.scalar a] ⟨u, .field path i (.array t) sc :: hs⟩
      ⟨u, .field path i (.array t.exact) sc :: hs'⟩ ↔ t.Holds a := by
  obtain ⟨r', hr', heq⟩ := PlainType.exact_read hr
  refine together_scalar hpath hf (congrArg Outcome.unit (step_array hr))
    (congrArg Outcome.unit (step_array hr')) ?_ ?_
  · intro y hy hsame
    cases y with
    | array b l =>
      have hlast := List.append_cancel_left (FieldObject.array.inj hsame).2
      rw [t.exact_zero] at hlast
      exact (heq t.zero).mp (List.cons.inj hlast).1
    | _ => exact hy.elim
  · intro h
    rw [t.exact_zero, (heq t.zero).mpr h]

end

mutual

/-- **The value of a field** is read as it is if its numbers are in range, and only then. -/
theorem together_value : ∀ (v : Value) {kind : FieldKind} {g : FieldObject → FieldObject},
    kind.readValue v = some g → ∀ {path : List Place} {fs : List Field} {i : Nat} {name : Name}
      {required : Bool} {u : UnitObject} {hs hs' : List Handler} {sc : Int}, Leads path fs u →
      fs[i]? = some (.mk name required kind) →
      (Together v.events ⟨u, .field path i kind sc :: hs⟩
        ⟨u, .field path i kind.exact sc :: hs'⟩ ↔ kind.Holds v)
  | .scalar a, kind, g, hg, path, fs, i, name, required, u, hs, hs', sc, hpath, hf => by
    cases kind with
    | plain t d =>
      obtain ⟨r, hr, -⟩ := Option.map_eq_some_iff.mp hg
      exact together_plain hr hpath hf
    | subunit gs =>
      cases a with
      | null => exact iff_of_true (together_singleton.mpr rfl) trivial
      | _ => simp [FieldKind.readValue] at hg
    | _ => simp [FieldKind.readValue] at hg
  | .object ms, kind, g, hg, path, fs, i, name, required, u, hs, hs', sc, hpath, hf => by
    cases kind with
    | subunit gs =>
      rw [FieldKind.readValue, Option.map_eq_some_iff] at hg
      obtain ⟨r, hr, -⟩ := hg
      rw [FieldKind.Holds, Value.events, FieldKind.exact,
        together_cons step_startObject_subunit step_startObject_subunit, construct_exactFields]
      exact together_members ms hr (hpath.subunit hf)
    | _ => simp [FieldKind.readValue] at hg
  | .array l, kind, g, hg, path, fs, i, name, required, u, hs, hs', sc, hpath, hf => by
    cases kind with
    | array t =>
      rw [FieldKind.readValue] at hg
      rw [FieldKind.Holds, Value.events, together_cons (step_startArray rfl) (step_startArray rfl)]
      exact together_elements l rfl hg hpath hf
    | units gs =>
      rw [FieldKind.readValue] at hg
      rw [FieldKind.Holds, Value.events, together_cons (step_startArray rfl) (step_startArray rfl)]
      exact together_elements l rfl hg hpath hf
    | _ => simp [FieldKind.readValue] at hg

theorem together_element : ∀ (v : Value) {kind : FieldKind} {g : FieldObject → FieldObject},
    kind.readElement v = some g → ∀ {path : List Place} {fs : List Field} {i : Nat} {name : Name}
      {required : Bool} {u : UnitObject} {hs hs' : List Handler} {sc : Int}, Leads path fs u →
      fs[i]? = some (.mk name required kind) →
      (Together v.events ⟨u, .field path i kind sc :: hs⟩
        ⟨u, .field path i kind.exact sc :: hs'⟩ ↔ kind.ElementHolds v)
  | .scalar a, kind, g, hg, path, fs, i, name, required, u, hs, hs', sc, hpath, hf => by
    cases kind with
    | array t =>
      obtain ⟨r, hr, -⟩ := Option.map_eq_some_iff.mp hg
      exact together_appended hr hpath hf
    | units gs =>
      cases a with
      | null =>
        refine iff_of_true (together_singleton.mpr ?_) trivial
        rw [FieldKind.exact]
        simp only [step, Handler.handle, FieldReader.handle, construct_exactFields]
        rfl
      | _ => simp [FieldKind.readElement] at hg
    | _ => simp [FieldKind.readElement] at hg
  | .object ms, kind, g, hg, path, fs, i, name, required, u, hs, hs', sc, hpath, hf => by
    cases kind with
    | units gs =>
      rw [FieldKind.readElement, Option.map_eq_some_iff] at hg
      obtain ⟨r, hr, -⟩ := hg
      rw [FieldKind.ElementHolds, Value.events, FieldKind.exact,
        together_cons step_startObject_units step_startObject_units, construct_exactFields]
      exact together_members ms hr (hpath.element hf)
    | _ => simp [FieldKind.readElement] at hg
  | .array l, kind, g, hg, path, fs, i, name, required, u, hs, hs', sc, hpath, hf => by
    cases kind <;> simp [FieldKind.readElement] at hg

theorem together_elements : ∀ (l : List Value) {kind : FieldKind}
    {g : FieldObject → FieldObject}, kind.isRepeated = true → readElements kind l = some g →
    ∀ {path : List Place} {fs : List Field} {i : Nat} {name : Name} {required : Bool}
      {u : UnitObject} {hs hs' : List Handler} {sc : Int}, Leads path fs u →
      fs[i]? = some (.mk name required kind) →
      (Together (elementEvents l ++ [.endArray]) ⟨u, .field path i kind sc :: hs⟩
        ⟨u, .field path i kind.exact sc :: hs'⟩ ↔ ElementsHold kind l)
  | [], kind, g, hk, hg, path, fs, i, name, required, u, hs, hs', sc, hpath, hf => by
    rw [elementEvents, List.nil_append]
    refine iff_of_true (together_singleton.mpr ?_) trivial
    rw [step_endArray hk, step_endArray (kind.exact_isRepeated.trans hk)]
    rfl
  | v :: l, kind, g, hk, hg, path, fs, i, name, required, u, hs, hs', sc, hpath, hf => by
    rw [readElements] at hg
    split at hg
    next r r' hr hr' =>
      rw [elementEvents, List.append_assoc, ElementsHold]
      refine together_append_iff (together_element v hr hpath hf) fun hholds => ?_
      have hexact := FieldKind.exact_readElement v hr hholds
      exact ⟨_, _, run_element v hr path i sc u hs, run_element v hexact path i sc u hs',
        together_elements l hk hr' (hpath.modify hf (FieldKind.readElement_fits v hr)) hf⟩
    next => cases hg

/-- **The members of an object** are read as they are if their numbers are in range, and only
then. -/
theorem together_members : ∀ (ms : List (Name × Value)) {fs : List Field}
    {g : UnitObject → UnitObject}, readMembers fs ms = some g → ∀ {path : List Place} {s o : Int}
      {h : o ≤ 1} {u : UnitObject} {hs hs' : List Handler}, Leads path fs u →
      (Together (memberEvents ms ++ [.endObject]) ⟨u, .unit path fs s o h :: hs⟩
        ⟨u, .unit path (exactFields fs) s o h :: hs'⟩ ↔ MembersHold fs ms)
  | [], fs, g, hg, path, s, o, h, u, hs, hs', hpath =>
    iff_of_true (together_singleton.mpr rfl) trivial
  | (k, v) :: ms, fs, g, hg, path, s, o, ho, u, hs, hs', hpath => by
    rw [readMembers] at hg
    split at hg
    next i f hf =>
      split at hg
      next r r' hr hr' =>
        have hi : fs[i]? = some (.mk f.name f.required f.kind) :=
          (fieldByName_getElem? hf).1.trans (by cases f; rfl)
        have hne := FieldKind.ne_map_of_readValue hr
        rw [memberEvents, List.cons_append, together_cons (step_key_field hf hne)
          (step_key_field (fieldByName_exactFields hf) (FieldKind.exact_ne_map hne)), MembersHold,
          hf, List.append_assoc]
        refine together_append_iff (together_value v hr hpath hi) fun hholds => ?_
        have hexact := FieldKind.exact_readValue v hr hholds
        exact ⟨_, _, run_value v hr path i 0 u _, run_value v hexact path i 0 u _,
          together_members ms hr' (hpath.modify hi (FieldKind.readValue_fits v hr))⟩
      next => cases hg
    next => cases hg

end

/-! ### Numbers of any size -/

section

variable {toDouble : Int → Nat}

/-- A number that is not reported as an integer is not read by an integer field. -/
theorem PlainType.holds_reported {t : PlainType} {a : Scalar}
    (h : (t.read (reportedScalar toDouble a)).isSome = true) :
    t.Holds (reportedScalar toDouble a) ↔ t.Holds a := by
  cases a with
  | integer n =>
    rw [reportedScalar, reportedNumber] at h ⊢
    split at h
    next hbits => rw [if_pos hbits]
    next hbits =>
      rw [if_neg hbits]
      refine iff_of_true trivial fun signed w htype => ?_
      rw [htype] at h
      cases h
  | _ => exact Iff.rfl

mutual

theorem FieldKind.holds_reported : ∀ (v : Value) {kind : FieldKind},
    (kind.readValue (reported toDouble v)).isSome = true →
    (kind.Holds (reported toDouble v) ↔ kind.Holds v)
  | .scalar a, kind, h => by
    cases kind with
    | plain t d =>
      rw [reported, FieldKind.readValue, Option.isSome_map] at h
      exact PlainType.holds_reported h
    | _ => exact Iff.rfl
  | .object ms, kind, h => by
    cases kind with
    | subunit fs =>
      rw [reported, FieldKind.readValue, Option.isSome_map] at h
      rw [reported, FieldKind.Holds, FieldKind.Holds, membersHold_reported ms h]
    | _ => exact Iff.rfl
  | .array l, kind, h => by
    cases kind with
    | array t =>
      rw [reported, FieldKind.readValue] at h
      rw [reported, FieldKind.Holds, FieldKind.Holds, elementsHold_reported l h]
    | units fs =>
      rw [reported, FieldKind.readValue] at h
      rw [reported, FieldKind.Holds, FieldKind.Holds, elementsHold_reported l h]
    | _ => exact Iff.rfl

theorem FieldKind.elementHolds_reported : ∀ (v : Value) {kind : FieldKind},
    (kind.readElement (reported toDouble v)).isSome = true →
    (kind.ElementHolds (reported toDouble v) ↔ kind.ElementHolds v)
  | .scalar a, kind, h => by
    cases kind with
    | array t =>
      rw [reported, FieldKind.readElement, Option.isSome_map] at h
      exact PlainType.holds_reported h
    | _ => exact Iff.rfl
  | .object ms, kind, h => by
    cases kind with
    | units fs =>
      rw [reported, FieldKind.readElement, Option.isSome_map] at h
      rw [reported, FieldKind.ElementHolds, FieldKind.ElementHolds, membersHold_reported ms h]
    | _ => exact Iff.rfl
  | .array l, kind, h => by cases kind <;> exact Iff.rfl

theorem elementsHold_reported : ∀ (l : List Value) {kind : FieldKind},
    (readElements kind (reportedElements toDouble l)).isSome = true →
    (ElementsHold kind (reportedElements toDouble l) ↔ ElementsHold kind l)
  | [], _, _ => Iff.rfl
  | v :: l, kind, h => by
    rw [reportedElements, readElements_cons_isSome] at h
    rw [reportedElements, ElementsHold, ElementsHold, FieldKind.elementHolds_reported v h.1,
      elementsHold_reported l h.2]

theorem membersHold_reported : ∀ (ms : List (Name × Value)) {fs : List Field},
    (readMembers fs (reportedMembers toDouble ms)).isSome = true →
    (MembersHold fs (reportedMembers toDouble ms) ↔ MembersHold fs ms)
  | [], _, _ => Iff.rfl
  | (k, v) :: ms, fs, h => by
    rw [reportedMembers] at h ⊢
    rw [MembersHold, MembersHold]
    cases hf : fieldByName fs k with
    | none =>
      rw [readMembers, hf] at h
      cases h
    | some p =>
      rw [readMembers_cons_isSome hf] at h
      simp only
      rw [FieldKind.holds_reported v h.1, membersHold_reported ms h.2]

end

end

/-- **Numbers are stored as they are written** into integer fields if and only if they are in the
range of the types of their fields. -/
theorem stores_exactly_iff {fs : List Field} {u w : UnitObject} (hu : Fits fs u) {v : Value}
    {toDouble : Int → Nat} (h : loadFromJSON fs (.whole (reported toDouble v)) u = .ok w) :
    StoresExactly fs (reported toDouble v) u ↔ RootHolds fs v := by
  obtain ⟨g, hg, -⟩ := load_whole_eq_ok.mp h
  cases v with
  | scalar a => cases hg
  | array l => cases hg
  | object ms =>
    have hms : readMembers fs (reportedMembers toDouble ms) = some g := hg
    have hstart : ∀ gs : List Field,
        step .startObject ⟨clear fs u, [.unit [] gs 0 0 (by decide)]⟩ =
          .running ⟨clear fs u, [.unit [] gs (0 + 0) 0 (by decide)]⟩ := fun gs => rfl
    rw [StoresExactly, reported, Value.events, together_cons (hstart _) (hstart _), RootHolds,
      ← membersHold_reported ms (Option.isSome_of_eq_some hms)]
    exact together_members _ hms ⟨clear fs u, rfl, clear_fits hu⟩

/-- A unit with an integer of 8 bits. -/
def byteField : List Field := [.mk [97] false (.plain (intType true .w8) none)]

theorem stores_exactly_sample : Fits byteField (construct byteField) ∧
    (StoresExactly byteField (reported (fun _ => 0) (.object [([97], .scalar (.integer 5))]))
        (construct byteField) ↔
      RootHolds byteField (.object [([97], .scalar (.integer 5))])) :=
  ⟨construct_fits byteField, stores_exactly_iff (construct_fits byteField) rfl⟩

/-- The number 300 is stored as 44. -/
theorem number_altered :
    loadFromJSON byteField (.whole (reported (fun _ => 0)
        (.object [([97], .scalar (.integer 300))]))) (construct byteField) =
      .ok [.plain true (.num 44)] ∧
    ¬StoresExactly byteField (reported (fun _ => 0) (.object [([97], .scalar (.integer 300))]))
      (construct byteField) := by
  refine ⟨rfl, fun h => ?_⟩
  have hexact : (intType true .w8).exact = exactType := if_pos ⟨_, _, rfl⟩
  have hthird := h 3
  rw [byteField, exactFields, exactFields, FieldKind.exact, hexact] at hthird
  cases hthird

end Hatn.Dataunit.Json
