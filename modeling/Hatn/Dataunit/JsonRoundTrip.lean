import Hatn.Dataunit.JsonWriting
import Mathlib.Data.List.Forall2

/-!
# Units that are written as JSON and read again

`Restored` says that a unit read holds what the other one, which was written, holds.  It does
so if and only if the unit written is `Lasting`:

* each repeated field that is set has an element: an array without elements is read, but it
  leaves the field unset, and
* each value is one that its type reads again.

`rewrite_iff` is this for the fields that are written and read one by one, and
`readMembers_eq_rewrite` says that `toJSON` and the readers do that.
-/

namespace Hatn.Dataunit.Json

open Hatn.Json

/-! ### Restored units -/

mutual

/-- The value of a field is that of the other one.  Of a subunit without a value no field is
set. -/
def TypeConf.Same : TypeConf → FieldObject → FieldObject → Prop
  | .plain _ _ _, .plain _ v, .plain _ w => w = v
  | .subunit _, .subunit _ none, .subunit _ (some w) => ∀ y ∈ w, y.isSet = false
  | .subunit cs, .subunit _ (some u), .subunit _ (some w) => Restored cs u w
  | .array _, .array _ l, .array _ l' => l' = l
  | .units cs, .units _ l, .units _ l' => List.Forall₂ (fun e e' => Restored cs e.2 e'.2) l l'
  | _, _, _ => False

/-- A field that is set or has a default value is set and has the same value, and all other
fields are unset. -/
def Restored : List FieldConf → UnitObject → UnitObject → Prop
  | .mk _ _ type :: cs, x :: xs, y :: ys =>
    (if type.written x then y.isSet = true ∧ type.Same x y else y.isSet = false) ∧ Restored cs xs ys
  | [], [], [] => True
  | _, _, _ => False

end

mutual

/-- The field has a value of its type. -/
def TypeConf.Holds : TypeConf → FieldObject → Prop
  | .plain t _ _, .plain _ v => t.Holds v
  | .subunit _, .subunit _ none => True
  | .subunit cs, .subunit _ (some u) => UnitHolds cs u
  | .array t, .array _ l => ∀ v ∈ l, t.Holds v
  | .units cs, .units _ l => ∀ e ∈ l, UnitHolds cs e.2
  | _, _ => False

/-- What is written of the unit has the types of the schema. -/
def UnitHolds : List FieldConf → UnitObject → Prop
  | .mk _ _ type :: cs, x :: xs => (type.written x = true → type.Holds x) ∧ UnitHolds cs xs
  | [], [] => True
  | _, _ => False

end

mutual

/-- The value of the field is read again. -/
def TypeConf.Lasting (defaultTz : Int) : TypeConf → FieldObject → Prop
  | .plain t _ _, .plain _ v => t.Lasting defaultTz v
  | .subunit cs, .subunit _ (some u) => UnitLasting defaultTz cs u
  | .array t, .array _ l => l ≠ [] ∧ ∀ v ∈ l, t.Lasting defaultTz v
  | .units cs, .units _ l => l ≠ [] ∧ ∀ e ∈ l, UnitLasting defaultTz cs e.2
  | _, _ => True

/-- What is written of the unit is read again. -/
def UnitLasting (defaultTz : Int) : List FieldConf → UnitObject → Prop
  | .mk _ _ type :: cs, x :: xs =>
    (type.written x = true → type.Lasting defaultTz x) ∧ UnitLasting defaultTz cs xs
  | _, _ => True

end

/-- A field before it is read: it is not set and holds nothing, or a default value. -/
def TypeConf.Blank : TypeConf → FieldObject → Prop
  | .plain t _ _, .plain isSet w => isSet = false ∧ (t = .bytes → w = .bytes [])
  | .subunit _, .subunit isSet u => isSet = false ∧ u = none
  | .array _, .array isSet l => isSet = false ∧ l = []
  | .units _, .units isSet l => isSet = false ∧ l = []
  | _, _ => False

def Blank : List FieldConf → UnitObject → Prop
  | .mk _ _ type :: cs, y :: ys => type.Blank y ∧ Blank cs ys
  | [], [] => True
  | _, _ => False

theorem TypeConf.Blank.isSet {type : TypeConf} {y : FieldObject} (h : type.Blank y) :
    y.isSet = false := by
  cases type <;> cases y <;> first | exact h.1 | exact h.elim

/-- Fields of a new unit. -/
theorem TypeConf.blank_construct (defaultTz : Int) (type : TypeConf) :
    type.Blank (type.kind defaultTz).construct := by
  cases type with
  | plain t default? h =>
    refine ⟨rfl, ?_⟩
    rintro rfl
    rw [h rfl]
    rfl
  | subunit cs => exact ⟨rfl, rfl⟩
  | array t => exact ⟨rfl, rfl⟩
  | units cs => exact ⟨rfl, rfl⟩

theorem blank_construct (defaultTz : Int) : ∀ cs : List FieldConf,
    Blank cs (construct (fields defaultTz cs)) := by
  intro cs
  induction cs with
  | nil => trivial
  | cons c cs ih =>
    obtain ⟨name, required, type⟩ := c
    exact ⟨type.blank_construct defaultTz, ih⟩

theorem TypeConf.Blank.clear (defaultTz : Int) {type : TypeConf} {y : FieldObject}
    (h : type.Blank y) : type.Blank ((type.kind defaultTz).clear y) := by
  cases type with
  | plain t default? hb =>
    cases y with
    | plain isSet w => exact ⟨h.1, fun e => by subst e; rfl⟩
    | _ => exact h.elim
  | subunit cs =>
    cases y with
    | subunit isSet u =>
      obtain ⟨rfl, rfl⟩ := h
      exact ⟨rfl, rfl⟩
    | _ => exact h.elim
  | array t =>
    cases y with
    | array isSet l => exact ⟨h.1, rfl⟩
    | _ => exact h.elim
  | units cs =>
    cases y with
    | units isSet l => exact ⟨h.1, rfl⟩
    | _ => exact h.elim

/-- A new unit is blank when it is cleared, too. -/
theorem Blank.clear (defaultTz : Int) : ∀ {cs : List FieldConf} {ys : UnitObject}, Blank cs ys →
    Blank cs (Json.clear (fields defaultTz cs) ys)
  | [], [], _ => trivial
  | .mk _ _ _ :: _, _ :: _, h => ⟨h.1.clear defaultTz, Blank.clear defaultTz h.2⟩

theorem Blank.length_eq : ∀ {cs : List FieldConf} {ys : UnitObject}, Blank cs ys →
    ys.length = cs.length
  | [], [], _ => rfl
  | .mk _ _ _ :: _, _ :: _, h => congrArg (· + 1) (Blank.length_eq h.2)

theorem Blank.unset : ∀ {cs : List FieldConf} {ys : UnitObject}, Blank cs ys →
    ∀ y ∈ ys, y.isSet = false
  | [], [], _, _, hy => nomatch hy
  | .mk _ _ _ :: _, y :: ys, h, z, hz => by
    rcases List.mem_cons.mp hz with rfl | hz
    · exact h.1.isSet
    · exact Blank.unset h.2 z hz

/-! ### Fields one by one -/

/-- Each field that is written is read into the field in its place. -/
def rewrite (defaultTz : Int) : List FieldConf → UnitObject → UnitObject → Option UnitObject
  | .mk _ _ type :: cs, x :: xs, y :: ys =>
    if type.written x then
      match (type.toJSON x).bind (type.kind defaultTz).readValue, rewrite defaultTz cs xs ys with
      | some g, some zs => some (g y :: zs)
      | _, _ => none
    else (rewrite defaultTz cs xs ys).map (y :: ·)
  | _, _, ys => some ys

theorem modify_append_cons {α : Type} (l : List α) (y : α) (l' : List α) (g : α → α) :
    (l ++ y :: l').modify l.length g = l ++ g y :: l' := by
  induction l with
  | nil => rfl
  | cons x l ih => simpa using ih

/-- **The members that are written are read one by one.** -/
theorem readMembers_eq_rewrite {defaultTz : Int} : ∀ (cs pre : List FieldConf)
    {xs ys us : UnitObject} {ms : List (Name × Value)}, Distinct (fields defaultTz (pre ++ cs)) →
    membersToJSON cs xs = some ms → ys.length = cs.length → us.length = pre.length →
    (readMembers (fields defaultTz (pre ++ cs)) ms).map (fun g => g (us ++ ys)) =
      (rewrite defaultTz cs xs ys).map (us ++ ·) := by
  intro cs
  induction cs with
  | nil =>
    intro pre xs ys us ms _ hms _ _
    obtain ⟨rfl, rfl⟩ := membersToJSON_nil_eq_some hms
    rfl
  | cons c cs ih =>
    obtain ⟨name, required, type⟩ := c
    intro pre xs ys us ms hd hms hy hu
    obtain ⟨x, xs, ms', rfl, hms', h⟩ := membersToJSON_cons_eq_some hms
    cases ys with
    | nil => cases hy
    | cons y ys =>
      have hy : ys.length = cs.length := Nat.succ.inj hy
      have e : pre ++ .mk name required type :: cs = (pre ++ [.mk name required type]) ++ cs := by
        simp
      have hd' := hd
      rw [e] at hd'
      have ih' : ∀ z, (readMembers (fields defaultTz (pre ++ .mk name required type :: cs)) ms').map
          (fun g => g (us ++ z :: ys)) = (rewrite defaultTz cs xs ys).map (us ++ z :: ·) := by
        intro z
        have hz : (us ++ [z]).length = (pre ++ [FieldConf.mk name required type]).length := by
          simp [hu]
        have hi := ih (pre ++ [.mk name required type]) hd' hms' hy hz
        simpa using hi
      rcases h with ⟨hw, rfl⟩ | ⟨hw, v, hv, rfl⟩
      · rw [rewrite, hw]
        simp only [Bool.false_eq_true, if_false, Option.map_map]
        exact ih' y
      · have hf : fieldByName (fields defaultTz (pre ++ .mk name required type :: cs)) name =
            some (us.length, .mk name required (type.kind defaultTz)) := by
          refine hd.fieldByName (f := .mk name required (type.kind defaultTz)) ?_
          rw [fields_append, List.getElem?_append_right (by simp [hu]), fields_length, hu,
            Nat.sub_self]
          rfl
        rw [rewrite, hw, readMembers, hf, hv]
        simp only [if_true, Option.bind_some, Field.kind]
        cases hr : (type.kind defaultTz).readValue v with
        | none => rfl
        | some g =>
          have hz := ih' (g y)
          cases hm : readMembers (fields defaultTz (pre ++ .mk name required type :: cs)) ms' with
          | none =>
            rw [hm] at hz
            have hn := Option.map_eq_none_iff.mp hz.symm
            rw [hn]
            rfl
          | some g' =>
            rw [hm] at hz
            obtain ⟨zs, hzs, hz⟩ := Option.map_eq_some_iff.mp hz.symm
            rw [hzs]
            simp only [Option.map_some, modify_append_cons]
            rw [hz]

/-! ### Repeated fields -/

/-- What the element of repeated subunits adds. -/
def FieldObject.appendUnit (u : UnitObject) : FieldObject → FieldObject
  | units _ l => units true (l ++ [(true, u)])
  | x => x

theorem FieldObject.modifyLast_mutableLast (x : FieldObject) (fresh : UnitObject)
    (g : UnitObject → UnitObject) :
    ((x.createAndAppendValue fresh).mutableLast).modifyLast g = x.appendUnit (g fresh) := by
  cases x with
  | units isSet l =>
    simp [createAndAppendValue, mutableLast, modifyLast, appendUnit, List.modifyLast_concat]
  | _ => rfl

theorem foldl_appendValue (vs : List PlainValue) : ∀ (isSet : Bool) (l : List PlainValue),
    vs.foldl (fun x v => FieldObject.appendValue v x) (.array isSet l) =
      .array (isSet || !vs.isEmpty) (l ++ vs) := by
  induction vs with
  | nil => intro isSet l; simp
  | cons v vs ih =>
    intro isSet l
    rw [List.foldl_cons, FieldObject.appendValue, ih]
    simp

theorem foldl_appendUnit (us : List UnitObject) : ∀ (isSet : Bool) (l : List (Bool × UnitObject)),
    us.foldl (fun x u => FieldObject.appendUnit u x) (.units isSet l) =
      .units (isSet || !us.isEmpty) (l ++ us.map (true, ·)) := by
  induction us with
  | nil => intro isSet l; simp
  | cons u us ih =>
    intro isSet l
    rw [List.foldl_cons, FieldObject.appendUnit, ih]
    simp

theorem readElements_array (t : PlainType) : ∀ as : List Scalar,
    readElements (.array t) (as.map .scalar) =
      (as.mapM fun a => (t.read a).map fun g => g t.zero).map fun vs x =>
        vs.foldl (fun x v => x.appendValue v) x := by
  intro as
  induction as with
  | nil => rfl
  | cons a as ih =>
    rw [List.map_cons, readElements, ih, FieldKind.readElement, List.mapM_cons]
    cases t.read a with
    | none => rfl
    | some g => cases as.mapM fun a => (t.read a).map fun g => g t.zero <;> rfl

theorem readElements_units (fs : List Field) : ∀ mss : List (List (Name × Value)),
    readElements (.units fs) (mss.map .object) =
      (mss.mapM fun ms => (readMembers fs ms).map fun g => g (construct fs)).map fun us x =>
        us.foldl (fun x u => x.appendUnit u) x := by
  intro mss
  induction mss with
  | nil => rfl
  | cons ms mss ih =>
    rw [List.map_cons, readElements, ih, FieldKind.readElement, List.mapM_cons]
    cases readMembers fs ms with
    | none => rfl
    | some g =>
      simp only [Option.map_some, FieldObject.modifyLast_mutableLast]
      cases mss.mapM fun ms => (readMembers fs ms).map fun g => g (construct fs) <;> rfl

/-- The elements of repeated values are read again if and only if each one is. -/
theorem mapM_read_iff {defaultTz : Int} {t : ValueType} : ∀ {l : List PlainValue} {as : List Scalar},
    (∀ v ∈ l, t.Holds v) → l.mapM t.write = some as →
    ((as.mapM fun a => ((t.plain defaultTz).read a).map fun g => g (t.plain defaultTz).zero) =
      some l ↔ ∀ v ∈ l, t.Lasting defaultTz v) := by
  intro l
  induction l with
  | nil =>
    intro as _ has
    injection has with has
    subst has
    exact iff_of_true rfl fun _ h => nomatch h
  | cons v l ih =>
    intro as hl has
    rw [List.mapM_cons] at has
    obtain ⟨a, ha, has⟩ := Option.bind_eq_some_iff.mp has
    obtain ⟨as', has', has⟩ := Option.bind_eq_some_iff.mp has
    injection has with has
    subst has
    have hv : (∃ g, (t.plain defaultTz).read a = some g ∧ g (t.plain defaultTz).zero = v) ↔
        t.Lasting defaultTz v :=
      ValueType.read_write_iff (hl v (List.mem_cons_self ..)) ha (by rintro rfl; rfl)
    have ih' := ih (fun w hw => hl w (List.mem_cons_of_mem _ hw)) has'
    rw [List.mapM_cons, List.forall_mem_cons, ← hv, ← ih']
    constructor
    · intro h
      obtain ⟨w, hw, h⟩ := Option.bind_eq_some_iff.mp h
      obtain ⟨l', hl', h⟩ := Option.bind_eq_some_iff.mp h
      injection h with h
      injection h with h1 h2
      exact ⟨Option.map_eq_some_iff.mp (h1 ▸ hw), h2 ▸ hl'⟩
    · rintro ⟨⟨g, hg, e⟩, hl'⟩
      rw [hg, Option.map_some, e, hl']
      rfl

/-- The elements of repeated subunits are restored if and only if each one is. -/
theorem mapM_restored_iff {α β γ : Type} {f : α → Option β} {g : β → Option γ} {R : α → γ → Prop}
    {P : α → Prop} : ∀ {l : List α} {l' : List β}, l.mapM f = some l' →
    (∀ a ∈ l, ∀ b, f a = some b → ((∃ c, g b = some c ∧ R a c) ↔ P a)) →
    ((∃ l'', l'.mapM g = some l'' ∧ List.Forall₂ R l l'') ↔ ∀ a ∈ l, P a) := by
  intro l
  induction l with
  | nil =>
    intro l' hl' _
    injection hl' with hl'
    subst hl'
    exact iff_of_true ⟨[], rfl, .nil⟩ fun _ h => nomatch h
  | cons a l ih =>
    intro l' hl' h
    rw [List.mapM_cons] at hl'
    obtain ⟨b, hb, hl'⟩ := Option.bind_eq_some_iff.mp hl'
    obtain ⟨bs, hbs, hl'⟩ := Option.bind_eq_some_iff.mp hl'
    injection hl' with hl'
    subst hl'
    rw [List.mapM_cons, List.forall_mem_cons, ← h a (List.mem_cons_self ..) b hb,
      ← ih hbs fun a ha => h a (List.mem_cons_of_mem _ ha)]
    constructor
    · rintro ⟨l'', hl'', hR⟩
      obtain ⟨c, hc, hl''⟩ := Option.bind_eq_some_iff.mp hl''
      obtain ⟨cs, hcs, hl''⟩ := Option.bind_eq_some_iff.mp hl''
      injection hl'' with hl''
      subst hl''
      cases hR with
      | cons h1 h2 => exact ⟨⟨c, hc, h1⟩, cs, hcs, h2⟩
    · rintro ⟨⟨c, hc, h1⟩, cs, hcs, h2⟩
      refine ⟨c :: cs, ?_, .cons h1 h2⟩
      rw [hc, hcs]
      rfl

/-! ### Units -/

theorem readMembers_blank {defaultTz : Int} {cs : List FieldConf} {xs ys : UnitObject}
    {ms : List (Name × Value)} (hd : Distinct (fields defaultTz cs))
    (hms : membersToJSON cs xs = some ms) (hy : Blank cs ys) :
    (readMembers (fields defaultTz cs) ms).map (fun g => g ys) = rewrite defaultTz cs xs ys := by
  have e : (readMembers (fields defaultTz ([] ++ cs)) ms).map (fun g => g ([] ++ ys)) =
      (rewrite defaultTz cs xs ys).map ([] ++ ·) :=
    readMembers_eq_rewrite cs [] hd hms hy.length_eq rfl
  simpa using e

mutual

/-- A field is restored if and only if its value is lasting. -/
theorem TypeConf.read_iff {defaultTz : Int} : ∀ (type : TypeConf) {x y : FieldObject} {v : Value},
    (type.kind defaultTz).Distinct → type.Holds x → type.toJSON x = some v → type.Blank y →
    ((∃ g, (type.kind defaultTz).readValue v = some g ∧ (g y).isSet = true ∧ type.Same x (g y)) ↔
      type.Lasting defaultTz x)
  | .plain t default? hb, x, y, v, _, hx, hv, hy => by
    cases x with
    | plain isSet w =>
      cases y with
      | plain isSet' w' =>
        obtain ⟨a, ha, rfl⟩ := Option.map_eq_some_iff.mp hv
        refine Iff.trans ?_ (ValueType.read_write_iff hx ha hy.2)
        constructor
        · rintro ⟨g, hg, -, e⟩
          obtain ⟨g', hg', rfl⟩ := Option.map_eq_some_iff.mp hg
          exact ⟨g', hg', e⟩
        · rintro ⟨g, hg, e⟩
          exact ⟨FieldObject.setValue g, by rw [TypeConf.kind, FieldKind.readValue, hg]; rfl, rfl, e⟩
      | _ => exact hy.elim
    | _ => exact hx.elim
  | .subunit cs, x, y, v, hd, hx, hv, hy => by
    cases y with
    | subunit isSet' u' =>
      obtain ⟨rfl, rfl⟩ := hy
      cases x with
      | subunit isSet u =>
        cases u with
        | none =>
          injection hv with hv
          subst hv
          refine iff_of_true ⟨_, rfl, rfl, ?_⟩ trivial
          exact (blank_construct defaultTz cs).unset
        | some u =>
          obtain ⟨ms, hms, rfl⟩ := Option.map_eq_some_iff.mp hv
          have hb := blank_construct defaultTz cs
          have key := rewrite_iff cs hd hx hms hb
          rw [← readMembers_blank hd hms hb] at key
          refine Iff.trans ?_ key
          rw [TypeConf.kind, FieldKind.readValue]
          constructor
          · rintro ⟨g, hg, -, e⟩
            obtain ⟨g', hg', rfl⟩ := Option.map_eq_some_iff.mp hg
            exact ⟨_, by rw [hg']; rfl, e⟩
          · rintro ⟨zs, hzs, e⟩
            obtain ⟨g, hg, rfl⟩ := Option.map_eq_some_iff.mp hzs
            rw [hg]
            exact ⟨_, rfl, rfl, e⟩
      | _ => exact hx.elim
    | _ => exact hy.elim
  | .array t, x, y, v, _, hx, hv, hy => by
    cases y with
    | array isSet' l' =>
      obtain ⟨rfl, rfl⟩ := hy
      cases x with
      | array isSet l =>
        obtain ⟨as, has, rfl⟩ := Option.map_eq_some_iff.mp hv
        rw [TypeConf.kind, FieldKind.readValue, readElements_array, TypeConf.Lasting, ← mapM_read_iff hx has]
        constructor
        · rintro ⟨g, hg, hset, e⟩
          obtain ⟨vs, hvs, rfl⟩ := Option.map_eq_some_iff.mp hg
          simp only [foldl_appendValue] at hset e
          have e : vs = l := e
          subst e
          refine ⟨?_, hvs⟩
          rintro rfl
          cases hset
        · rintro ⟨hne, hl⟩
          refine ⟨_, by rw [hl]; rfl, ?_⟩
          simp only [foldl_appendValue]
          refine ⟨?_, rfl⟩
          rw [FieldObject.isSet, List.isEmpty_eq_false_iff.mpr hne]
          rfl
      | _ => exact hx.elim
    | _ => exact hy.elim
  | .units cs, x, y, v, hd, hx, hv, hy => by
    cases y with
    | units isSet' l' =>
      obtain ⟨rfl, rfl⟩ := hy
      cases x with
      | units isSet l =>
        obtain ⟨mss, hmss, rfl⟩ := Option.map_eq_some_iff.mp hv
        have key := mapM_restored_iff (R := fun e u => Restored cs e.2 u)
          (P := fun e => UnitLasting defaultTz cs e.2) hmss (fun e he ms hms => by
            have hb := blank_construct defaultTz cs
            have ih : (∃ zs, rewrite defaultTz cs e.2 (construct (fields defaultTz cs)) = some zs ∧
              Restored cs e.2 zs) ↔ _ := rewrite_iff cs hd (hx e he) hms hb
            rw [← readMembers_blank hd hms hb] at ih
            exact ih)
        rw [TypeConf.kind, FieldKind.readValue, readElements_units, TypeConf.Lasting, ← key]
        constructor
        · rintro ⟨g, hg, hset, e⟩
          obtain ⟨us, hus, rfl⟩ := Option.map_eq_some_iff.mp hg
          simp only [foldl_appendUnit] at hset e
          have e : List.Forall₂ (fun e u => Restored cs e.2 u) l us := by
            simpa [TypeConf.Same] using e
          refine ⟨?_, us, hus, e⟩
          rintro rfl
          cases e
          cases hset
        · rintro ⟨hne, us, hus, e⟩
          refine ⟨_, by rw [hus]; rfl, ?_⟩
          simp only [foldl_appendUnit]
          refine ⟨?_, by simpa [TypeConf.Same] using e⟩
          cases e with
          | nil => exact absurd rfl hne
          | cons _ _ => rfl
      | _ => exact hx.elim
    | _ => exact hy.elim

/-- **A unit is restored if and only if what is written of it is lasting.** -/
theorem rewrite_iff {defaultTz : Int} : ∀ (cs : List FieldConf) {xs ys : UnitObject}
    {ms : List (Name × Value)}, Distinct (fields defaultTz cs) → UnitHolds cs xs →
    membersToJSON cs xs = some ms → Blank cs ys →
    ((∃ zs, rewrite defaultTz cs xs ys = some zs ∧ Restored cs xs zs) ↔ UnitLasting defaultTz cs xs)
  | [], xs, ys, ms, _, _, hms, hy => by
    obtain ⟨rfl, rfl⟩ := membersToJSON_nil_eq_some hms
    cases ys with
    | nil => exact iff_of_true ⟨[], rfl, trivial⟩ trivial
    | cons y ys => exact hy.elim
  | .mk name required type :: cs, xs, ys, ms, hd, hx, hms, hy => by
    obtain ⟨x, xs, ms', rfl, hms', h⟩ := membersToJSON_cons_eq_some hms
    cases ys with
    | nil => exact hy.elim
    | cons y ys =>
      have ih : (∃ zs, rewrite defaultTz cs xs ys = some zs ∧ Restored cs xs zs) ↔
          UnitLasting defaultTz cs xs := rewrite_iff cs hd.2.2 hx.2 hms' hy.2
      rw [UnitLasting, ← ih, rewrite]
      rcases h with ⟨hw, -⟩ | ⟨hw, v, hv, -⟩
      · simp only [hw, Bool.false_eq_true, if_false, false_implies, true_and]
        constructor
        · rintro ⟨zs, hzs, e⟩
          obtain ⟨zs', hzs', rfl⟩ := Option.map_eq_some_iff.mp hzs
          exact ⟨zs', hzs', e.2⟩
        · rintro ⟨zs, hzs, e⟩
          refine ⟨y :: zs, by rw [hzs]; rfl, ?_, e⟩
          rw [if_neg (by simp [hw])]
          exact hy.1.isSet
      · have key := type.read_iff hd.2.1 (hx.1 hw) hv hy.1
        simp only [hw, if_true, true_implies, ← key, hv, Option.bind_some]
        constructor
        · rintro ⟨zs, hzs, e⟩
          split at hzs
          next g zs' hg hzs' =>
            injection hzs with hzs
            subst hzs
            have h1 := e.1
            rw [if_pos hw] at h1
            exact ⟨⟨g, hg, h1⟩, zs', hzs', e.2⟩
          next => cases hzs
        · rintro ⟨⟨g, hg, h1⟩, zs, hzs, e⟩
          refine ⟨g y :: zs, by rw [hg, hzs], ?_, e⟩
          rw [if_pos hw]
          exact h1

end

/-! ### Texts -/

/-- A new unit is read as the fields one by one. -/
theorem load_whole_construct {defaultTz : Int} {cs : List FieldConf} {xs w : UnitObject}
    {ms : List (Name × Value)} (hd : Distinct (fields defaultTz cs))
    (hms : membersToJSON cs xs = some ms) :
    loadFromJSON (fields defaultTz cs) (.whole (.object ms)) (construct (fields defaultTz cs)) = .ok w ↔
      rewrite defaultTz cs xs (clear (fields defaultTz cs) (construct (fields defaultTz cs))) =
        some w := by
  have hb := (blank_construct defaultTz cs).clear defaultTz
  rw [load_whole_eq_ok, readRoot, ← readMembers_blank hd hms hb, Option.map_eq_some_iff]
  constructor
  · rintro ⟨g, hg, rfl⟩
    exact ⟨g, hg, rfl⟩
  · rintro ⟨g, hg, rfl⟩
    exact ⟨g, hg, rfl⟩

/-- **A unit that is written as JSON is read again into a new unit** if and only if each of its
repeated fields that is set has an element, here and in the units within, and each of its
values is one that its type reads again. -/
theorem load_toJSON_iff {defaultTz : Int} {r : Rapidjson} {cs : List FieldConf} {u : UnitObject}
    {buf out : List UInt8} {prettyFormat : Bool} (hd : Distinct (fields defaultTz cs))
    (hu : UnitHolds cs u) (hr : ∀ v, toJSON cs u = some v → r.Faithful v)
    (h : toJSONImpl r cs u buf prettyFormat = (true, out)) :
    (buf <+: out ∧ ∃ w, loadFromJSON (fields defaultTz cs) (r.read (out.drop buf.length))
      (construct (fields defaultTz cs)) = .ok w ∧ Restored cs u w) ↔
    UnitLasting defaultTz cs u := by
  rw [toJSONImpl] at h
  split at h
  next v hv =>
    injection h with _ h
    subst h
    obtain ⟨ms, hms, rfl⟩ := Option.map_eq_some_iff.mp hv
    have hb := (blank_construct defaultTz cs).clear defaultTz
    rw [List.drop_left, hr _ hv prettyFormat, ← rewrite_iff cs hd hu hms hb]
    simp only [load_whole_construct hd hms]
    exact ⟨fun h => h.2, fun h => ⟨List.prefix_append _ _, h⟩⟩
  next => cases h

/-- A unit with repeated numbers. -/
def sampleConf : List FieldConf := [.mk [0x61] false (.array (.int true .w32))]

/-- `{"a":[7]}` -/
def sampleFull : List UInt8 := [0x7b, 0x22, 0x61, 0x22, 0x3a, 0x5b, 0x37, 0x5d, 0x7d]

/-- `{"a":[]}` -/
def sampleEmpty : List UInt8 := [0x7b, 0x22, 0x61, 0x22, 0x3a, 0x5b, 0x5d, 0x7d]

/-- The two texts as they are written and read. -/
def sampleRapidjson : Rapidjson where
  write _
    | .object [(_, .array [])] => sampleEmpty
    | _ => sampleFull
  read s :=
    if s = sampleEmpty then .whole (.object [([0x61], .array [])])
    else .whole (.object [([0x61], .array [.scalar (.integer 7)])])

theorem sampleConf_distinct (defaultTz : Int) : Distinct (fields defaultTz sampleConf) :=
  ⟨(fun _ h => nomatch h), trivial, trivial⟩

theorem load_toJSON_sample : ∃ w, loadFromJSON (fields 0 sampleConf)
    (sampleRapidjson.read sampleFull) (construct (fields 0 sampleConf)) = .ok w ∧
      Restored sampleConf [.array true [.num 7]] w := by
  have hu : UnitHolds sampleConf [.array true [.num 7]] := by
    refine ⟨fun _ v hv => ?_, trivial⟩
    rw [List.mem_singleton.mp hv]
    exact ⟨by decide, by decide⟩
  have hr : ∀ v, toJSON sampleConf [.array true [.num 7]] = some v → sampleRapidjson.Faithful v := by
    intro v hv pretty
    injection hv with hv
    rw [← hv]
    rfl
  have h : toJSONImpl sampleRapidjson sampleConf [.array true [.num 7]] [] false =
    (true, sampleFull) := rfl
  exact ((load_toJSON_iff (sampleConf_distinct 0) hu hr h).mpr
    ⟨fun _ => ⟨List.cons_ne_nil _ _, fun _ _ => trivial⟩, trivial⟩).2

/-- An array without elements is written, and read as a field that is not set. -/
theorem empty_array_lost :
    toJSONImpl sampleRapidjson sampleConf [.array true []] [] false = (true, sampleEmpty) ∧
    (∀ v, toJSON sampleConf [.array true []] = some v → sampleRapidjson.Faithful v) ∧
    loadFromJSON (fields 0 sampleConf) (sampleRapidjson.read sampleEmpty)
      (construct (fields 0 sampleConf)) = .ok [.array false []] ∧
    ¬ Restored sampleConf [.array true []] [.array false []] := by
  refine ⟨rfl, ?_, rfl, ?_⟩
  · intro v hv pretty
    injection hv with hv
    rw [← hv]
    rfl
  · intro h
    cases h.1.1

end Hatn.Dataunit.Json
