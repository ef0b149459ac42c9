import Hatn.Common.DateTime
import Hatn.Dataunit.ObjectId
import Hatn.Order.Lex
import Mathlib.Data.Prod.Lex

/-!
# The operators of field values

What `value()` of a field gives, with the `operator <` and `operator ==` of its type.  The
floating point types are their bits.  A value has a `key`, and `<` is the order of the
keys, unless the value is not a number, or a date and a time that the calendar library
does not have, for which `<` throws.
-/

namespace Hatn.Dataunit.Compare

open Hatn.Common Hatn.Order

inductive PlainType
  | num
  | real (wide : Bool)
  | bytes
  | oid
  | date
  | time
  | dateTime
  | dateRange
  deriving DecidableEq

/-- A value that is no unit and no vector.  Integers, booleans and enumerations are
numbers. -/
inductive Plain
  | num (n : Int)
  | real (wide : Bool) (bits : Nat)
  | bytes (l : List UInt8)
  | oid (x : ObjectId)
  | date (d : Date)
  | time (t : Time)
  | dateTime (d : DateTime)
  | dateRange (r : DateRange)

def Plain.type : Plain → PlainType
  | num _ => .num
  | real wide _ => .real wide
  | bytes _ => .bytes
  | oid _ => .oid
  | date _ => .date
  | time _ => .time
  | dateTime _ => .dateTime
  | dateRange _ => .dateRange

/-- The place of a floating point number among the others: bits behind infinity are not a
number, and both zeros have one place. -/
def realKey (wide : Bool) (bits : Nat) : Option Int :=
  let signBit := if wide then 63 else 31
  let infinity := if wide then 0x7FF0000000000000 else 0x7F800000
  let magnitude : Nat := bits % 2 ^ signBit
  if infinity < magnitude then none
  else if bits / 2 ^ signBit % 2 = 1 then some (-magnitude)
  else some magnitude

namespace Plain

/-- `operator <`, unless it throws; `operator >` is the same with its sides changed. -/
def lt : Plain → Plain → Option Bool
  | num a, num b => some (a < b)
  | real wide a, real _ b =>
    match realKey wide a, realKey wide b with
    | some x, some y => some (x < y)
    | _, _ => some false
  | bytes a, bytes b => some (a < b)
  | oid a, oid b => some (a.lt b)
  | date a, date b => some (a.lt b)
  | time a, time b => some (a.lt b)
  | dateTime a, dateTime b => a.lt b
  | dateRange a, dateRange b => some (a.lt b)
  | _, _ => some false

/-- `operator ==` -/
def eq : Plain → Plain → Bool
  | num a, num b => a = b
  | real wide a, real _ b =>
    match realKey wide a, realKey wide b with
    | some x, some y => x = y
    | _, _ => false
  | bytes a, bytes b => a = b
  | oid a, oid b => a = b
  | date a, date b => a = b
  | time a, time b => a = b
  | dateTime a, dateTime b => a.tz = b.tz ∧ a.date = b.date ∧ a.time = b.time
  | dateRange a, dateRange b => a.value = b.value
  | _, _ => false

end Plain

abbrev Key := List UInt8 ×ₗ ℤ ×ₗ ℤ ×ₗ ℤ

def mkKey (l : List UInt8) (a b c : ℤ) : Key := toLex (l, toLex (a, toLex (b, c)))

theorem mkKey_lt (l l' : List UInt8) (a b c a' b' c' : ℤ) : mkKey l a b c < mkKey l' a' b' c' ↔
    l < l' ∨ l = l' ∧ (a < a' ∨ a = a' ∧ (b < b' ∨ b = b' ∧ c < c')) := by
  simp only [mkKey, Prod.Lex.toLex_lt_toLex]

namespace Plain

/-- The place of a value in the order of its type. -/
def key : Plain → Option Key
  | num n => some (mkKey [] n 0 0)
  | real wide bits => (realKey wide bits).map fun x => mkKey [] x 0 0
  | bytes l => some (mkKey l 0 0 0)
  | oid x => some (mkKey [] x.timepoint x.seq x.rand)
  | date d => some (mkKey [] d.toNumber 0 0)
  | time t => some (mkKey [] t.toNumber 0 0)
  | dateTime d => d.toEpochMs.map fun ms => mkKey [] ms d.tz 0
  | dateRange r => some (mkKey [] r.value 0 0)

/-- **`operator <` is the order of the keys.** -/
theorem lt_eq {v w : Plain} {x y : Key} (ht : v.type = w.type) (hv : v.key = some x)
    (hw : w.key = some y) : v.lt w = some (decide (x < y)) := by
  cases v <;> cases w <;> cases ht
  case num.num a b =>
    cases hv
    cases hw
    simp [lt, mkKey_lt]
  case real.real wide a b =>
    obtain ⟨p, hp, rfl⟩ := Option.map_eq_some_iff.mp hv
    obtain ⟨q, hq, rfl⟩ := Option.map_eq_some_iff.mp hw
    simp [lt, hp, hq, mkKey_lt]
  case bytes.bytes a b =>
    cases hv
    cases hw
    simp [lt, mkKey_lt]
  case oid.oid a b =>
    cases hv
    cases hw
    rw [lt, Option.some.injEq, Bool.eq_iff_iff, ObjectId.lt_eq, ObjectId.lt_iff, decide_eq_true_iff,
      mkKey_lt]
    simp [Fin.val_inj]
  case date.date a b =>
    cases hv
    cases hw
    simp [lt, Date.lt, mkKey_lt]
  case time.time a b =>
    cases hv
    cases hw
    simp [lt, Time.lt, mkKey_lt]
  case dateTime.dateTime a b =>
    obtain ⟨p, hp, rfl⟩ := Option.map_eq_some_iff.mp hv
    obtain ⟨q, hq, rfl⟩ := Option.map_eq_some_iff.mp hw
    have hlt : a.lt b = some (decide (p < q ∨ p = q ∧ a.tz < b.tz)) := by
      rw [DateTime.lt, hp, hq]
      show (if p < q then some true else if p = q then some (decide (a.tz < b.tz)) else some false) = _
      rcases lt_trichotomy p q with h | h | h
      · simp [h]
      · simp [h]
      · simp [h.not_gt, h.ne']
    rw [lt, hlt]
    simp [mkKey_lt]
  case dateRange.dateRange a b =>
    cases hv
    cases hw
    simp [lt, DateRange.lt, mkKey_lt]

/-- Equal values have one place. -/
theorem key_eq {v w : Plain} (ht : v.type = w.type) (h : v.eq w = true) : v.key = w.key := by
  cases v <;> cases w <;> cases ht
  case num.num a b => rw [of_decide_eq_true h]
  case real.real wide a b =>
    rw [eq] at h
    cases ha : realKey wide a with
    | none => rw [ha] at h; cases h
    | some x =>
      cases hb : realKey wide b with
      | none => rw [ha, hb] at h; cases h
      | some y =>
        rw [ha, hb] at h
        rw [key, key, ha, hb, show x = y from of_decide_eq_true h]
  case bytes.bytes a b => rw [of_decide_eq_true h]
  case oid.oid a b => rw [of_decide_eq_true h]
  case date.date a b => rw [of_decide_eq_true h]
  case time.time a b => rw [of_decide_eq_true h]
  case dateTime.dateTime a b =>
    obtain ⟨htz, hd, hti⟩ := of_decide_eq_true h
    have hab : a = b := by
      cases a
      cases b
      exact DateTime.mk.injEq .. ▸ ⟨hd, hti, htz⟩
    rw [hab]
  case dateRange.dateRange a b =>
    rw [key, key, show a.value = b.value from of_decide_eq_true h]

theorem eq_comm {v w : Plain} (ht : v.type = w.type) : v.eq w = w.eq v := by
  cases v <;> cases w <;> cases ht
  case real.real wide a b =>
    rw [eq, eq]
    cases realKey wide a <;> cases realKey wide b <;> first | rfl | exact decide_eq_decide.mpr ⟨Eq.symm, Eq.symm⟩
  case dateTime.dateTime a b =>
    exact decide_eq_decide.mpr ⟨fun h => ⟨h.1.symm, h.2.1.symm, h.2.2.symm⟩,
      fun h => ⟨h.1.symm, h.2.1.symm, h.2.2.symm⟩⟩
  all_goals exact decide_eq_decide.mpr ⟨Eq.symm, Eq.symm⟩

end Plain

/-! ### Vectors -/

/-- What `value()` of a field gives: one value, or a vector where the field is repeated. -/
inductive FieldData
  | one (v : Plain)
  | many (l : List Plain)

/-- `operator <` of vectors: the first elements that are not equivalent decide. -/
def vectorLt : List Plain → List Plain → Option Bool
  | _, [] => some false
  | [], _ :: _ => some true
  | v :: l, w :: l' => do
    if ← v.lt w then return true
    if ← w.lt v then return false
    vectorLt l l'

def vectorEq : List Plain → List Plain → Bool
  | [], [] => true
  | v :: l, w :: l' => v.eq w && vectorEq l l'
  | _, _ => false

/-- The places of elements. -/
def vectorKeys : List Plain → Option (List Key)
  | [] => some []
  | v :: l => do
    let x ← v.key
    let xs ← vectorKeys l
    return x :: xs

section
variable {l l' : List Plain} {t : PlainType}

theorem vectorKeys_cons {v : Plain} {xs : List Key} (h : vectorKeys (v :: l) = some xs) :
    ∃ x ys, v.key = some x ∧ vectorKeys l = some ys ∧ xs = x :: ys := by
  obtain ⟨x, hx, h⟩ := Option.bind_eq_some_iff.mp h
  obtain ⟨ys, hys, h⟩ := Option.bind_eq_some_iff.mp h
  exact ⟨x, ys, hx, hys, (Option.some.inj h).symm⟩

/-- **Vectors compare as the places of their elements.** -/
theorem vectorLt_eq : ∀ {l l' : List Plain} {xs ys : List Key}, (∀ v ∈ l, v.type = t) →
    (∀ v ∈ l', v.type = t) → vectorKeys l = some xs → vectorKeys l' = some ys →
    vectorLt l l' = some (decide (xs < ys)) := by
  intro l
  induction l with
  | nil =>
    intro l' xs ys _ _ hx hy
    cases hx
    cases l' with
    | nil =>
      cases hy
      rfl
    | cons w l' =>
      obtain ⟨y, ys', -, -, rfl⟩ := vectorKeys_cons hy
      simp [vectorLt]
  | cons v l ih =>
    intro l' xs ys hv hw hx hy
    obtain ⟨x, xs, hkx, hxs, rfl⟩ := vectorKeys_cons hx
    cases l' with
    | nil =>
      cases hy
      simp [vectorLt]
    | cons w l' =>
      obtain ⟨y, ys, hky, hys, rfl⟩ := vectorKeys_cons hy
      have ht : v.type = w.type := (hv v (by simp)).trans (hw w (by simp)).symm
      have hrest := ih (fun u hu => hv u (List.mem_cons_of_mem _ hu))
        (fun u hu => hw u (List.mem_cons_of_mem _ hu)) hxs hys
      rw [vectorLt, Plain.lt_eq ht hkx hky, Plain.lt_eq ht.symm hky hkx, hrest]
      rcases lt_trichotomy x y with h | rfl | h
      · simp [h, List.cons_lt_cons_iff]
      · simp
      · simp [h, h.not_gt, h.ne', List.cons_lt_cons_iff]

theorem vectorKeys_eq : ∀ {l l' : List Plain}, (∀ v ∈ l, v.type = t) → (∀ v ∈ l', v.type = t) →
    vectorEq l l' = true → vectorKeys l = vectorKeys l' := by
  intro l
  induction l with
  | nil =>
    intro l' _ _ h
    cases l' with
    | nil => rfl
    | cons w l' => cases h
  | cons v l ih =>
    intro l' hv hw h
    cases l' with
    | nil => cases h
    | cons w l' =>
      obtain ⟨hvw, h⟩ := Bool.and_eq_true_iff.mp h
      have ht : v.type = w.type := (hv v (by simp)).trans (hw w (by simp)).symm
      rw [vectorKeys, vectorKeys, Plain.key_eq ht hvw,
        ih (fun u hu => hv u (List.mem_cons_of_mem _ hu))
          (fun u hu => hw u (List.mem_cons_of_mem _ hu)) h]

theorem vectorEq_comm : ∀ {l l' : List Plain}, (∀ v ∈ l, v.type = t) → (∀ v ∈ l', v.type = t) →
    vectorEq l l' = vectorEq l' l := by
  intro l
  induction l with
  | nil => intro l' _ _; cases l' <;> rfl
  | cons v l ih =>
    intro l' hv hw
    cases l' with
    | nil => rfl
    | cons w l' =>
      have ht : v.type = w.type := (hv v (by simp)).trans (hw w (by simp)).symm
      rw [vectorEq, vectorEq, Plain.eq_comm ht,
        ih (fun u hu => hv u (List.mem_cons_of_mem _ hu))
          (fun u hu => hw u (List.mem_cons_of_mem _ hu))]

end

namespace FieldData

def lt : FieldData → FieldData → Option Bool
  | one v, one w => v.lt w
  | many l, many l' => vectorLt l l'
  | _, _ => some false

def eq : FieldData → FieldData → Bool
  | one v, one w => v.eq w
  | many l, many l' => vectorEq l l'
  | _, _ => false

/-- The values that the type of a field can have. -/
def Has (repeated : Bool) (t : PlainType) : FieldData → Prop
  | one v => repeated = false ∧ v.type = t
  | many l => repeated = true ∧ ∀ v ∈ l, v.type = t

/-- The places of the values. -/
def keys : FieldData → Option (List Key)
  | one v => v.key.map fun x => [x]
  | many l => vectorKeys l

variable {repeated : Bool} {t : PlainType} {v w : FieldData}

/-- **`operator <` is the order of the places.** -/
theorem lt_eq {xs ys : List Key} (hv : v.Has repeated t) (hw : w.Has repeated t)
    (hx : v.keys = some xs) (hy : w.keys = some ys) : v.lt w = some (decide (xs < ys)) := by
  cases v with
  | one v =>
    cases w with
    | one w =>
      obtain ⟨x, hkx, rfl⟩ := Option.map_eq_some_iff.mp hx
      obtain ⟨y, hky, rfl⟩ := Option.map_eq_some_iff.mp hy
      rw [lt, Plain.lt_eq (hv.2.trans hw.2.symm) hkx hky]
      simp [List.cons_lt_cons_iff]
    | many l => exact absurd (hv.1.symm.trans hw.1) (by decide)
  | many l =>
    cases w with
    | one w => exact absurd (hw.1.symm.trans hv.1) (by decide)
    | many l' => exact vectorLt_eq hv.2 hw.2 hx hy

theorem keys_eq (hv : v.Has repeated t) (hw : w.Has repeated t) (h : v.eq w = true) :
    v.keys = w.keys := by
  cases v with
  | one v =>
    cases w with
    | one w => rw [keys, keys, Plain.key_eq (hv.2.trans hw.2.symm) h]
    | many l => cases h
  | many l =>
    cases w with
    | one w => cases h
    | many l' => exact vectorKeys_eq hv.2 hw.2 h

theorem eq_comm (hv : v.Has repeated t) (hw : w.Has repeated t) : v.eq w = w.eq v := by
  cases v with
  | one v =>
    cases w with
    | one w => exact Plain.eq_comm (hv.2.trans hw.2.symm)
    | many l => rfl
  | many l =>
    cases w with
    | one w => rfl
    | many l' => exact vectorEq_comm hv.2 hw.2

end FieldData

end Hatn.Dataunit.Compare
