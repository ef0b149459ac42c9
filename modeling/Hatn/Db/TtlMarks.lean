import Hatn.Db.IndexValues
import Mathlib.Order.Bounds.Basic

/-!
# The expiry of an object

`TtlMark::fill` records the earliest expiry of an object over the TTL indexes of its model.
The expiries are summed up in 32 bits, and two of their values are taken for "never": zero, and
the largest one, with which the minimum starts.  `expires_iff` says for which objects the
record is the minimum all the same.
-/

namespace Hatn.Db

open Hatn.Common

/-! ### Fields of TTL indexes -/

/-- The value of a field that a TTL index can have: types with `isNull` and `toEpoch`. -/
inductive TtlValue
  | dateTime (d : DateTime)
  | objectId (x : Dataunit.ObjectId)

namespace TtlValue

def isNull : TtlValue → Bool
  | dateTime d => !d.isValid
  | objectId x => x.timepoint.val = 0

/-- `toEpoch`: an `int32_t` of a date and time, an `uint32_t` of an object id. -/
def toEpoch : TtlValue → Option Int
  | dateTime d => d.toEpoch
  | objectId x => some ((x.timepoint.val / 1000 : Nat) % 2 ^ 32)

/-- The whole seconds since 1970, in any number of bits. -/
def seconds : TtlValue → Option Int
  | dateTime d => d.toEpochMs.map (·.tdiv 1000)
  | objectId x => some (x.timepoint.val / 1000 : Nat)

/-- **Casts are taken modulo `2^32`.** -/
theorem toEpoch_emod {v : TtlValue} (h : v.isNull = false) :
    v.toEpoch.map (· % 2 ^ 32) = v.seconds.map (· % 2 ^ 32) := by
  cases v with
  | dateTime d =>
    have hv : d.isValid = true := by simpa [isNull] using h
    rw [toEpoch, seconds, DateTime.toEpoch, hv]
    cases d.toEpochMs with
    | none => rfl
    | some ms => exact congrArg some (Int.bmod_emod (x := ms.tdiv 1000) (m := 2 ^ 32))
  | objectId x => exact congrArg some (Int.emod_emod_of_dvd _ dvd_rfl)

end TtlValue

/-- The field of a TTL index in an object; it is not set without a value. -/
structure TtlField where
  ttl : Nat
  ttl_pos : 0 < ttl
  ttl_lt : ttl < 2 ^ 32
  value : Option TtlValue

namespace TtlMark

/-- A round of `fill`. -/
def fillField (prev : Nat) (f : TtlField) : Option Nat :=
  match f.value with
  | none => some prev
  | some v =>
    if v.isNull then some prev
    else do
      let tp ← v.toEpoch
      let exp := ((tp + f.ttl) % 2 ^ 32).toNat
      return if exp < prev then exp else prev

/-- `fill` over the TTL indexes; `none` stands for the exception of the calendar. -/
def fill (fields : List TtlField) : Option TtlMark :=
  if fields.isEmpty then some (fillExpireAt 0)
  else do
    let expireAt ← fields.foldlM fillField (2 ^ 32 - 1)
    return fillExpireAt (if expireAt = 2 ^ 32 - 1 then 0 else expireAt)

end TtlMark

/-! ### Expiries -/

namespace TtlField

/-- The field is set, with a value that is not null. -/
def Has (f : TtlField) (v : TtlValue) : Prop := f.value = some v ∧ v.isNull = false

/-- The field time plus the TTL. -/
def Due (f : TtlField) (s : Int) : Prop := ∃ v e, f.Has v ∧ v.seconds = some e ∧ s = e + f.ttl

end TtlField

/-- The expiries of an object. -/
def dues (fields : List TtlField) : Set Int := {s | ∃ f ∈ fields, f.Due s}

/-- **What the record is for**: the earliest expiry, or none; and the object is expired at just
those times that are behind some expiry. -/
structure Expires (fields : List TtlField) (mark : TtlMark) : Prop where
  never : (∀ f ∈ fields, ∀ v, ¬ f.Has v) → mark = .null
  least : ∀ f ∈ fields, ∀ v, f.Has v → mark.isNull = false ∧
    IsLeast (dues fields) (TtlMark.ttlMarkTimepoint mark.bytes)
  expired : ∀ t : UInt32, TtlMark.isExpired mark.bytes t.toNat = true ↔
    ∃ f ∈ fields, ∃ s, f.Due s ∧ s < t.toNat

/-- The calendar knows each date, the earliest expiry is positive and below the largest number,
and no expiry falls below it in 32 bits. -/
structure Representable (fields : List TtlField) : Prop where
  calendar : ∀ f ∈ fields, ∀ v, f.Has v → v.seconds.isSome = true
  least : ∀ s, IsLeast (dues fields) s → 0 < s ∧ s < 2 ^ 32 - 1 ∧
    ∀ s' ∈ dues fields, s ≤ s' % 2 ^ 32

theorem TtlField.Has.unique {f : TtlField} {v w : TtlValue} (h : f.Has v) (h' : f.Has w) : v = w :=
  Option.some.inj (h.1.symm.trans h'.1)

theorem TtlField.Due.unique {f : TtlField} {s s' : Int} (h : f.Due s) (h' : f.Due s') : s = s' := by
  obtain ⟨v, e, hv, he, rfl⟩ := h
  obtain ⟨w, e', hw, he', rfl⟩ := h'
  obtain rfl := hv.unique hw
  rw [Option.some.inj (he.symm.trans he')]

theorem dues_cons (f : TtlField) (fields : List TtlField) (s : Int) :
    s ∈ dues (f :: fields) ↔ f.Due s ∨ s ∈ dues fields := by
  simp only [dues, Set.mem_ofPred_eq, List.mem_cons, exists_eq_or_imp]

namespace TtlMark

/-- A round over a field without a time leaves the minimum. -/
theorem fillField_unset {f : TtlField} (h : ∀ v, ¬ f.Has v) (prev : Nat) :
    fillField prev f = some prev := by
  rw [fillField]
  cases hv : f.value with
  | none => rfl
  | some v =>
    have hn : v.isNull = true := by
      by_contra hn
      exact h v ⟨hv, by simpa using hn⟩
    dsimp only
    rw [if_pos hn]

/-- A round over a date that the calendar does not know throws. -/
theorem fillField_none {f : TtlField} {v : TtlValue} (h : f.Has v) (hs : v.seconds = none)
    (prev : Nat) : fillField prev f = none := by
  have ht := v.toEpoch_emod h.2
  rw [hs, Option.map_none, Option.map_eq_none_iff] at ht
  rw [fillField, h.1]
  dsimp only
  rw [h.2, if_neg Bool.false_ne_true, ht]
  rfl

/-- **A round takes the minimum** with the expiry in 32 bits. -/
theorem fillField_due {f : TtlField} {s : Int} (h : f.Due s) (prev : Nat) :
    fillField prev f = some (min (s % 2 ^ 32).toNat prev) := by
  obtain ⟨v, e, hv, he, rfl⟩ := h
  have ht := v.toEpoch_emod hv.2
  rw [he, Option.map_some] at ht
  obtain ⟨tp, htp, hmod⟩ := Option.map_eq_some_iff.mp ht
  have hsum : (tp + f.ttl) % 2 ^ 32 = (e + f.ttl) % 2 ^ 32 := by
    rw [Int.add_emod, hmod, ← Int.add_emod]
  rw [fillField, hv.1]
  dsimp only
  rw [hv.2, if_neg Bool.false_ne_true, htp, Option.bind_eq_bind, Option.bind_some, hsum]
  congr 1
  rw [min_def]
  split_ifs <;> omega

/-- Each field has no time, or an expiry, or a date that the calendar does not know. -/
theorem field_cases (f : TtlField) :
    (∀ v, ¬ f.Has v) ∨ (∃ s, f.Due s) ∨ ∃ v, f.Has v ∧ v.seconds = none := by
  by_cases h : ∃ v, f.Has v
  · obtain ⟨v, hv⟩ := h
    cases he : v.seconds with
    | none => exact .inr (.inr ⟨v, hv, he⟩)
    | some e => exact .inr (.inl ⟨_, v, e, hv, he, rfl⟩)
  · exact .inl (not_exists.mp h)

/-- **The rounds**: they throw at a date that the calendar does not know, and otherwise leave
the minimum of the expiries in 32 bits. -/
theorem foldlM_fillField : ∀ (fields : List TtlField) (prev : Nat),
    (fields.foldlM fillField prev = none ∧ ∃ f ∈ fields, ∃ v, f.Has v ∧ v.seconds = none) ∨
      ∃ r, fields.foldlM fillField prev = some r ∧
        (∀ f ∈ fields, ∀ v, f.Has v → v.seconds.isSome = true) ∧ r ≤ prev ∧
        (∀ s ∈ dues fields, (r : Int) ≤ s % 2 ^ 32) ∧
        (r = prev ∨ ∃ s ∈ dues fields, (r : Int) = s % 2 ^ 32) := by
  intro fields
  induction fields with
  | nil =>
    intro prev
    refine .inr ⟨prev, rfl, nofun, le_rfl, ?_, .inl rfl⟩
    rintro s ⟨f, hf, -⟩
    cases hf
  | cons f fields ih =>
    intro prev
    rw [List.foldlM_cons]
    rcases field_cases f with h | ⟨s, h⟩ | ⟨v, h, hs⟩
    · have hdues : ∀ s, ¬ f.Due s := fun s ⟨v, _, hv, _⟩ => h v hv
      rw [fillField_unset h, Option.bind_eq_bind, Option.bind_some]
      rcases ih prev with ⟨hr, g, hg, hbad⟩ | ⟨r, hr, hc, hle, hmin, hmem⟩
      · exact .inl ⟨hr, g, .tail _ hg, hbad⟩
      · refine .inr ⟨r, hr, ?_, hle, ?_, hmem.imp_right ?_⟩
        · exact List.forall_mem_cons.mpr ⟨fun v hv => absurd hv (h v), hc⟩
        · exact fun s hs => hmin s (((dues_cons f fields s).mp hs).resolve_left (hdues s))
        · exact fun ⟨s, hs, he⟩ => ⟨s, (dues_cons f fields s).mpr (.inr hs), he⟩
    · have hpos : 0 ≤ s % 2 ^ 32 := Int.emod_nonneg s (by norm_num)
      rw [fillField_due h, Option.bind_eq_bind, Option.bind_some]
      rcases ih (min (s % 2 ^ 32).toNat prev) with
        ⟨hr, g, hg, hbad⟩ | ⟨r, hr, hc, hle, hmin, hmem⟩
      · exact .inl ⟨hr, g, .tail _ hg, hbad⟩
      · have hle' := le_min_iff.mp hle
        refine .inr ⟨r, hr, ?_, hle'.2, ?_, ?_⟩
        · refine List.forall_mem_cons.mpr ⟨?_, hc⟩
          obtain ⟨w, e, hw, he, -⟩ := h
          intro v hv
          rw [hv.unique hw, he]
          rfl
        · intro s' hs'
          rcases (dues_cons f fields s').mp hs' with hd | hd
          · rw [hd.unique h]
            omega
          · exact hmin s' hd
        · rcases hmem with rfl | ⟨s', hs', he⟩
          · rcases min_choice (s % 2 ^ 32).toNat prev with hm | hm
            · refine .inr ⟨s, (dues_cons f fields s).mpr (.inl h), ?_⟩
              rw [hm]
              omega
            · exact .inl hm
          · exact .inr ⟨s', (dues_cons f fields s').mpr (.inr hs'), he⟩
    · rw [fillField_none h hs]
      exact .inl ⟨rfl, f, .head _, v, h, hs⟩

theorem fill_eq (fields : List TtlField) :
    fill fields = (fields.foldlM fillField (2 ^ 32 - 1)).map fun expireAt =>
      fillExpireAt (if expireAt = 2 ^ 32 - 1 then 0 else expireAt) := by
  cases fields with
  | nil => rfl
  | cons f fields =>
    rw [fill, if_neg (by simp), Option.bind_eq_bind]
    exact (Option.map_eq_bind ..).symm

theorem fillExpireAt_isNull (e : Nat) : (fillExpireAt e).isNull = decide (e = 0) := by
  rw [isNull]
  rcases fillExpireAt_cases e with ⟨rfl, hb⟩ | ⟨h, hb⟩
  · rw [hb]
    rfl
  · rw [hb, List.length_append, leBytes_length]
    exact (decide_eq_false (by omega)).symm

theorem fillExpireAt_timepoint {e : Nat} (h : e < 2 ^ 32) :
    ttlMarkTimepoint (fillExpireAt e).bytes = e := ttlMarkTimepoint_append [] e h

end TtlMark

/-- An object with an expiry has an earliest one. -/
theorem exists_isLeast_dues : ∀ fields : List TtlField, (dues fields).Nonempty →
    ∃ s, IsLeast (dues fields) s := by
  intro fields
  induction fields with
  | nil =>
    rintro ⟨s, f, hf, -⟩
    cases hf
  | cons f fields ih =>
    rintro ⟨s, hs⟩
    by_cases hrest : (dues fields).Nonempty
    · obtain ⟨m, hm, hle⟩ := ih hrest
      by_cases hf : ∃ t, f.Due t
      · obtain ⟨t, ht⟩ := hf
        refine ⟨min t m, ?_, ?_⟩
        · rcases min_choice t m with h | h <;> rw [h, dues_cons]
          · exact .inl ht
          · exact .inr hm
        · intro s' hs'
          rcases (dues_cons f fields s').mp hs' with h | h
          · exact (min_le_left t m).trans (h.unique ht).ge
          · exact (min_le_right t m).trans (hle h)
      · refine ⟨m, (dues_cons f fields m).mpr (.inr hm), ?_⟩
        intro s' hs'
        exact hle (((dues_cons f fields s').mp hs').resolve_left fun h => hf ⟨s', h⟩)
    · have hs := ((dues_cons f fields s).mp hs).resolve_right fun h => hrest ⟨s, h⟩
      refine ⟨s, (dues_cons f fields s).mpr (.inl hs), ?_⟩
      intro s' hs'
      rcases (dues_cons f fields s').mp hs' with h | h
      · exact (h.unique hs).ge
      · exact absurd ⟨s', h⟩ hrest

open TtlMark

/-- An object without a time never expires. -/
theorem expires_null {fields : List TtlField} (h : ∀ f ∈ fields, ∀ v, ¬ f.Has v) :
    Expires fields .null := by
  refine ⟨fun _ => rfl, fun f hf v hv => absurd hv (h f hf v), ?_⟩
  intro t
  refine ⟨nofun, ?_⟩
  rintro ⟨f, hf, s, ⟨v, e, hv, -⟩, -⟩
  exact absurd hv (h f hf v)

/-- An object with a mark of its earliest expiry. -/
theorem expires_fillExpireAt {fields : List TtlField} {r : Nat} (h : IsLeast (dues fields) r)
    (hpos : 0 < r) (hlt : r < 2 ^ 32) : Expires fields (fillExpireAt r) := by
  have htp := fillExpireAt_timepoint hlt
  refine ⟨?_, ?_, ?_⟩
  · intro hnone
    obtain ⟨f, hf, v, e, hv, -⟩ := h.1
    exact absurd hv (hnone f hf v)
  · intro f hf v hv
    rw [htp, fillExpireAt_isNull, decide_eq_false_iff_not]
    exact ⟨by omega, h⟩
  · intro t
    rw [isExpired, htp, decide_eq_true_iff]
    constructor
    · rintro ⟨-, ht⟩
      obtain ⟨f, hf, hd⟩ := h.1
      exact ⟨f, hf, r, hd, by omega⟩
    · rintro ⟨f, hf, s, hd, hs⟩
      have := h.2 ⟨f, hf, hd⟩
      omega

/-- **The expiry of an object is recorded** where it can be: for just those objects whose
expiries, in 32 bits, do not fall below the earliest one, while that is none of the numbers
that stand for "never". -/
theorem expires_iff (fields : List TtlField) :
    (∃ mark, fill fields = some mark ∧ Expires fields mark) ↔ Representable fields := by
  rw [fill_eq]
  constructor
  · rintro ⟨mark, hfill, hexp⟩
    obtain ⟨r, hr, rfl⟩ := Option.map_eq_some_iff.mp hfill
    rcases foldlM_fillField fields (2 ^ 32 - 1) with ⟨hn, -⟩ | ⟨r', hr', hcal, hle, hmin, -⟩
    · rw [hn] at hr
      cases hr
    obtain rfl := Option.some.inj (hr.symm.trans hr')
    refine ⟨hcal, ?_⟩
    intro s hs
    obtain ⟨f, hf, v, e, hv, -⟩ := hs.1
    obtain ⟨hnull, hleast⟩ := hexp.least f hf v hv
    rw [fillExpireAt_isNull, decide_eq_false_iff_not] at hnull
    have hne : r ≠ 2 ^ 32 - 1 := fun h => hnull (if_pos h)
    rw [if_neg hne] at hnull hleast
    rw [fillExpireAt_timepoint (by omega)] at hleast
    obtain rfl := hs.unique hleast
    exact ⟨by omega, by omega, hmin⟩
  · rintro ⟨hcal, hleast⟩
    rcases foldlM_fillField fields (2 ^ 32 - 1) with
      ⟨-, f, hf, v, hv, hs⟩ | ⟨r, hr, -, hle, hmin, hmem⟩
    · have := hcal f hf v hv
      rw [hs] at this
      cases this
    rw [hr]
    refine ⟨_, rfl, ?_⟩
    by_cases hdues : (dues fields).Nonempty
    · obtain ⟨m, hm⟩ := exists_isLeast_dues fields hdues
      obtain ⟨h0, hlt, hge⟩ := hleast m hm
      have hmod : m % 2 ^ 32 = m := Int.emod_eq_of_lt h0.le (by omega)
      have hrm := hmin m hm.1
      have hrm' : m = r := by
        rcases hmem with rfl | ⟨s, hs, he⟩
        · omega
        · have := hge s hs
          omega
      show Expires fields (fillExpireAt (if r = 2 ^ 32 - 1 then 0 else r))
      rw [if_neg (by omega)]
      rw [hrm'] at hm
      exact expires_fillExpireAt hm (by omega) (by omega)
    · obtain rfl : r = 2 ^ 32 - 1 := hmem.resolve_right fun ⟨s, hs, _⟩ => hdues ⟨s, hs⟩
      refine expires_null fun f hf v hv => ?_
      obtain ⟨e, he⟩ := Option.isSome_iff_exists.mp (hcal f hf v hv)
      exact hdues ⟨_, f, hf, v, e, hv, he, rfl⟩

/-- A field of the year 2106 whose expiry leaves the 32 bits. -/
def lateField : TtlField :=
  ⟨5, by decide, by decide, some (.dateTime
    ⟨⟨2106, 2, 7, by decide, Nat.le_add_right 2 10, by decide⟩,
      ⟨6, 28, 14, 0, by decide, by decide, by decide, Nat.zero_lt_succ 999⟩, 0⟩)⟩

/-- The object counts as expired since the fourth second of 1970. -/
theorem lateField_not_expires : ¬ ∃ mark, TtlMark.fill [lateField] = some mark ∧
    Expires [lateField] mark := by
  rintro ⟨mark, hfill, hexp⟩
  have hmark : TtlMark.fill [lateField] = some (TtlMark.fillExpireAt 3) := by decide
  obtain rfl := Option.some.inj (hmark.symm.trans hfill)
  obtain ⟨f, hf, s, ⟨v, e, hv, he, hs⟩, ht⟩ := (hexp.expired 4).mp (by decide)
  obtain rfl := List.mem_singleton.mp hf
  obtain rfl := Option.some.inj hv.1
  have hsec : e = 4294967294 := Option.some.inj (he.symm.trans (by decide))
  have htt : (lateField.ttl : Int) = 5 := rfl
  have h4 : ((4 : UInt32).toNat : Int) = 4 := rfl
  omega

end Hatn.Db
