import Hatn.Search.SearchTree

/-!
# Paths of indexed fields

An update looks up the indexes that a field belongs to in a multimap of paths.  `FieldPathCompare`
does not tell a path apart from the paths that go on from it, which is not an equivalence.  Among
paths none of which goes on from another one it is, and the paths that a path of an update is not
told apart from lie next to each other: all of them are found (`equalRange_paths`).
-/

namespace Hatn.Db

open Search

structure FieldPathElement where
  fieldId : Int
  name : String
  idx : Int
  deriving DecidableEq

abbrev FieldPath := List FieldPathElement

/-- `FieldPathCompare` -/
def FieldPathCompare : FieldPath → FieldPath → Bool
  | [], _ => false
  | _ :: _, [] => false
  | l :: ls, r :: rs =>
    if l.fieldId < r.fieldId then true
    else if l.fieldId > r.fieldId then false
    else FieldPathCompare ls rs

namespace FieldPath

/-- What the comparison looks at. -/
def ids (path : FieldPath) : List Int := path.map FieldPathElement.fieldId

/-- One of the paths goes on from the other one. -/
def Related (p q : FieldPath) : Prop := p.ids <+: q.ids ∨ q.ids <+: p.ids

instance (p q : FieldPath) : Decidable (Related p q) := inferInstanceAs (Decidable (_ ∨ _))

/-- No path is a proper beginning of another one. -/
def Leaves (paths : List FieldPath) : Prop :=
  ∀ p ∈ paths, ∀ q ∈ paths, p.ids <+: q.ids → p.ids = q.ids

instance (paths : List FieldPath) : Decidable (Leaves paths) :=
  inferInstanceAs (Decidable (∀ p ∈ paths, ∀ q ∈ paths, p.ids <+: q.ids → p.ids = q.ids))

end FieldPath

section
variable {ν : Type}

/-- The handlers of the indexes that `updatingKeys` calls for the fields of a request. -/
def updatingKeys (updateIndexKeyExtractors : SearchTree (FieldPath × ν)) (request : List FieldPath)
    (ttlUpdated : Bool) : List ν :=
  request.flatMap fun path =>
    if ttlUpdated then updateIndexKeyExtractors.toList.map Prod.snd
    else (updateIndexKeyExtractors.entries
      (updateIndexKeyExtractors.equalRange FieldPathCompare Prod.fst path)).map Prod.snd

end

/-! ### The comparison -/

namespace FieldPath

variable {p q r : FieldPath}

theorem compare_congr : ∀ {p p' q q' : FieldPath}, p.ids = p'.ids → q.ids = q'.ids →
    FieldPathCompare p q = FieldPathCompare p' q' := by
  intro p
  induction p with
  | nil =>
    intro p' q q' hp _
    obtain rfl : p' = [] := List.map_eq_nil_iff.mp hp.symm
    rfl
  | cons a p ih =>
    intro p' q q' hp hq
    cases p' with
    | nil => cases hp
    | cons a' p' =>
      cases q with
      | nil =>
        obtain rfl : q' = [] := List.map_eq_nil_iff.mp hq.symm
        rfl
      | cons b q =>
        cases q' with
        | nil => cases hq
        | cons b' q' =>
          obtain ⟨ha, hp⟩ := List.cons.inj hp
          obtain ⟨hb, hq⟩ := List.cons.inj hq
          rw [FieldPathCompare, FieldPathCompare, ha, hb, ih hp hq]

theorem compare_asymm : ∀ {p q : FieldPath}, FieldPathCompare p q = true →
    ¬ FieldPathCompare q p = true := by
  intro p
  induction p with
  | nil => exact fun h => by cases h
  | cons a p ih =>
    intro q h
    cases q with
    | nil => cases h
    | cons b q =>
      rw [FieldPathCompare] at h ⊢
      by_cases hlt : a.fieldId < b.fieldId
      · rw [if_neg (by omega), if_pos hlt]
        exact Bool.false_ne_true
      · rw [if_neg hlt] at h
        by_cases hgt : a.fieldId > b.fieldId
        · rw [if_pos hgt] at h
          cases h
        · rw [if_neg hgt] at h
          rw [if_neg hgt, if_neg hlt]
          exact ih h

theorem compare_trans : ∀ {p q r : FieldPath}, FieldPathCompare p q = true →
    FieldPathCompare q r = true → FieldPathCompare p r = true := by
  intro p
  induction p with
  | nil => exact fun h => by cases h
  | cons a p ih =>
    intro q r hpq hqr
    cases q with
    | nil => cases hpq
    | cons b q =>
      cases r with
      | nil => cases hqr
      | cons c r =>
        rw [FieldPathCompare] at hpq hqr ⊢
        split_ifs at hpq hqr ⊢
        all_goals first | rfl | omega | exact ih hpq hqr

/-- **What is not told apart**: paths of which one goes on from the other one. -/
theorem not_comparable_iff : ∀ {p q : FieldPath},
    ¬ Comparable FieldPathCompare p q ↔ Related p q := by
  intro p
  induction p with
  | nil =>
    intro q
    refine iff_of_true ?_ (.inl List.nil_prefix)
    rintro (h | h)
    · cases h
    · cases q <;> cases h
  | cons a p ih =>
    intro q
    cases q with
    | nil =>
      refine iff_of_true ?_ (.inr List.nil_prefix)
      rintro (h | h) <;> cases h
    | cons b q =>
      have hids : Related (a :: p) (b :: q) ↔ a.fieldId = b.fieldId ∧ Related p q := by
        rw [Related, Related, ids, ids, List.map_cons, List.map_cons, List.cons_prefix_cons,
          List.cons_prefix_cons, and_or_left, eq_comm (a := b.fieldId)]
        rfl
      rw [hids, ← ih, Search.Comparable, Search.Comparable, FieldPathCompare, FieldPathCompare]
      rcases Int.lt_trichotomy a.fieldId b.fieldId with h | h | h
      · simp [h, h.ne]
      · simp [h]
      · simp [h, h.ne', h.not_gt]

/-- Two leaves are told apart unless they are one. -/
theorem Leaves.not_comparable_iff {paths : List FieldPath} (h : Leaves paths) (hp : p ∈ paths)
    (hq : q ∈ paths) : ¬ Comparable FieldPathCompare p q ↔ p.ids = q.ids := by
  rw [FieldPath.not_comparable_iff]
  constructor
  · rintro (hpq | hqp)
    · exact h p hp q hq hpq
    · exact (h q hq p hp hqp).symm
  · exact fun heq => .inl (heq ▸ List.prefix_rfl)

/-- **Leaves are in a weak order.** -/
theorem Leaves.weakOrderOn {paths : List FieldPath} (h : Leaves paths) :
    WeakOrderOn FieldPathCompare paths where
  irrefl _ _ hp := compare_asymm hp hp
  asymm _ _ _ _ := compare_asymm
  trans _ _ _ _ _ _ := compare_trans
  incomparable p hp q hq r hr hpq hqr := by
    rw [h.not_comparable_iff hp hq] at hpq
    rw [h.not_comparable_iff hq hr] at hqr
    exact (h.not_comparable_iff hp hr).mpr (hpq.trans hqr)

/-- Of two leaves, the first one is less than the other or is it. -/
theorem Leaves.less_or_eq {paths : List FieldPath} (h : Leaves paths) (hp : p ∈ paths)
    (hq : q ∈ paths) (hqp : FieldPathCompare q p = false) :
    FieldPathCompare p q = true ∨ p.ids = q.ids := by
  by_cases hpq : FieldPathCompare p q = true
  · exact .inl hpq
  · refine .inr ((h.not_comparable_iff hp hq).mp ?_)
    rintro (hl | hl)
    · exact hpq hl
    · rw [hqp] at hl
      cases hl

end FieldPath

/-! ### The multimap -/

open FieldPath

variable {ν : Type} {entries : List (FieldPath × ν)} {t : SearchTree (FieldPath × ν)}

/-- Any path cuts the multimap. -/
theorem cutBy_path (hfilled : t.Filled FieldPathCompare Prod.fst entries)
    (hleaves : Leaves (entries.map Prod.fst)) (q : FieldPath) :
    SearchTree.CutBy FieldPathCompare Prod.fst q t.toList := by
  have hmem : ∀ a ∈ t.toList, a.1 ∈ entries.map Prod.fst := fun a ha =>
    List.mem_map_of_mem (hfilled.perm.subset ha)
  have hsorted := hfilled.sorted hleaves.weakOrderOn fun a ha => List.mem_map_of_mem ha
  refine ⟨fun a _ haq => Bool.eq_false_iff.mpr (compare_asymm haq), ?_, ?_⟩
  · refine hsorted.imp_of_mem fun {a b} ha hb hba hbq => ?_
    rcases hleaves.less_or_eq (hmem a ha) (hmem b hb) hba with hab | heq
    · exact compare_trans hab hbq
    · rw [compare_congr heq rfl]
      exact hbq
  · refine hsorted.imp_of_mem fun {a b} ha hb hba hqa => ?_
    rcases hleaves.less_or_eq (hmem a ha) (hmem b hb) hba with hab | heq
    · exact compare_trans hqa hab
    · rw [compare_congr rfl heq.symm]
      exact hqa

/-- The range of a path is all entries of related paths, in their order. -/
theorem entries_equalRange_path (hfilled : t.Filled FieldPathCompare Prod.fst entries)
    (hleaves : Leaves (entries.map Prod.fst)) (q : FieldPath) :
    t.entries (t.equalRange FieldPathCompare Prod.fst q) =
      t.toList.filter fun entry => Related entry.1 q := by
  rw [SearchTree.entries_equalRange (cutBy_path hfilled hleaves q)]
  refine List.filter_congr fun entry _ => ?_
  rw [Bool.eq_iff_iff, decide_eq_true_iff, ← not_comparable_iff, Search.Comparable, not_or,
    Bool.and_eq_true, Bool.not_eq_true', Bool.not_eq_true', ← Bool.not_eq_true,
    ← Bool.not_eq_true]

/-- **All entries are found**: those of which the path goes on from the path that is updated, or
is gone on from by it. -/
theorem equalRange_paths (hfilled : t.Filled FieldPathCompare Prod.fst entries)
    (hleaves : Leaves (entries.map Prod.fst)) (q : FieldPath) :
    (t.entries (t.equalRange FieldPathCompare Prod.fst q)).Perm
      (entries.filter fun entry => Related entry.1 q) := by
  rw [entries_equalRange_path hfilled hleaves q]
  exact hfilled.perm.filter _

/-- Two fields of a subunit, one of them in two indexes, are found by the path of the subunit. -/
theorem equalRange_paths_subunit :
    let field (id : Int) : FieldPathElement := ⟨id, "field", -1⟩
    let t := ((((SearchTree.leaf.insertEqual FieldPathCompare Prod.fst ([field 2], 0)).insertEqual
      FieldPathCompare Prod.fst ([field 1, field 5], 1)).insertEqual
      FieldPathCompare Prod.fst ([field 1, field 4], 2)).insertEqual
      FieldPathCompare Prod.fst ([field 1, field 5], 3))
    (t.entries (t.equalRange FieldPathCompare Prod.fst [field 1])).Perm
      [([field 1, field 5], 1), ([field 1, field 4], 2), ([field 1, field 5], 3)] := by
  intro field t
  have hfilled : t.Filled FieldPathCompare Prod.fst
      [([field 2], 0), ([field 1, field 5], 1), ([field 1, field 4], 2), ([field 1, field 5], 3)] :=
    .insert (.insert (.insert (.insert .empty rfl) rfl) rfl) rfl
  exact equalRange_paths hfilled (by decide) [field 1]

/-- The handlers that a request calls are those of the related paths. -/
theorem mem_updatingKeys (hfilled : t.Filled FieldPathCompare Prod.fst entries)
    (hleaves : Leaves (entries.map Prod.fst)) (request : List FieldPath) (v : ν) :
    v ∈ updatingKeys t request false ↔
      ∃ path ∈ request, ∃ entry ∈ entries, Related entry.1 path ∧ entry.2 = v := by
  rw [updatingKeys, List.mem_flatMap]
  refine exists_congr fun path => and_congr_right fun _ => ?_
  rw [if_neg Bool.false_ne_true, entries_equalRange_path hfilled hleaves path, List.mem_map]
  refine exists_congr fun entry => ?_
  rw [List.mem_filter, decide_eq_true_iff, hfilled.perm.mem_iff, and_assoc]

end Hatn.Db
