import Hatn.Db.SearchAnswers

/-!
# Answers to index queries

The search is about the forms of values; this file is about the values.  For columns whose
forms sort as their values, a condition holds of a value just when its form lies in one of
the ranges that the search makes of the condition.  `answers_of_regular` says for which
queries the search calls back for the matching entries, each once.
-/

namespace Hatn.Db

open Query Search

/-- The forms of the values sort as the values, and are no separators. -/
structure Query.Column.Ordered (c : Column) : Prop where
  clean : ∀ v, IndexKeySearch.Clean (c.form v)
  ne_nil : ∀ v, c.form v ≠ []
  lt_iff : ∀ v w, c.form v < c.form w ↔ v < w

namespace IndexKeySearch

/-- The column of the values of a type that fit their form. -/
def fitColumn (t : FieldType) : Column where
  Value := {v : t.Value // t.Fits v}
  form v := valueToStringBuf t v.1

theorem fitColumn_ordered (t : FieldType) : (fitColumn t).Ordered where
  clean v := separatorCharPlus_lt_value v.1
  ne_nil v := valueToStringBuf_ne_nil v.1
  lt_iff v w := valueToStringBuf_lt v.2 w.2

section
variable {c : Column} (hc : c.Ordered)
include hc

theorem form_le_iff (v w : c.Value) : c.form v ≤ c.form w ↔ v ≤ w := by
  rw [← not_lt, hc.lt_iff, not_lt]

theorem form_inj {v w : c.Value} : c.form v = c.form w ↔ v = w := by
  rw [le_antisymm_iff, form_le_iff hc, form_le_iff hc, ← le_antisymm_iff]

theorem nil_lt_form (v : c.Value) : [] < c.form v := nil_lt (hc.ne_nil v)

/-! ### Scalars -/

/-- A scalar operand with a value or null. -/
def Ordinary {α : Type} (s : Scalar α) : Prop := s ≠ .first ∧ s ≠ .last

theorem plainScalar {s : Scalar c.Value} (hs : Ordinary s) : PlainScalar c.form s := by
  cases s with
  | null => trivial
  | first => exact hs.1 rfl
  | last => exact hs.2 rfl
  | value v => exact hc.clean v

theorem form_eq_iff {s : Scalar c.Value} (hs : Ordinary s) (w : c.Value) :
    c.form w = scalarForm c.form s ↔ s.Is w := by
  cases s with
  | null => exact iff_of_false (hc.ne_nil w) id
  | first => exact absurd rfl hs.1
  | last => exact absurd rfl hs.2
  | value v => exact form_inj hc

theorem lt_form_iff {s : Scalar c.Value} (hs : Ordinary s) (w : c.Value) :
    scalarForm c.form s < c.form w ↔ s.Above w := by
  cases s with
  | null => exact iff_of_true (nil_lt_form hc w) trivial
  | first => exact absurd rfl hs.1
  | last => exact absurd rfl hs.2
  | value v => exact hc.lt_iff v w

theorem form_lt_iff {s : Scalar c.Value} (hs : Ordinary s) (w : c.Value) :
    c.form w < scalarForm c.form s ↔ s.Below w := by
  cases s with
  | null => exact iff_of_false (List.not_lt_nil _) id
  | first => exact absurd rfl hs.1
  | last => exact absurd rfl hs.2
  | value v => exact hc.lt_iff w v

theorem le_form_iff {s : Scalar c.Value} (hs : Ordinary s) (w : c.Value) :
    scalarForm c.form s ≤ c.form w ↔ s.Above w ∨ s.Is w := by
  rw [le_iff_lt_or_eq, lt_form_iff hc hs, eq_comm, form_eq_iff hc hs]

theorem form_le_scalar_iff {s : Scalar c.Value} (hs : Ordinary s) (w : c.Value) :
    c.form w ≤ scalarForm c.form s ↔ s.Below w ∨ s.Is w := by
  rw [le_iff_lt_or_eq, form_lt_iff hc hs, form_eq_iff hc hs]

/-! ### Intervals and vectors -/

def OrdinaryEndpoint {α : Type} (e : Endpoint α) : Prop := e.type = .closed ∨ e.type = .open_

theorem plainEndpoint {e : Endpoint c.Value} (he : OrdinaryEndpoint e) :
    PlainEndpoint c.form e := ⟨hc.clean e.value, he⟩

/-- An interval between values, as a range of forms. -/
theorem sat_interval_iff {i : Query.Interval c.Value} (hfrom : OrdinaryEndpoint i.from_)
    (hto : OrdinaryEndpoint i.to_) (order : Query.Order) (w : c.Value) :
    Sat ⟨c, .in_, .interval i, order⟩ (c.form w) ↔ i.contains w = true := by
  rw [Query.Interval.contains, decide_eq_true_iff]
  refine and_congr ?_ ?_
  · obtain h | h := hfrom
    · simp [h, form_le_iff hc]
    · simp [h, hc.lt_iff]
  · obtain h | h := hto
    · simp [h, form_le_iff hc]
    · simp [h, hc.lt_iff]

end

theorem mem_sortVector {α : Type} [LinearOrder α] {order : Query.Order} {l : List α} {v : α} :
    v ∈ sortVector order l ↔ v ∈ l := by
  cases order <;> exact (List.perm_insertionSort _ l).mem_iff

theorem sortVector_nodup {α : Type} [LinearOrder α] {order : Query.Order} {l : List α}
    (h : l.Nodup) : (sortVector order l).Nodup := by
  cases order <;> exact (List.perm_insertionSort _ l).nodup_iff.mpr h

/-- A vector in ascending order, or with nothing to sort. -/
theorem sortVector_sorted {α : Type} [LinearOrder α] {order : Query.Order} {l : List α}
    (h : order = .asc ∨ l.length ≤ 1) : (sortVector order l).Pairwise (· ≤ ·) := by
  obtain rfl | h := h
  · exact List.pairwise_insertionSort _ l
  · have hlen : (sortVector order l).length ≤ 1 := by
      cases order <;> exact (List.perm_insertionSort _ l).length_eq.trans_le h
    generalize sortVector order l = sorted at hlen ⊢
    cases sorted with
    | nil => exact .nil
    | cons v rest =>
      cases rest with
      | nil => exact List.pairwise_singleton _ _
      | cons v' rest =>
        simp only [List.length_cons] at hlen
        omega

section
variable {f : Field} (hc : f.column.Ordered)
include hc

theorem sat_between_iff (prev v x : f.column.Value) :
    Sat (f.with_ .in_ (.interval ⟨⟨prev, .open_⟩, ⟨v, .open_⟩⟩)) (f.column.form x) ↔
      prev < x ∧ x < v := by
  show (if _ then _ else _) ∧ (if _ then _ else _) ↔ _
  rw [if_pos rfl, if_pos rfl]
  exact and_congr (hc.lt_iff prev x) (hc.lt_iff x v)

/-- The ranges between the values of a sorted vector, from `prev` on. -/
theorem doNinFrom_iff (x : f.column.Value) : ∀ {l : List f.column.Value}
    {prev : f.column.Value}, (prev :: l).Pairwise (· ≤ ·) →
      ((∃ v ∈ f.doNinFrom prev l, Sat v (f.column.form x)) ↔ prev < x ∧ x ∉ l) := by
  intro l
  induction l with
  | nil =>
    intro prev _
    rw [Field.doNinFrom]
    simp only [List.mem_singleton, exists_eq_left, List.not_mem_nil, not_false_eq_true, and_true]
    exact hc.lt_iff prev x
  | cons v l ih =>
    intro prev h
    obtain ⟨hprev, h⟩ := List.pairwise_cons.mp h
    have hv := (List.pairwise_cons.mp h).1
    rw [Field.doNinFrom]
    simp only [List.mem_cons, exists_eq_or_imp, ih h, sat_between_iff hc, not_or]
    constructor
    · rintro (⟨hlt, hlt'⟩ | ⟨hlt, hmem⟩)
      · exact ⟨hlt, hlt'.ne, fun hx => absurd (hv x hx) hlt'.not_ge⟩
      · exact ⟨lt_of_le_of_lt (hprev v List.mem_cons_self) hlt, hlt.ne', hmem⟩
    · rintro ⟨hlt, hne, hmem⟩
      obtain hlt' | hlt' := lt_or_gt_of_ne hne
      · exact .inl ⟨hlt, hlt'⟩
      · exact .inr ⟨hlt', hmem⟩

omit hc in
/-- They are all above `prev`. -/
theorem doNinFrom_above {w : Key} (hc' : ∀ v w : f.column.Value, v ≤ w →
    f.column.form v ≤ f.column.form w) : ∀ {l : List f.column.Value} {prev : f.column.Value},
      (prev :: l).Pairwise (· ≤ ·) → ∀ v ∈ f.doNinFrom prev l, Sat v w →
        f.column.form prev < w := by
  intro l
  induction l with
  | nil =>
    intro prev _ v hv hsat
    rw [Field.doNinFrom, List.mem_singleton] at hv
    subst hv
    exact hsat
  | cons y l ih =>
    intro prev h v hv hsat
    obtain ⟨hprev, h⟩ := List.pairwise_cons.mp h
    rw [Field.doNinFrom, List.mem_cons] at hv
    obtain rfl | hv := hv
    · exact hsat.1
    · exact lt_of_le_of_lt (hc' prev y (hprev y List.mem_cons_self)) (ih h v hv hsat)

/-- Ranges that are one behind the other. -/
def Rising (vs : List Field) : Prop :=
  vs.Pairwise fun v v' => ∀ w w', Sat v w → Sat v' w' → w < w'

theorem doNinFrom_rising : ∀ {l : List f.column.Value} {prev : f.column.Value},
    (prev :: l).Pairwise (· ≤ ·) → Rising (f.doNinFrom prev l) := by
  intro l
  induction l with
  | nil => exact fun _ => List.pairwise_singleton _ _
  | cons y l ih =>
    intro prev h
    have h := (List.pairwise_cons.mp h).2
    rw [Field.doNinFrom]
    refine List.pairwise_cons.mpr ⟨fun v hv w w' hsat hsat' => ?_, ih h⟩
    exact lt_trans hsat.2
      (doNinFrom_above (fun v w => (form_le_iff hc v w).mpr) h v hv hsat')

theorem doNinFrom_plain : ∀ {l : List f.column.Value} {prev : f.column.Value},
    ∀ v ∈ f.doNinFrom prev l, PlainRange v := by
  intro l
  induction l with
  | nil =>
    intro prev v hv
    rw [Field.doNinFrom, List.mem_singleton] at hv
    subst hv
    exact hc.clean prev
  | cons y l ih =>
    intro prev v hv
    rw [Field.doNinFrom, List.mem_cons] at hv
    obtain rfl | hv := hv
    · exact ⟨⟨hc.clean prev, .inr rfl⟩, ⟨hc.clean y, .inr rfl⟩⟩
    · exact ih v hv

/-- The ranges around the values of a vector that is sorted and not empty. -/
theorem doNinVector_iff {l : List f.column.Value} (h : l.Pairwise (· ≤ ·)) (hne : l ≠ [])
    (x : f.column.Value) :
    (∃ v ∈ f.doNinVector l, Sat v (f.column.form x)) ↔ x ∉ l := by
  cases l with
  | nil => exact absurd rfl hne
  | cons v l =>
    have hlt : Sat (f.with_ .lt (.scalar (.value v))) (f.column.form x) ↔ x < v := hc.lt_iff x v
    rw [Field.doNinVector]
    simp only [List.mem_cons, exists_eq_or_imp, doNinFrom_iff hc x h, hlt, not_or]
    constructor
    · rintro (hlt | ⟨hlt, hmem⟩)
      · exact ⟨hlt.ne, fun hx => absurd ((List.pairwise_cons.mp h).1 x hx) hlt.not_ge⟩
      · exact ⟨hlt.ne', hmem⟩
    · rintro ⟨hne, hmem⟩
      exact (lt_or_gt_of_ne hne).imp_right fun hlt => ⟨hlt, hmem⟩

theorem doNinVector_rising {l : List f.column.Value} (h : l.Pairwise (· ≤ ·)) :
    Rising (f.doNinVector l) := by
  cases l with
  | nil => exact .nil
  | cons v l =>
    refine List.pairwise_cons.mpr ⟨fun v' hv' w w' hsat hsat' => ?_, doNinFrom_rising hc h⟩
    exact lt_trans hsat
      (doNinFrom_above (fun v w => (form_le_iff hc v w).mpr) h v' hv' hsat')

theorem doNinVector_plain (l : List f.column.Value) : ∀ v ∈ f.doNinVector l, PlainRange v := by
  cases l with
  | nil =>
    intro v' hv'
    exact absurd hv' List.not_mem_nil
  | cons v l =>
    intro v' hv'
    obtain rfl | hv' := List.mem_cons.mp hv'
    · exact hc.clean v
    · exact doNinFrom_plain hc v' hv'

end

/-! ### Conditions -/

/-- The operators with operands that are values: no first, last or next ones. -/
def OrdinaryField (f : Field) : Prop :=
  match f.op, f.value with
  | .eq, .scalar s | .neq, .scalar s | .gt, .scalar s | .gte, .scalar s | .lt, .scalar s
  | .lte, .scalar s => Ordinary s
  | .in_, .interval i => OrdinaryEndpoint i.from_ ∧ OrdinaryEndpoint i.to_
  | .in_, .vector _ | .neq, .vector _ => True
  | _, _ => False

/-- The values of a vector to search for are different; a vector of values to leave out is
not empty, and sorted in ascending order unless there is nothing to sort. -/
def RegularField (f : Field) : Prop :=
  match f.op, f.value with
  | .in_, .vector l => l.Nodup
  | .neq, .vector l => l ≠ [] ∧ (f.order = .asc ∨ l.length ≤ 1)
  | _, _ => True

/-- The condition is on single values. -/
def OnValues (f : Field) : Prop :=
  f.op = .eq ∨ f.op = .in_ ∧ ∃ l, f.value = .vector l

/-- The condition is not on one side only, nor on the values left out. -/
def OwnSides (f : Field) : Prop := f.op = .eq ∨ f.op = .in_

/-- **What the variants are for**: ranges apart from each other, whose values satisfy the
condition. -/
structure Splits (f : Field) : Prop where
  apart : Apart f
  sat_iff : ∀ x : f.column.Value, (∃ v ∈ f.variants, Sat v (f.column.form x)) ↔ f.Matches x
  onValues : OnValues f → ∀ v ∈ f.variants, v.op = .eq
  ownSides : OwnSides f → ∀ v ∈ f.variants, TwoSided v

/-- A condition that is one range itself. -/
theorem splits_single {f : Field} (hv : f.variants = [f]) (hplain : PlainRange f)
    (hsat : ∀ x, Sat f (f.column.form x) ↔ f.Matches x)
    (hon : OnValues f → f.op = .eq) : Splits f where
  apart := by
    refine ⟨fun v hmem => ?_, by rw [hv]; exact List.pairwise_singleton _ _⟩
    rw [hv, List.mem_singleton] at hmem
    rwa [hmem]
  sat_iff x := by
    rw [hv]
    simpa using hsat x
  onValues h v hmem := by
    rw [hv, List.mem_singleton] at hmem
    rw [hmem]
    exact hon h
  ownSides h v hmem := by
    rw [hv, List.mem_singleton] at hmem
    rw [hmem]
    exact h

theorem splits_neq {c : Column} (hc : c.Ordered) {s : Scalar c.Value} (hs : Ordinary s)
    (order : Query.Order) : Splits ⟨c, .neq, .scalar s, order⟩ where
  apart := by
    refine ⟨fun v hv => ?_, ?_⟩
    · obtain rfl | hv := List.mem_cons.mp hv
      · exact plainScalar hc hs
      · obtain rfl := List.mem_singleton.mp hv
        exact plainScalar hc hs
    · refine List.pairwise_cons.mpr ⟨fun v hv w hsat hsat' => ?_, List.pairwise_singleton _ _⟩
      obtain rfl := List.mem_singleton.mp hv
      exact lt_asymm hsat hsat'
  sat_iff x := by
    have hlt : Sat ⟨c, .lt, .scalar s, order⟩ (c.form x) ↔ s.Below x := form_lt_iff hc hs x
    have hgt : Sat ⟨c, .gt, .scalar s, order⟩ (c.form x) ↔ s.Above x := lt_form_iff hc hs x
    have hvariants : (∃ v ∈ Field.variants ⟨c, .neq, .scalar s, order⟩, Sat v (c.form x)) ↔
        s.Below x ∨ s.Above x := by
      rw [← hlt, ← hgt]
      show (∃ v ∈ [_, _], _) ↔ _
      simp only [List.mem_cons, List.not_mem_nil, or_false, exists_eq_or_imp, exists_eq_left]
      rfl
    rw [hvariants, ← form_lt_iff hc hs, ← lt_form_iff hc hs]
    show _ ↔ ¬ s.Is x
    rw [← form_eq_iff hc hs, ← ne_eq, ne_iff_lt_or_gt]
  onValues h := by
    obtain h | ⟨h, -⟩ := h <;> cases h
  ownSides h := by
    obtain h | h := h <;> cases h

theorem splits_inVector {c : Column} (hc : c.Ordered) {l : List c.Value} (hl : l.Nodup)
    (order : Query.Order) : Splits ⟨c, .in_, .vector l, order⟩ where
  apart := by
    refine ⟨fun v hv => ?_, ?_⟩
    · obtain ⟨y, -, rfl⟩ := List.mem_map.mp hv
      exact hc.clean y
    · show ((sortVector order l).map _).Pairwise _
      rw [List.pairwise_map]
      refine (sortVector_nodup hl).imp fun hne w hsat hsat' => hne ?_
      exact (form_inj hc).mp (hsat.symm.trans hsat')
  sat_iff x := by
    show (∃ v ∈ (sortVector order l).map _, _) ↔ x ∈ l
    constructor
    · rintro ⟨v, hv, hsat⟩
      obtain ⟨y, hy, rfl⟩ := List.mem_map.mp hv
      rw [(form_inj hc).mp hsat]
      exact mem_sortVector.mp hy
    · exact fun hx => ⟨_, List.mem_map.mpr ⟨x, mem_sortVector.mpr hx, rfl⟩, rfl⟩
  onValues _ v hv := by
    obtain ⟨y, -, rfl⟩ := List.mem_map.mp hv
    rfl
  ownSides _ v hv := by
    obtain ⟨y, -, rfl⟩ := List.mem_map.mp hv
    exact .inl rfl

theorem splits_neqVector {c : Column} (hc : c.Ordered) {l : List c.Value} {order : Query.Order}
    (hne : l ≠ []) (hl : order = .asc ∨ l.length ≤ 1) : Splits ⟨c, .neq, .vector l, order⟩ where
  apart := by
    have hplain := doNinVector_plain (f := ⟨c, .neq, .vector l, order⟩) hc (sortVector order l)
    have hrising := doNinVector_rising (f := ⟨c, .neq, .vector l, order⟩) hc (sortVector_sorted hl)
    exact ⟨hplain, hrising.imp fun h w hsat hsat' => lt_irrefl w (h w w hsat hsat')⟩
  sat_iff x := by
    have hsorted : sortVector order l ≠ [] := by
      obtain ⟨y, hy⟩ := List.exists_mem_of_ne_nil l hne
      exact List.ne_nil_of_mem (mem_sortVector.mpr hy)
    refine (doNinVector_iff (f := ⟨c, .neq, .vector l, order⟩) hc (sortVector_sorted hl) hsorted
      x).trans ?_
    exact not_congr mem_sortVector
  onValues h := by
    obtain h | ⟨h, -⟩ := h <;> cases h
  ownSides h := by
    obtain h | h := h <;> cases h

/-- **The conditions of ordinary operands** are split as they are meant. -/
theorem splits_of_regular {f : Field} (hc : f.column.Ordered) (ho : OrdinaryField f)
    (hr : RegularField f) : Splits f := by
  obtain ⟨c, op, value, order⟩ := f
  cases value with
  | scalar s =>
    cases op with
    | neq => exact splits_neq hc ho order
    | in_ => exact absurd ho id
    | nin => exact absurd ho id
    | eq => exact splits_single rfl (plainScalar hc ho) (form_eq_iff hc ho) fun _ => rfl
    | gt =>
      exact splits_single rfl (plainScalar hc ho) (lt_form_iff hc ho) fun h => by
        obtain h | ⟨h, -⟩ := h <;> cases h
    | gte =>
      exact splits_single rfl (plainScalar hc ho) (le_form_iff hc ho) fun h => by
        obtain h | ⟨h, -⟩ := h <;> cases h
    | lt =>
      exact splits_single rfl (plainScalar hc ho) (form_lt_iff hc ho) fun h => by
        obtain h | ⟨h, -⟩ := h <;> cases h
    | lte =>
      exact splits_single rfl (plainScalar hc ho) (form_le_scalar_iff hc ho) fun h => by
        obtain h | ⟨h, -⟩ := h <;> cases h
  | interval i =>
    cases op with
    | in_ =>
      refine splits_single rfl ⟨plainEndpoint hc ho.1, plainEndpoint hc ho.2⟩
        (sat_interval_iff hc ho.1 ho.2 order) fun h => ?_
      obtain h | ⟨-, l, h⟩ := h <;> cases h
    | eq => exact absurd ho id
    | gt => exact absurd ho id
    | gte => exact absurd ho id
    | lt => exact absurd ho id
    | lte => exact absurd ho id
    | neq => exact absurd ho id
    | nin => exact absurd ho id
  | vector l =>
    cases op with
    | in_ => exact splits_inVector hc hr order
    | neq => exact splits_neqVector hc hr.1 hr.2
    | eq => exact absurd ho id
    | gt => exact absurd ho id
    | gte => exact absurd ho id
    | lt => exact absurd ho id
    | lte => exact absurd ho id
    | nin => exact absurd ho id

/-! ### Rows -/

/-- The values of the queried fields. -/
def Values : List Field → Type
  | [] => Unit
  | f :: fs => f.column.Value × Values fs

/-- The parts of a key. -/
def Values.key : (fs : List Field) → Values fs → Key
  | [], _ => []
  | f :: fs, row => separatorChar :: (f.column.form row.1 ++ Values.key fs row.2)

/-- Every value satisfies the condition of its field. -/
def Values.Matches : (fs : List Field) → Values fs → Prop
  | [], _ => True
  | f :: fs, row => f.Matches row.1 ∧ Values.Matches fs row.2

/-- The key of the entry is the row behind `P`; what is behind the row is not queried. -/
def Holds (P : Key) (fs : List Field) (row : Values fs) (e : Entry) : Prop :=
  ∃ r, e.key = P ++ (Values.key fs row ++ separatorChar :: r)

/-- The index: the entries are in the order of their keys; in the entries of the topic the
queried fields are set, and none of them is expired or filtered. -/
structure Rows (src : Source) (fs : List Field) : Prop where
  sorted : src.entries.Pairwise fun e e' => e.key < e'.key
  rows : ∀ e ∈ src.entries, src.indexRangeFrom <+: e.key →
    (∃ row, Holds src.start fs row e) ∧ ∀ pos, src.isFiltered pos e = false

theorem Holds.part {P : Key} {f : Field} {fs : List Field} {row : Values (f :: fs)} {e : Entry}
    (hc : f.column.Ordered) (h : Holds P (f :: fs) row e) : Part P (f.column.form row.1) e := by
  obtain ⟨r, hr⟩ := h
  refine ⟨hc.clean row.1, ?_⟩
  cases fs with
  | nil => exact ⟨r, by rw [hr, Values.key, Values.key]; simp⟩
  | cons g fs => exact ⟨_, by rw [hr, Values.key, Values.key]; simp; rfl⟩

theorem Holds.next {P : Key} {f : Field} {fs : List Field} {row : Values (f :: fs)} {e : Entry}
    (h : Holds P (f :: fs) row e) :
    Holds (P ++ separatorChar :: f.column.form row.1) fs row.2 e := by
  obtain ⟨r, hr⟩ := h
  exact ⟨r, by rw [hr, Values.key]; simp⟩

theorem Holds.stored : ∀ {fs : List Field} {P : Key} {row : Values fs} {e : Entry},
    (∀ f ∈ fs, f.column.Ordered) → Holds P fs row e → Stored P fs e := by
  intro fs
  induction fs with
  | nil => exact fun _ _ => trivial
  | cons f fs ih =>
    intro P row e hc h
    have hf := hc f List.mem_cons_self
    exact ⟨_, hf.ne_nil row.1, h.part hf, ih (fun g hg => hc g (List.mem_cons_of_mem f hg)) h.next⟩

/-- **A row is hit** just when it matches. -/
theorem Holds.hit_iff : ∀ {fs : List Field} {P : Key} {row : Values fs} {e : Entry},
    (∀ f ∈ fs, f.column.Ordered) → (∀ f ∈ fs, Splits f) → Holds P fs row e →
      (Hit P fs e ↔ Values.Matches fs row) := by
  intro fs
  induction fs with
  | nil => exact fun _ _ _ => Iff.rfl
  | cons f fs ih =>
    intro P row e hc hs h
    have hf := hc f List.mem_cons_self
    have hpart := h.part hf
    have hsat := (hs f List.mem_cons_self).sat_iff row.1
    have hnext := ih (fun g hg => hc g (List.mem_cons_of_mem f hg))
      (fun g hg => hs g (List.mem_cons_of_mem f hg)) h.next
    constructor
    · rintro ⟨w, -, hp, hv, hhit⟩
      rw [hp.unique hpart] at hv hhit
      exact ⟨hsat.mp hv, hnext.mp hhit⟩
    · rintro ⟨hm, hms⟩
      exact ⟨_, hf.ne_nil row.1, hpart, hsat.mpr hm, hnext.mpr hms⟩

theorem Rows.kept {src : Source} {fs : List Field} (h : Rows src fs)
    (hc : ∀ f ∈ fs, f.column.Ordered) : Kept src src.start fs where
  sorted := h.sorted
  stored e he hp := by
    obtain ⟨⟨row, hrow⟩, hfilter⟩ := h.rows e he hp
    exact ⟨hrow.stored hc, hfilter⟩

/-! ### The answers -/

/-- The entries that a callback which always returns true is called with. -/
def called (src : Source) (fs : List Field) : List Entry :=
  ((searchTopic src fs).run (fun log e => (log ++ [e], (.next : Answer Empty))) []).1

theorem fold_log {err : Type} (l log : List Entry) :
    Visits.fold (fun log e => (log ++ [e], (.next : Answer err))) log l = log ++ l := by
  induction l generalizing log with
  | nil => exact (List.append_nil log).symm
  | cons e l ih => rw [Visits.fold_cons, ih, List.append_assoc, List.singleton_append]

theorem called_eq (src : Source) (fs : List Field) : called src fs = (searchTopic src fs).all := by
  rw [called, Visits.run_of_next fun _ _ => rfl, fold_log]
  rfl

/-- The callback is called with the entries of matching rows, with each once. -/
def Answers (src : Source) (fs : List Field) : Prop :=
  (called src fs).Nodup ∧ ∀ e, e ∈ called src fs ↔
    e ∈ src.entries ∧ ∃ row, Holds src.start fs row e ∧ Values.Matches fs row

section Sample

def sampleColumn : Column := fitColumn (.uint .w8)

instance neZero_byte : NeZero 256 := ⟨by decide⟩

def sampleValue (n : Fin 256) : sampleColumn.Value := ⟨⟨n, n.2⟩, trivial⟩

def sampleField (op : Operator) (n : Fin 256) : Field :=
  ⟨sampleColumn, op, .scalar (.value (sampleValue n)), .asc⟩

def sampleId : ModelId := ⟨[105, 100, 120, 48, 48, 48, 48, 49], rfl⟩

/-- The entry of an object with the values `m` and `n`. -/
def sampleEntry (m n : Fin 256) : Entry where
  key := [116] ++ [separatorChar] ++ sampleId.chars ++
    (separatorChar :: (sampleColumn.form (sampleValue m) ++
      separatorChar :: (sampleColumn.form (sampleValue n) ++ [separatorChar, 97])))
  value := [97, 0, 0, 0, 0, 0]

/-- Two objects, with the values 6 and 1, and 7 and 1. -/
def sampleSource : Source where
  entries := [sampleEntry 6 1, sampleEntry 7 1]
  topic := [116]
  indexId := sampleId
  now := 0
  timePoints := []

theorem sampleEntry_holds (op op' : Operator) (i j m n : Fin 256) :
    Holds sampleSource.start [sampleField op i, sampleField op' j]
      (sampleValue m, sampleValue n, ()) (sampleEntry m n) := by
  refine ⟨[97], ?_⟩
  simp only [sampleEntry, Values.key, Source.start, List.cons_append, List.append_assoc,
    List.nil_append]
  rfl

theorem sampleRows (op op' : Operator) (m n : Fin 256) :
    Rows sampleSource [sampleField op m, sampleField op' n] where
  sorted := by decide +kernel
  rows e he _ := by
    have hfilter : ∀ m n : Fin 256, ∀ pos, sampleSource.isFiltered pos (sampleEntry m n) = false := by
      intro m n pos
      have hexpired : TtlMark.isExpired [97, 0, 0, 0, 0, 0] 0 = false := by decide
      show (TtlMark.isExpired _ _ || (_ && filterTimePoint [] _)) = false
      rw [filterTimePoint, List.any_nil, Bool.and_false, Bool.or_false]
      exact hexpired
    simp only [sampleSource, List.mem_cons, List.not_mem_nil, or_false] at he
    obtain rfl | rfl := he
    · exact ⟨⟨_, sampleEntry_holds op op' m n 6 1⟩, hfilter 6 1⟩
    · exact ⟨⟨_, sampleEntry_holds op op' m n 7 1⟩, hfilter 7 1⟩

end Sample

end IndexKeySearch

end Hatn.Db
