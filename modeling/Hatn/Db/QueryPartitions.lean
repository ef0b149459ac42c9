import Hatn.Common.DateRanges
import Hatn.Db.QueryAnswers
import Hatn.Order.Cuts

/-!
# The partitions of a query

The objects of a model with a partition field are kept in partitions, one for each range of
dates.  A query with a condition on that field is run in the partitions that `queryPartitions`
selects.  The partitions are in the order of their ranges, and each kind of a condition cuts out
a part of them (`Cut`).

`complete_iff` says when every existing partition with a date that satisfies the condition is
selected.  What is behind all partitions is the exception for conditions from above: with no
partition at or behind the operand nothing is selected at all.
-/

namespace Hatn.Db

open Query Common
open Common.DateRange (RangeType)

/-! ### Queries -/

/-- A value that a partition field is compared with: a date, also that of a date and time or of
an object id, or a range of dates. -/
inductive PartitionValue
  | date (d : CalendarDate)
  | range (r : DateRange)

/-- `toDateRange` -/
def toDateRange (mode : RangeType) : PartitionValue → DateRange
  | .date d => .ofDate d mode
  | .range r => r

/-- `checkOperator` -/
def checkOperator {α : Type} (op : Operator) : Operand α → Bool
  | .vector _ => op = .in_ ∨ op = .nin ∨ op = .neq
  | .scalar .first => op = .gte ∨ op = .eq
  | .scalar .last => op = .lte ∨ op = .eq
  | .scalar .null => op = .eq ∨ op = .neq
  | .scalar (.value _) => op ≠ .in_ ∧ op ≠ .nin
  | .interval _ => op = .in_ ∨ op = .nin

/-- A condition on the partition field. -/
structure PartitionQuery where
  op : Operator
  value : Operand PartitionValue
  order : Query.Order
  checked : checkOperator op value = true

/-- The existing partitions, in the order of their ranges. -/
structure Partitions where
  ranges : List DateRange
  sorted : ranges.Pairwise (· < ·)

namespace Partitions

/-- What is at `lower_bound` and behind it. -/
def lowerBound (ps : Partitions) (range : DateRange) : List DateRange :=
  ps.ranges.dropWhile (· < range)

/-- What is before `lower_bound`. -/
def before (ps : Partitions) (range : DateRange) : List DateRange :=
  ps.ranges.takeWhile (· < range)

/-- `rawInsert` of new partitions and `endRawInsert`, which sorts. -/
def rawInsert (order : Query.Order) (found new : List DateRange) : List DateRange :=
  sortVector order (found ++ new)

/-- `insert` of a partition that may be there already. -/
def insert (order : Query.Order) (found : List DateRange) (p : DateRange) : List DateRange :=
  if p ∈ found then found else sortVector order (p :: found)

/-- `handleRange`; there is no result where an assertion fails. -/
def handleRange (ps : Partitions) (order : Query.Order) (range : DateRange) (op : Operator)
    (found : List DateRange) : Option (List DateRange) :=
  match op with
  | .gt | .gte => some (rawInsert order found (ps.lowerBound range))
  | .lt | .lte =>
    match ps.lowerBound range with
    | [] => some found
    | p :: _ => some (rawInsert order found (ps.before range ++ [p]))
  | .eq => some (if range ∈ ps.ranges then insert order found range else found)
  | _ => none

def allPartitions (ps : Partitions) (order : Query.Order) : List DateRange :=
  rawInsert order [] ps.ranges

/-- `handleInterval`: it does not look at the operator. -/
def handleInterval (ps : Partitions) (mode : RangeType) (order : Query.Order)
    (iv : Query.Interval PartitionValue) : Option (List DateRange) :=
  if iv.from_.type = .first ∧ iv.to_.type = .last then some (ps.allPartitions order)
  else if iv.from_.type = .first then
    ps.handleRange order (toDateRange mode iv.to_.value) .lte []
  else if iv.to_.type = .last then
    ps.handleRange order (toDateRange mode iv.from_.value) .gte []
  else
    let rangeTo := toDateRange mode iv.to_.value
    some (rawInsert order []
      ((ps.lowerBound (toDateRange mode iv.from_.value)).takeWhile fun p => ¬ rangeTo < p))

/-- `partitionFieldVisitor` -/
def visit (ps : Partitions) (mode : RangeType) (q : PartitionQuery) : Option (List DateRange) :=
  match q.value with
  | .vector vec =>
    let op := if q.op = .in_ then .eq else q.op
    vec.foldlM (fun found v => ps.handleRange q.order (toDateRange mode v) op found) []
  | .interval iv => ps.handleInterval mode q.order iv
  | .scalar .last =>
    if q.op = .lt ∨ q.op = .lte then some (ps.allPartitions q.order) else none
  | .scalar .first =>
    if q.op = .gt ∨ q.op = .gte then some (ps.allPartitions q.order) else none
  | .scalar .null => none
  | .scalar (.value v) => ps.handleRange q.order (toDateRange mode v) q.op []

/-- `queryPartitions`; without a condition these are all partitions. -/
def queryPartitions (ps : Partitions) (mode : RangeType) :
    Option PartitionQuery → Option (List DateRange)
  | none => some ps.ranges
  | some q => ps.visit mode q

end Partitions

/-! ### What a condition means -/

/-- The date compared with the operand; a range is compared with the range of its own type that
the date is in. -/
def PartitionValue.cmp (d : CalendarDate) : PartitionValue → Option Ordering
  | .date v => some (compare d.date.toNumber v.date.toNumber)
  | .range r => r.type?.map fun type => compare (DateRange.ofDate d type) r

def PartitionValue.Is (v : PartitionValue) (d : CalendarDate) : Prop := v.cmp d = some .eq

/-- The date is behind the operand. -/
def PartitionValue.Above (v : PartitionValue) (d : CalendarDate) : Prop := v.cmp d = some .gt

def PartitionValue.Below (v : PartitionValue) (d : CalendarDate) : Prop := v.cmp d = some .lt

/-- The date is in the interval. -/
def InInterval (iv : Query.Interval PartitionValue) (d : CalendarDate) : Prop :=
  (iv.from_.type = .first ∨ iv.from_.type = .open_ ∧ iv.from_.value.Above d ∨
    iv.from_.type = .closed ∧ (iv.from_.value.Above d ∨ iv.from_.value.Is d)) ∧
  (iv.to_.type = .last ∨ iv.to_.type = .open_ ∧ iv.to_.value.Below d ∨
    iv.to_.type = .closed ∧ (iv.to_.value.Below d ∨ iv.to_.value.Is d))

/-- The date satisfies the condition. -/
def PartitionQuery.Satisfies (q : PartitionQuery) (d : CalendarDate) : Prop :=
  match q.op, q.value with
  | .eq, .scalar (.value v) => v.Is d
  | .gt, .scalar (.value v) => v.Above d
  | .gte, .scalar (.value v) => v.Above d ∨ v.Is d
  | .lt, .scalar (.value v) => v.Below d
  | .lte, .scalar (.value v) => v.Below d ∨ v.Is d
  | .neq, .scalar (.value v) => ¬ v.Is d
  | .gte, .scalar .first => True
  | .lte, .scalar .last => True
  | .neq, .scalar .null => True
  | .in_, .interval iv => InInterval iv d
  | .nin, .interval iv => ¬ InInterval iv d
  | .in_, .vector vec => ∃ v ∈ vec, v.Is d
  | .nin, .vector vec => ¬ ∃ v ∈ vec, v.Is d
  | .neq, .vector vec => ¬ ∃ v ∈ vec, v.Is d
  | _, _ => False

/-- `datePartition`: the partition of an object with the date. -/
def datePartition (mode : RangeType) (d : CalendarDate) : DateRange := .ofDate d mode

namespace Partitions

/-- An existing partition may hold an object with the date, and the date satisfies the
condition. -/
def Holds (ps : Partitions) (mode : RangeType) (q : PartitionQuery) (d : CalendarDate) : Prop :=
  datePartition mode d ∈ ps.ranges ∧ q.Satisfies d

/-- **Nothing is lost**: the existing partitions of all dates that satisfy the condition are
selected. -/
def Complete (ps : Partitions) (mode : RangeType) (q : PartitionQuery) : Prop :=
  ∃ selected, ps.queryPartitions mode (some q) = some selected ∧
    ∀ d, ps.Holds mode q d → datePartition mode d ∈ selected

end Partitions

/-! ### What is selected -/

/-- The part of the partitions that a condition cuts out. -/
inductive Cut
  | all
  | from_ (range : DateRange)
  | upTo (range : DateRange)
  | between (rangeFrom rangeTo : DateRange)
  | among (ranges : List DateRange)

/-- The cut of a condition; there is none where an assertion fails. -/
def PartitionQuery.cut (mode : RangeType) (q : PartitionQuery) : Option Cut :=
  match q.value, q.op with
  | .scalar .first, .gte => some .all
  | .scalar .last, .lte => some .all
  | .scalar (.value v), .eq => some (.among [toDateRange mode v])
  | .scalar (.value v), .gt => some (.from_ (toDateRange mode v))
  | .scalar (.value v), .gte => some (.from_ (toDateRange mode v))
  | .scalar (.value v), .lt => some (.upTo (toDateRange mode v))
  | .scalar (.value v), .lte => some (.upTo (toDateRange mode v))
  | .interval iv, _ =>
    if iv.from_.type = .first ∧ iv.to_.type = .last then some .all
    else if iv.from_.type = .first then some (.upTo (toDateRange mode iv.to_.value))
    else if iv.to_.type = .last then some (.from_ (toDateRange mode iv.from_.value))
    else some (.between (toDateRange mode iv.from_.value) (toDateRange mode iv.to_.value))
  | .vector vec, .in_ => some (.among (vec.map (toDateRange mode)))
  | .vector [], _ => some (.among [])
  | _, _ => none

namespace Cut

/-- The partition is in the cut.  A cut from above goes up to the first partition that is not
before the range. -/
def Covers (ps : Partitions) (p : DateRange) : Cut → Prop
  | .all => True
  | .from_ range => range ≤ p
  | .upTo range => ∀ p' ∈ ps.ranges, range ≤ p' → p ≤ p'
  | .between rangeFrom rangeTo => rangeFrom ≤ p ∧ p ≤ rangeTo
  | .among ranges => p ∈ ranges

/-- A cut from above needs a partition that is not before the range. -/
def Ends (ps : Partitions) : Cut → Prop
  | .upTo range => ∃ p ∈ ps.ranges, range ≤ p
  | _ => True

end Cut

namespace Partitions

variable {ps : Partitions} {mode : RangeType} {order : Query.Order} {range p : DateRange}

theorem mem_rawInsert_iff {found new : List DateRange} :
    p ∈ rawInsert order found new ↔ p ∈ found ∨ p ∈ new := by
  rw [rawInsert, IndexKeySearch.mem_sortVector, List.mem_append]

theorem mem_insert_iff {found : List DateRange} {p' : DateRange} :
    p' ∈ insert order found p ↔ p' = p ∨ p' ∈ found := by
  rw [insert]
  split
  · next h =>
    rw [or_iff_right_of_imp]
    rintro rfl
    exact h
  · rw [IndexKeySearch.mem_sortVector, List.mem_cons]

theorem mem_lowerBound_iff : p ∈ ps.lowerBound range ↔ p ∈ ps.ranges ∧ range ≤ p :=
  Order.mem_dropWhile_lt_iff ps.sorted

/-- What is selected of a cut. -/
def Selects (ps : Partitions) (c : Cut) (selected : List DateRange) : Prop :=
  ∀ p, p ∈ selected ↔ p ∈ ps.ranges ∧ c.Covers ps p ∧ c.Ends ps

theorem selects_all : ps.Selects .all (ps.allPartitions order) := by
  intro p
  rw [allPartitions, mem_rawInsert_iff]
  simp only [List.not_mem_nil, false_or, Cut.Covers, Cut.Ends, and_true]

theorem selects_from {op : Operator} (hop : op = .gt ∨ op = .gte) :
    ∃ selected, ps.handleRange order range op [] = some selected ∧
      ps.Selects (.from_ range) selected := by
  refine ⟨rawInsert order [] (ps.lowerBound range), by obtain rfl | rfl := hop <;> rfl, fun p => ?_⟩
  rw [mem_rawInsert_iff, mem_lowerBound_iff]
  simp only [List.not_mem_nil, false_or, Cut.Covers, Cut.Ends, and_true]

/-- A cut from above: all partitions before the bound, and the one at it. -/
theorem selects_upTo {op : Operator} (hop : op = .lt ∨ op = .lte) :
    ∃ selected, ps.handleRange order range op [] = some selected ∧
      ps.Selects (.upTo range) selected := by
  have hrange : ps.handleRange order range op [] = match ps.lowerBound range with
      | [] => some []
      | p :: _ => some (rawInsert order [] (ps.before range ++ [p])) := by
    obtain rfl | rfl := hop <;> rfl
  rw [hrange]
  cases hbound : ps.lowerBound range with
  | nil =>
    refine ⟨[], rfl, fun p => iff_of_false List.not_mem_nil ?_⟩
    rintro ⟨-, -, p', hp', hle⟩
    have hmem := mem_lowerBound_iff.mpr ⟨hp', hle⟩
    rw [hbound] at hmem
    exact List.not_mem_nil hmem
  | cons first rest =>
    obtain ⟨hfirst, hle, hleast⟩ := Order.dropWhile_lt_eq_cons ps.sorted hbound
    refine ⟨_, rfl, fun p => ?_⟩
    rw [mem_rawInsert_iff, List.mem_append, List.mem_singleton, before,
      Order.mem_takeWhile_lt_iff ps.sorted]
    constructor
    · rintro (h | ⟨hp, hlt⟩ | rfl)
      · cases h
      · exact ⟨hp, fun p' _ hle' => le_of_lt (lt_of_lt_of_le hlt hle'), first, hfirst, hle⟩
      · exact ⟨hfirst, hleast, p, hfirst, hle⟩
    · rintro ⟨hp, hcovers, -⟩
      obtain hlt | hge := lt_or_ge p range
      · exact .inr (.inl ⟨hp, hlt⟩)
      · exact .inr (.inr (le_antisymm (hcovers first hfirst hle) (hleast p hp hge)))

variable (ps order) in
/-- Partitions for single ranges. -/
theorem selects_among {α : Type} (f : α → DateRange) (vec : List α) :
    ∀ found : List DateRange, ∃ selected,
      vec.foldlM (fun found v => ps.handleRange order (f v) .eq found) found = some selected ∧
        ∀ p, p ∈ selected ↔ p ∈ found ∨ p ∈ ps.ranges ∧ p ∈ vec.map f := by
  induction vec with
  | nil => exact fun found => ⟨found, rfl, fun p => by simp⟩
  | cons v vec ih =>
    intro found
    obtain ⟨selected, hselected, hmem⟩ :=
      ih (if f v ∈ ps.ranges then insert order found (f v) else found)
    refine ⟨selected, hselected, fun p => (hmem p).trans ?_⟩
    rw [List.map_cons, List.mem_cons]
    split
    · next h =>
      rw [mem_insert_iff]
      constructor
      · rintro ((rfl | hp) | ⟨hp, hv⟩)
        · exact .inr ⟨h, .inl rfl⟩
        · exact .inl hp
        · exact .inr ⟨hp, .inr hv⟩
      · rintro (hp | ⟨hp, rfl | hv⟩)
        · exact .inl (.inr hp)
        · exact .inl (.inl rfl)
        · exact .inr ⟨hp, hv⟩
    · next h =>
      constructor
      · rintro (hp | ⟨hp, hv⟩)
        · exact .inl hp
        · exact .inr ⟨hp, .inr hv⟩
      · rintro (hp | ⟨hp, rfl | hv⟩)
        · exact .inl hp
        · exact absurd hp h
        · exact .inr ⟨hp, hv⟩

variable (ps mode order) in
theorem selects_interval (iv : Query.Interval PartitionValue) (q : PartitionQuery)
    (hq : q.value = .interval iv) : ∃ c, q.cut mode = some c ∧
      ∃ selected, ps.handleInterval mode order iv = some selected ∧ ps.Selects c selected := by
  obtain ⟨op, value, order', hchecked⟩ := q
  obtain rfl : value = .interval iv := hq
  have hcut : PartitionQuery.cut mode ⟨op, .interval iv, order', hchecked⟩ =
      if iv.from_.type = .first ∧ iv.to_.type = .last then some .all
      else if iv.from_.type = .first then some (.upTo (toDateRange mode iv.to_.value))
      else if iv.to_.type = .last then some (.from_ (toDateRange mode iv.from_.value))
      else some (.between (toDateRange mode iv.from_.value) (toDateRange mode iv.to_.value)) := by
    cases op <;> rfl
  rw [hcut, handleInterval]
  split
  · exact ⟨_, rfl, _, rfl, selects_all⟩
  split
  · exact ⟨_, rfl, selects_upTo (.inr rfl)⟩
  split
  · exact ⟨_, rfl, selects_from (.inr rfl)⟩
  refine ⟨_, rfl, _, rfl, fun p => ?_⟩
  have hsorted : (ps.lowerBound (toDateRange mode iv.from_.value)).Pairwise (· < ·) :=
    ps.sorted.sublist (List.dropWhile_sublist _)
  rw [mem_rawInsert_iff, Order.mem_takeWhile_not_lt_iff hsorted, mem_lowerBound_iff]
  simp only [List.not_mem_nil, false_or, Cut.Covers, Cut.Ends, and_true, and_assoc]

variable (ps mode) in
/-- **What a condition selects** is its cut; where there is none, an assertion fails. -/
theorem visit_spec (q : PartitionQuery) :
    (∃ c, q.cut mode = some c ∧ ∃ selected, ps.visit mode q = some selected ∧
      ps.Selects c selected) ∨ q.cut mode = none ∧ ps.visit mode q = none := by
  obtain ⟨op, value, order, hchecked⟩ := q
  cases value with
  | scalar s =>
    cases s with
    | null =>
      cases op with
      | eq => exact .inr ⟨rfl, rfl⟩
      | neq => exact .inr ⟨rfl, rfl⟩
      | _ => cases hchecked
    | first =>
      cases op with
      | gte => exact .inl ⟨.all, rfl, _, rfl, selects_all⟩
      | eq => exact .inr ⟨rfl, rfl⟩
      | _ => cases hchecked
    | last =>
      cases op with
      | lte => exact .inl ⟨.all, rfl, _, rfl, selects_all⟩
      | eq => exact .inr ⟨rfl, rfl⟩
      | _ => cases hchecked
    | value v =>
      cases op with
      | gt => exact .inl ⟨_, rfl, selects_from (.inl rfl)⟩
      | gte => exact .inl ⟨_, rfl, selects_from (.inr rfl)⟩
      | lt => exact .inl ⟨_, rfl, selects_upTo (.inl rfl)⟩
      | lte => exact .inl ⟨_, rfl, selects_upTo (.inr rfl)⟩
      | eq =>
        refine .inl ⟨_, rfl, _, rfl, fun p => ?_⟩
        split
        · next h =>
          rw [mem_insert_iff]
          simp only [List.not_mem_nil, or_false, Cut.Covers, Cut.Ends, List.mem_singleton, and_true]
          refine ⟨?_, fun h => h.2⟩
          rintro rfl
          exact ⟨h, rfl⟩
        · next h =>
          refine iff_of_false List.not_mem_nil ?_
          rintro ⟨hp, heq, -⟩
          exact h (List.mem_singleton.mp heq ▸ hp)
      | neq => exact .inr ⟨rfl, rfl⟩
      | _ => cases hchecked
  | interval iv =>
    obtain ⟨c, hcut, hselected⟩ := selects_interval ps mode order iv
      ⟨op, .interval iv, order, hchecked⟩ rfl
    exact .inl ⟨c, hcut, hselected⟩
  | vector vec =>
    cases op with
    | in_ =>
      obtain ⟨selected, hselected, hmem⟩ :=
        selects_among ps order (toDateRange mode) vec []
      refine .inl ⟨_, rfl, selected, hselected, fun p => (hmem p).trans ?_⟩
      simp only [List.not_mem_nil, false_or, Cut.Covers, Cut.Ends, and_true]
    | neq =>
      cases vec with
      | nil =>
        refine .inl ⟨_, rfl, _, rfl, fun p => iff_of_false List.not_mem_nil fun h => ?_⟩
        exact List.not_mem_nil h.2.1
      | cons v vec => exact .inr ⟨rfl, rfl⟩
    | nin =>
      cases vec with
      | nil =>
        refine .inl ⟨_, rfl, _, rfl, fun p => iff_of_false List.not_mem_nil fun h => ?_⟩
        exact List.not_mem_nil h.2.1
      | cons v vec => exact .inr ⟨rfl, rfl⟩
    | _ => cases hchecked

/-! ### What is lost -/

/-- **When nothing is lost**: the condition has a cut, the partitions of all dates that satisfy
it are in the cut, and a cut from above has its end among the partitions unless no partition
holds such a date. -/
theorem complete_iff (ps : Partitions) (mode : RangeType) (q : PartitionQuery) :
    ps.Complete mode q ↔ ∃ c, q.cut mode = some c ∧
      (∀ d, ps.Holds mode q d → c.Covers ps (datePartition mode d)) ∧
        ((∃ d, ps.Holds mode q d) → c.Ends ps) := by
  obtain ⟨c, hcut, selected, hselected, hmem⟩ | ⟨hcut, hnone⟩ := ps.visit_spec mode q
  · constructor
    · rintro ⟨selected', hselected', hall⟩
      obtain rfl : selected' = selected := Option.some.inj (hselected'.symm.trans hselected)
      exact ⟨c, hcut, fun d hd => ((hmem _).mp (hall d hd)).2.1,
        fun ⟨d, hd⟩ => ((hmem _).mp (hall d hd)).2.2⟩
    · rintro ⟨c', hcut', hcovers, hends⟩
      obtain rfl : c' = c := Option.some.inj (hcut'.symm.trans hcut)
      exact ⟨selected, hselected, fun d hd => (hmem _).mpr ⟨hd.1, hcovers d hd, hends ⟨d, hd⟩⟩⟩
  · constructor
    · rintro ⟨selected, hselected, -⟩
      exact absurd (hselected.symm.trans hnone) (Option.some_ne_none selected)
    · rintro ⟨c, hcut', -⟩
      exact absurd (hcut'.symm.trans hcut) (Option.some_ne_none c)

end Partitions

/-! ### Conditions of the model's own ranges -/

/-- A range of dates is of the type that the partitions have. -/
def PartitionValue.OfMode (mode : RangeType) : PartitionValue → Prop
  | .date _ => True
  | .range r => r.type? = some mode

/-- The ranges of the condition are of the type that the partitions have. -/
def PartitionQuery.OfMode (mode : RangeType) (q : PartitionQuery) : Prop :=
  match q.value with
  | .scalar (.value v) => v.OfMode mode
  | .scalar _ => True
  | .interval iv => (iv.from_.type = .first ∨ iv.from_.value.OfMode mode) ∧
    (iv.to_.type = .last ∨ iv.to_.value.OfMode mode)
  | .vector vec => ∀ v ∈ vec, v.OfMode mode

section
variable {mode : RangeType} {v : PartitionValue} {d : CalendarDate}

theorem PartitionValue.Is.partition (h : v.Is d) (hv : v.OfMode mode) :
    datePartition mode d = toDateRange mode v := by
  cases v with
  | date d' =>
    have hdate := Date.toNumber_inj (compare_eq_iff_eq.mp (Option.some.inj h))
    obtain ⟨date, haccepted⟩ := d
    obtain ⟨date', haccepted'⟩ := d'
    obtain rfl : date = date' := hdate
    rfl
  | range r =>
    rw [Is, cmp, show r.type? = some mode from hv] at h
    exact compare_eq_iff_eq.mp (Option.some.inj h)

/-- A date behind the operand is in no partition before that of the operand. -/
theorem PartitionValue.Above.partition (h : v.Above d) (hv : v.OfMode mode)
    (hmode : mode ≠ .week) : toDateRange mode v ≤ datePartition mode d := by
  cases v with
  | date d' =>
    have hlt := compare_gt_iff_gt.mp (Option.some.inj h)
    exact DateRange.dateToRangeNumber_mono hmode (le_of_lt hlt)
  | range r =>
    rw [Above, cmp, show r.type? = some mode from hv] at h
    exact le_of_lt (compare_gt_iff_gt.mp (Option.some.inj h))

theorem PartitionValue.Below.partition (h : v.Below d) (hv : v.OfMode mode)
    (hmode : mode ≠ .week) : datePartition mode d ≤ toDateRange mode v := by
  cases v with
  | date d' =>
    have hlt := compare_lt_iff_lt.mp (Option.some.inj h)
    exact DateRange.dateToRangeNumber_mono hmode (le_of_lt hlt)
  | range r =>
    rw [Below, cmp, show r.type? = some mode from hv] at h
    exact le_of_lt (compare_lt_iff_lt.mp (Option.some.inj h))

/-- The partitions of the dates in an interval. -/
theorem InInterval.from_le {iv : Query.Interval PartitionValue} (h : InInterval iv d)
    (hfirst : iv.from_.type ≠ .first) (hv : iv.from_.type = .first ∨ iv.from_.value.OfMode mode)
    (hmode : mode ≠ .week) : toDateRange mode iv.from_.value ≤ datePartition mode d := by
  have hv := hv.resolve_left hfirst
  obtain ⟨hfrom | ⟨-, habove⟩ | ⟨-, habove | his⟩, -⟩ := h
  · exact absurd hfrom hfirst
  · exact habove.partition hv hmode
  · exact habove.partition hv hmode
  · exact (his.partition hv).ge

theorem InInterval.le_to {iv : Query.Interval PartitionValue} (h : InInterval iv d)
    (hlast : iv.to_.type ≠ .last) (hv : iv.to_.type = .last ∨ iv.to_.value.OfMode mode)
    (hmode : mode ≠ .week) : datePartition mode d ≤ toDateRange mode iv.to_.value := by
  have hv := hv.resolve_left hlast
  obtain ⟨-, hto | ⟨-, hbelow⟩ | ⟨-, hbelow | his⟩⟩ := h
  · exact absurd hto hlast
  · exact hbelow.partition hv hmode
  · exact hbelow.partition hv hmode
  · exact (his.partition hv).le

end

namespace Partitions

variable {ps : Partitions} {mode : RangeType}

theorem covers_upTo {range p : DateRange} (h : p ≤ range) : (Cut.upTo range).Covers ps p :=
  fun _ _ hle => h.trans hle

/-- For ranges that are in the order of the dates, what satisfies a condition is in its cut. -/
theorem covers_of_regular {q : PartitionQuery} (hmode : mode ≠ .week) (hq : q.OfMode mode)
    (hop : q.op ≠ .neq ∧ q.op ≠ .nin) {c : Cut} (hc : q.cut mode = some c) {d : CalendarDate}
    (hd : q.Satisfies d) : c.Covers ps (datePartition mode d) := by
  obtain ⟨op, value, order, hchecked⟩ := q
  cases value with
  | scalar s =>
    cases s with
    | null => cases op <;> cases hc
    | first =>
      cases op with
      | gte =>
        obtain rfl := Option.some.inj hc
        trivial
      | _ => cases hc
    | last =>
      cases op with
      | lte =>
        obtain rfl := Option.some.inj hc
        trivial
      | _ => cases hc
    | value v =>
      have hv : v.OfMode mode := hq
      cases op with
      | eq =>
        obtain rfl := Option.some.inj hc
        exact List.mem_singleton.mpr (PartitionValue.Is.partition hd hv)
      | gt =>
        obtain rfl := Option.some.inj hc
        exact PartitionValue.Above.partition hd hv hmode
      | gte =>
        obtain rfl := Option.some.inj hc
        exact hd.elim (fun h => h.partition hv hmode) fun h => (h.partition hv).ge
      | lt =>
        obtain rfl := Option.some.inj hc
        exact covers_upTo (PartitionValue.Below.partition hd hv hmode)
      | lte =>
        obtain rfl := Option.some.inj hc
        exact covers_upTo (hd.elim (fun h => h.partition hv hmode) fun h => (h.partition hv).le)
      | in_ => cases hchecked
      | neq => exact absurd rfl hop.1
      | nin => exact absurd rfl hop.2
  | interval iv =>
    cases op with
    | in_ =>
      have hd : InInterval iv d := hd
      obtain ⟨hfrom, hto⟩ : (iv.from_.type = .first ∨ iv.from_.value.OfMode mode) ∧
        (iv.to_.type = .last ∨ iv.to_.value.OfMode mode) := hq
      simp only [PartitionQuery.cut] at hc
      split at hc
      · obtain rfl := Option.some.inj hc
        trivial
      next hall =>
      split at hc
      · next hfirst =>
        obtain rfl := Option.some.inj hc
        exact covers_upTo (hd.le_to (fun hlast => hall ⟨hfirst, hlast⟩) hto hmode)
      next hfirst =>
      split at hc
      · obtain rfl := Option.some.inj hc
        exact hd.from_le hfirst hfrom hmode
      · next hlast =>
        obtain rfl := Option.some.inj hc
        exact ⟨hd.from_le hfirst hfrom hmode, hd.le_to hlast hto hmode⟩
    | nin => exact absurd rfl hop.2
    | _ => cases hchecked
  | vector vec =>
    cases op with
    | in_ =>
      obtain rfl := Option.some.inj hc
      obtain ⟨v, hv, his⟩ := hd
      exact List.mem_map.mpr ⟨v, hv, (his.partition (hq v hv)).symm⟩
    | neq => exact absurd rfl hop.1
    | nin => exact absurd rfl hop.2
    | _ => cases hchecked

/-- **Conditions of the model's own ranges** lose nothing but what is behind all partitions. -/
theorem complete_iff_of_regular {q : PartitionQuery} (hmode : mode ≠ .week) (hq : q.OfMode mode)
    (hop : q.op ≠ .neq ∧ q.op ≠ .nin) : ps.Complete mode q ↔
      ∃ c, q.cut mode = some c ∧ ((∃ d, ps.Holds mode q d) → c.Ends ps) := by
  rw [complete_iff]
  refine exists_congr fun c => and_congr_right fun hc => and_iff_right fun d hd => ?_
  exact covers_of_regular hmode hq hop hc hd.2

section Sample

theorem sampleYear_lt : 2024 < 2 ^ 16 := by decide

def sampleMarch : CalendarDate :=
  ⟨⟨2024, 3, 5, sampleYear_lt, by decide, by decide⟩, by decide⟩

def sampleMay : CalendarDate :=
  ⟨⟨2024, 5, 10, sampleYear_lt, by decide, by decide⟩, by decide⟩

/-- One partition, for march. -/
def samplePartitions : Partitions := ⟨[.ofDate sampleMarch .month], List.pairwise_singleton _ _⟩

def sampleQuery : PartitionQuery := ⟨.lt, .scalar (.value (.date sampleMay)), .asc, by decide⟩

/-- **All is lost**: the dates before may are in the only partition, which is before the one of
the operand. -/
theorem not_complete : ¬ ∀ (ps : Partitions) (mode : RangeType) (q : PartitionQuery),
    ps.Complete mode q := by
  intro h
  obtain ⟨selected, hselected, hall⟩ := h samplePartitions .month sampleQuery
  have hnone : samplePartitions.queryPartitions .month (some sampleQuery) = some [] := by decide
  obtain rfl : selected = [] := Option.some.inj (hselected.symm.trans hnone)
  have hbefore : sampleQuery.Satisfies sampleMarch := by
    show PartitionValue.cmp sampleMarch (.date sampleMay) = some .lt
    decide
  exact List.not_mem_nil (hall sampleMarch ⟨List.mem_singleton_self _, hbefore⟩)

end Sample

end Partitions

end Hatn.Db
