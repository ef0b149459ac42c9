import Hatn.Db.SearchOrder
import Hatn.Db.QueryAnswers

/-!
# Values to leave out

A vector of values to leave out is searched as the range below its first value, the ranges between
its neighbours, and the range above its last value.  In ascending order these are the values that
are not in the vector, one behind the other.  In descending order the first value is the largest
one: the ranges between the neighbours are empty, and what is below the largest value and what is
above the least one is searched instead.  `leavesOut_iff` says for which entries that makes no
difference.
-/

namespace Hatn.Db

open Query Search

namespace IndexKeySearch

/-- The condition. -/
def ninVector (c : Column) (order : Query.Order) (l : List c.Value) : Field :=
  ⟨c, .nin, .vector l, order⟩

/-- The entries are in the order of their keys, and in those of the topic the field has a value
or is null. -/
structure Indexed (src : Source) (c : Column) : Prop where
  sorted : src.entries.Pairwise fun e e' => e.key < e'.key
  part : ∀ e ∈ src.entries, src.indexRangeFrom <+: e.key →
    (∃ x, Part src.start (c.form x) e) ∨ Part src.start [] e

/-- The entry has the value, and is neither expired nor filtered. -/
def Has (src : Source) (c : Column) (e : Entry) (x : c.Value) : Prop :=
  e ∈ src.entries ∧ src.isFiltered 1 e = false ∧ Part src.start (c.form x) e

/-- The value of some entry. -/
def Live (src : Source) (c : Column) (x : c.Value) : Prop := ∃ e, Has src c e x

/-- The requested order. -/
def InOrder {c : Column} (order : Query.Order) (x y : c.Value) : Prop :=
  match order with
  | .asc => x ≤ y
  | .desc => y ≤ x

/-- **What the condition is for**: the entries whose value is not in the vector are visited, each
once and in the requested order.  The comparison of a descending sort holds of equal values, for
which it is not defined. -/
structure LeavesOut (src : Source) (c : Column) (order : Query.Order) (l : List c.Value) :
    Prop where
  defined : order = .desc → l.Nodup
  visits : ∀ e, e ∈ called src [ninVector c order l] ↔ ∃ x, Has src c e x ∧ x ∉ l
  once : (called src [ninVector c order l]).Nodup
  ordered : (called src [ninVector c order l]).Pairwise fun e e' =>
    ∀ x x', Has src c e x → Has src c e' x' → InOrder order x x'

/-- Without values to leave out there is nothing to be visited.  In descending order the values
differ, no entry lies between two of them, and the other ones are all on one side. -/
structure Separated (src : Source) (c : Column) (order : Query.Order) (l : List c.Value) :
    Prop where
  nonempty : l = [] → ∀ x, ¬ Live src c x
  distinct : order = .desc → l.Nodup
  outside : order = .desc → ∀ x, Live src c x → ∀ a ∈ l, ∀ b ∈ l, a < b → ¬ (a ≤ x ∧ x ≤ b)
  oneSide : order = .desc → ∀ x y, Live src c x → Live src c y → (∀ a ∈ l, x < a) →
    ¬ ∀ a ∈ l, a < y

/-! ### The ranges -/

theorem mem_doNinFrom {f v : Field} : ∀ {l : List f.column.Value} {prev : f.column.Value},
    v ∈ f.doNinFrom prev l →
      (∃ a b, v = f.with_ .in_ (.interval ⟨⟨a, .open_⟩, ⟨b, .open_⟩⟩)) ∨
        ∃ a, v = f.with_ .gt (.scalar (.value a)) := by
  intro l
  induction l with
  | nil =>
    intro prev hv
    exact .inr ⟨prev, List.mem_singleton.mp hv⟩
  | cons a l ih =>
    intro prev hv
    rcases List.mem_cons.mp hv with rfl | hv
    · exact .inl ⟨prev, a, rfl⟩
    · exact ih hv

theorem mem_doNinVector {f v : Field} {l : List f.column.Value} (hv : v ∈ f.doNinVector l) :
    (∃ a, v = f.with_ .lt (.scalar (.value a))) ∨
      (∃ a b, v = f.with_ .in_ (.interval ⟨⟨a, .open_⟩, ⟨b, .open_⟩⟩)) ∨
        ∃ a, v = f.with_ .gt (.scalar (.value a)) := by
  cases l with
  | nil => cases hv
  | cons a l =>
    rcases List.mem_cons.mp hv with rfl | hv
    · exact .inl ⟨a, rfl⟩
    · exact .inr (mem_doNinFrom hv)

/-- Where the field is null, the entry is in none of the ranges. -/
theorem rangeBounds_null {f v : Field} {l : List f.column.Value} (hc : f.column.Ordered)
    (hv : v ∈ f.doNinVector l) {P : Key} {e : Entry} (hp : Part P [] e) :
    (rangeBounds v (P ++ [separatorChar]) (P ++ [separatorChar])
      (P ++ [separatorCharPlus])).contains e = false := by
  rw [Bool.eq_false_iff]
  intro hb
  have hlo := (contains_iff.mp hb).1
  rcases mem_doNinVector hv with ⟨a, rfl⟩ | ⟨a, b, rfl⟩ | ⟨a, rfl⟩
  · exact List.not_lt_nil [] ((hp.upper_le (x := []) nofun).mp hlo)
  · exact List.not_lt_nil _ ((hp.upper_le (hc.clean a)).mp hlo)
  · exact List.not_lt_nil _ ((hp.upper_le (hc.clean a)).mp hlo)

/-- The entries that are visited in a range. -/
def found (src : Source) (v : Field) : List Entry :=
  (iterateFieldVariant src 1 none v src.indexRangeFrom src.indexRangeTo src.start).all

/-- **The ranges are visited one behind the other.** -/
theorem called_ninVector (src : Source) (c : Column) (order : Query.Order) (l : List c.Value) :
    called src [ninVector c order l] =
      ((ninVector c order l).doNinVector (sortVector order l : List c.Value)).flatMap
        (found src) := by
  rw [called_eq, searchTopic, nextKeyField_all]
  rfl

section
variable {src : Source} {c : Column} {order : Query.Order} {l d : List c.Value} (hc : c.Ordered)
include hc

theorem Has.unique {e : Entry} {x y : c.Value} (h : Has src c e x) (h' : Has src c e y) : x = y :=
  (form_inj hc).mp (h.2.2.unique h'.2.2)

/-- **A range** visits the entries with a value in it. -/
theorem found_spec (hi : Indexed src c) {v : Field}
    (hv : v ∈ (ninVector c order l).doNinVector d) :
    (found src v).Pairwise (fun e e' => Before (order = .asc) e.key e'.key) ∧
      ∀ e, e ∈ found src v ↔ ∃ x, Has src c e x ∧ Sat v (c.form x) := by
  have hplain := doNinVector_plain (f := ninVector c order l) hc d v hv
  have horder : v.order = order := order_of_mem_doNinVector hv
  have hcuts := rangeBounds_cuts hplain (P := src.start) (.inr ⟨rfl, rfl⟩)
  rw [found, iterateFieldVariant_eq hplain, iterate_last, horder]
  refine ⟨(entries_before hi.sorted _).filter _, fun e => ?_⟩
  rw [List.mem_filter, mem_entries_iff, Bool.and_eq_true_iff, Bool.not_eq_true']
  constructor
  · rintro ⟨he, hb, hfilter⟩
    rcases hi.part e he (hcuts.level hb) with ⟨x, hp⟩ | hp
    · exact ⟨x, ⟨he, hfilter, hp⟩, (hcuts.contains (hc.ne_nil x) hp).mp hb⟩
    · have hnull := rangeBounds_null (f := ninVector c order l) hc hv hp
      rw [Source.indexRangeFrom, Source.indexRangeTo, hnull] at hb
      cases hb
  · rintro ⟨x, ⟨he, hfilter, hp⟩, hsat⟩
    exact ⟨he, (hcuts.contains (hc.ne_nil x) hp).mpr hsat, hfilter⟩

/-- The entries of a range are in the requested order. -/
theorem found_inOrder (hi : Indexed src c) {v : Field}
    (hv : v ∈ (ninVector c order l).doNinVector d) :
    (found src v).Pairwise fun e e' =>
      ∀ x x', Has src c e x → Has src c e' x' → InOrder order x x' := by
  refine (found_spec hc hi hv).1.imp fun {e e'} hb x x' hx hx' => ?_
  by_cases heq : c.form x = c.form x'
  · obtain rfl := (form_inj hc).mp heq
    cases order <;> exact le_refl x
  · have hb' := hx.2.2.before hx'.2.2 hb heq
    cases order with
    | asc => exact ((hc.lt_iff x x').mp hb').le
    | desc => exact ((hc.lt_iff x' x).mp hb').le

theorem found_nodup (hi : Indexed src c) {v : Field}
    (hv : v ∈ (ninVector c order l).doNinVector d) : (found src v).Nodup :=
  (found_spec hc hi hv).1.imp fun hb heq => hb.ne (by rw [heq])

/-! ### Ascending order -/

/-- **In ascending order** the ranges are those of the values that are not in the vector. -/
theorem leavesOut_asc (hi : Indexed src c) (hne : l ≠ []) : LeavesOut src c .asc l := by
  have hsorted : (sortVector .asc l).Pairwise (· ≤ ·) := sortVector_sorted (.inl rfl)
  have hne' : sortVector .asc l ≠ [] := by
    obtain ⟨y, hy⟩ := List.exists_mem_of_ne_nil l hne
    exact List.ne_nil_of_mem (mem_sortVector.mpr hy)
  have hrising := doNinVector_rising (f := ninVector c .asc l) hc hsorted
  have hspec : ∀ v ∈ (ninVector c .asc l).doNinVector (sortVector .asc l), _ := fun v hv =>
    found_spec hc hi hv
  have happly : ∀ e, e ∈ called src [ninVector c .asc l] ↔ ∃ x, Has src c e x ∧ x ∉ l := by
    intro e
    rw [called_ninVector, List.mem_flatMap]
    constructor
    · rintro ⟨v, hv, he⟩
      obtain ⟨x, hx, hsat⟩ := ((hspec v hv).2 e).mp he
      have := (doNinVector_iff (f := ninVector c .asc l) hc hsorted hne' x).mp ⟨v, hv, hsat⟩
      exact ⟨x, hx, fun h => this (mem_sortVector.mpr h)⟩
    · rintro ⟨x, hx, hmem⟩
      obtain ⟨v, hv, hsat⟩ := (doNinVector_iff (f := ninVector c .asc l) hc hsorted hne' x).mpr
        fun h => hmem (mem_sortVector.mp h)
      exact ⟨v, hv, ((hspec v hv).2 e).mpr ⟨x, hx, hsat⟩⟩
  refine ⟨nofun, happly, ?_, ?_⟩
  · rw [called_ninVector, List.nodup_flatMap]
    refine ⟨fun v hv => found_nodup hc hi hv,
      hrising.imp_of_mem fun {v v'} hv hv' hb e he he' => ?_⟩
    obtain ⟨x, hx, hsat⟩ := ((hspec v hv).2 e).mp he
    obtain ⟨x', hx', hsat'⟩ := ((hspec v' hv').2 e).mp he'
    obtain rfl := hx.unique hc hx'
    exact lt_irrefl _ (hb _ _ hsat hsat')
  · rw [called_ninVector, List.pairwise_flatMap]
    refine ⟨fun v hv => found_inOrder hc hi hv,
      hrising.imp_of_mem fun {v v'} hv hv' hb e he e' he' x x' hx hx' => ?_⟩
    obtain ⟨y, hy, hsat⟩ := ((hspec v hv).2 e).mp he
    obtain ⟨y', hy', hsat'⟩ := ((hspec v' hv').2 e').mp he'
    obtain rfl := hx.unique hc hy
    obtain rfl := hx'.unique hc hy'
    exact ((hc.lt_iff x x').mp (hb _ _ hsat hsat')).le

/-! ### Descending order -/

/-- The range between two values in descending order is empty. -/
theorem found_between (hi : Indexed src c) {a b : c.Value} (h : b ≤ a) :
    found src ((ninVector c order l).with_ .in_ (.interval ⟨⟨a, .open_⟩, ⟨b, .open_⟩⟩)) = [] := by
  refine List.eq_nil_iff_forall_not_mem.mpr fun e he => ?_
  have hmem : (ninVector c order l).with_ .in_ (.interval ⟨⟨a, .open_⟩, ⟨b, .open_⟩⟩) ∈
      (ninVector c order l).doNinVector [a, b] := .tail _ (.head _)
  obtain ⟨x, -, hsat⟩ := ((found_spec hc hi hmem).2 e).mp he
  obtain ⟨hlt, hlt'⟩ := (sat_between_iff (f := ninVector c order l) hc a b x).mp hsat
  exact absurd (hlt.trans hlt') h.not_gt

/-- The ranges behind the first one: only the last of them is not empty. -/
theorem found_doNinFrom (hi : Indexed src c) (f : Field) (hf : f = ninVector c order l) :
    ∀ {d : List f.column.Value} {prev : f.column.Value}, (prev :: d).Pairwise (· ≥ ·) →
      ∃ m ∈ prev :: d, (∀ a ∈ prev :: d, m ≤ a) ∧
        (f.doNinFrom prev d).flatMap (found src) =
          found src (f.with_ .gt (.scalar (.value m))) := by
  intro d
  induction d with
  | nil =>
    intro prev _
    refine ⟨prev, .head _, fun a ha => ?_, ?_⟩
    · rw [List.mem_singleton.mp ha]
    · rw [Field.doNinFrom, List.flatMap_singleton]
  | cons b d ih =>
    intro prev h
    obtain ⟨hprev, h⟩ := List.pairwise_cons.mp h
    obtain ⟨m, hm, hle, heq⟩ := ih h
    refine ⟨m, .tail _ hm, ?_, ?_⟩
    · exact List.forall_mem_cons.mpr ⟨hprev m hm, hle⟩
    · subst hf
      rw [Field.doNinFrom, List.flatMap_cons, heq, found_between hc hi (hprev b (.head _)),
        List.nil_append]

/-- **In descending order** two ranges are visited: below the largest value and above the least
one. -/
theorem called_desc (hi : Indexed src c) (hne : l ≠ []) :
    ∃ M ∈ l, ∃ m ∈ l, (∀ a ∈ l, m ≤ a ∧ a ≤ M) ∧
      called src [ninVector c .desc l] =
        found src ((ninVector c .desc l).with_ .lt (.scalar (.value M))) ++
          found src ((ninVector c .desc l).with_ .gt (.scalar (.value m))) := by
  have hsorted : (sortVector .desc l).Pairwise (· ≥ ·) := List.pairwise_insertionSort _ l
  have hmem : ∀ a, a ∈ sortVector .desc l ↔ a ∈ l := fun a => mem_sortVector
  rw [called_ninVector]
  generalize sortVector .desc l = d at hsorted hmem
  cases d with
  | nil =>
    obtain ⟨y, hy⟩ := List.exists_mem_of_ne_nil l hne
    exact absurd ((hmem y).mpr hy) List.not_mem_nil
  | cons M d =>
    obtain ⟨m, hm, hle, heq⟩ := found_doNinFrom hc hi (ninVector c .desc l) rfl hsorted
    refine ⟨M, (hmem M).mp (.head _), m, (hmem m).mp hm, fun a ha => ?_, ?_⟩
    · have ha := (hmem a).mpr ha
      refine ⟨hle a ha, ?_⟩
      rcases List.mem_cons.mp ha with rfl | ha
      · exact le_rfl
      · exact (List.pairwise_cons.mp hsorted).1 a ha
    · show (_ :: Field.doNinFrom (ninVector c .desc l) M d).flatMap _ = _
      rw [List.flatMap_cons, heq]

/-- The two ranges by their values. -/
theorem mem_found_lt (hi : Indexed src c) (a : c.Value) (e : Entry) :
    e ∈ found src ((ninVector c order l).with_ .lt (.scalar (.value a))) ↔
      ∃ x, Has src c e x ∧ x < a := by
  have hmem : (ninVector c order l).with_ .lt (.scalar (.value a)) ∈
      (ninVector c order l).doNinVector [a] := .head _
  refine ((found_spec hc hi hmem).2 e).trans (exists_congr fun x => and_congr_right fun _ => ?_)
  exact hc.lt_iff x a

theorem mem_found_gt (hi : Indexed src c) (a : c.Value) (e : Entry) :
    e ∈ found src ((ninVector c order l).with_ .gt (.scalar (.value a))) ↔
      ∃ x, Has src c e x ∧ a < x := by
  have hmem : (ninVector c order l).with_ .gt (.scalar (.value a)) ∈
      (ninVector c order l).doNinVector [a] := .tail _ (.head _)
  refine ((found_spec hc hi hmem).2 e).trans (exists_congr fun x => and_congr_right fun _ => ?_)
  exact hc.lt_iff a x

/-- An entry with a value below the largest one, or above the least one, is visited. -/
theorem visited_desc (hi : Indexed src c) {e : Entry} {x a : c.Value} (hx : Has src c e x)
    (ha : a ∈ l) (h : x < a ∨ a < x) : e ∈ called src [ninVector c .desc l] := by
  obtain ⟨M, -, m, -, hle, heq⟩ := called_desc (l := l) hc hi (List.ne_nil_of_mem ha)
  rw [heq, List.mem_append]
  rcases h with h | h
  · exact .inl ((mem_found_lt hc hi M e).mpr ⟨x, hx, h.trans_le (hle a ha).2⟩)
  · exact .inr ((mem_found_gt hc hi m e).mpr ⟨x, hx, (hle a ha).1.trans_lt h⟩)

theorem separated_of_desc (hi : Indexed src c) (h : LeavesOut src c .desc l) :
    Separated src c .desc l := by
  have hleft : ∀ {e : Entry} {x : c.Value}, Has src c e x →
      e ∈ called src [ninVector c .desc l] → x ∉ l := by
    intro e x hx he
    obtain ⟨y, hy, hmem⟩ := (h.visits e).mp he
    rwa [hx.unique hc hy]
  refine ⟨?_, h.defined, ?_, ?_⟩
  · rintro rfl x ⟨e, hx⟩
    cases (h.visits e).mpr ⟨x, hx, List.not_mem_nil⟩
  · rintro - x ⟨e, hx⟩ a ha b hb hab ⟨hax, hxb⟩
    -- the value is in the vector, or its entry is visited in both ranges
    rcases hax.eq_or_lt with rfl | hax
    · exact hleft hx (visited_desc hc hi hx hb (.inl hab)) ha
    rcases hxb.eq_or_lt with rfl | hxb
    · exact hleft hx (visited_desc hc hi hx ha (.inr hab)) hb
    obtain ⟨M, -, m, -, hle, heq⟩ := called_desc (l := l) hc hi (List.ne_nil_of_mem ha)
    have honce := h.once
    rw [heq] at honce
    refine (List.nodup_append.mp honce).2.2 e ((mem_found_lt hc hi M e).mpr
      ⟨x, hx, hxb.trans_le (hle b hb).2⟩) e ((mem_found_gt hc hi m e).mpr
        ⟨x, hx, (hle a ha).1.trans_lt hax⟩) rfl
  · rintro - x y ⟨e, hx⟩ ⟨e', hy⟩ hbelow habove
    by_cases hne : l = []
    · subst hne
      cases (h.visits e).mpr ⟨x, hx, List.not_mem_nil⟩
    obtain ⟨M, hM, m, hm, -, heq⟩ := called_desc (l := l) hc hi hne
    have hordered := h.ordered
    rw [heq] at hordered
    have hle := (List.pairwise_append.mp hordered).2.2 e
      ((mem_found_lt hc hi M e).mpr ⟨x, hx, hbelow M hM⟩) e'
      ((mem_found_gt hc hi m e').mpr ⟨y, hy, habove m hm⟩) x y hx hy
    exact absurd ((hbelow m hm).trans (habove m hm)) hle.not_gt

theorem leavesOut_of_desc (hi : Indexed src c) (h : Separated src c .desc l) :
    LeavesOut src c .desc l := by
  by_cases hne : l = []
  · subst hne
    have hnone := h.nonempty rfl
    refine ⟨h.distinct, fun e => ⟨nofun, ?_⟩, .nil, .nil⟩
    rintro ⟨x, hx, -⟩
    exact absurd ⟨e, hx⟩ (hnone x)
  obtain ⟨M, hM, m, hm, hle, heq⟩ := called_desc (l := l) hc hi hne
  have houtside := fun x hx => h.outside rfl x hx
  -- the entries of the two ranges are below all values and above all values
  have hbelow : ∀ x, Live src c x → x < M → ∀ a ∈ l, x < a := by
    intro x hx hlt a ha
    by_contra hax
    have hax := not_lt.mp hax
    exact houtside x hx a ha M hM (hax.trans_lt hlt) ⟨hax, hlt.le⟩
  have habove : ∀ x, Live src c x → m < x → ∀ a ∈ l, a < x := by
    intro x hx hlt a ha
    by_contra hax
    have hax := not_lt.mp hax
    exact houtside x hx m hm a ha (hlt.trans_le hax) ⟨hlt.le, hax⟩
  have hmem : ∀ e, e ∈ called src [ninVector c .desc l] ↔
      (∃ x, Has src c e x ∧ x < M) ∨ ∃ x, Has src c e x ∧ m < x := by
    intro e
    rw [heq, List.mem_append, mem_found_lt hc hi, mem_found_gt hc hi]
  have hlt : (ninVector c .desc l).with_ .lt (.scalar (.value M)) ∈
      (ninVector c .desc l).doNinVector [M] := .head _
  have hgt : (ninVector c .desc l).with_ .gt (.scalar (.value m)) ∈
      (ninVector c .desc l).doNinVector [m] := .tail _ (.head _)
  refine ⟨h.distinct, fun e => (hmem e).trans ?_, ?_, ?_⟩
  · constructor
    · rintro (⟨x, hx, hlt⟩ | ⟨x, hx, hlt⟩)
      · exact ⟨x, hx, fun hxl => lt_irrefl x (hbelow x ⟨e, hx⟩ hlt x hxl)⟩
      · exact ⟨x, hx, fun hxl => lt_irrefl x (habove x ⟨e, hx⟩ hlt x hxl)⟩
    · rintro ⟨x, hx, hxl⟩
      rcases lt_or_gt_of_ne (fun heq : x = M => hxl (heq ▸ hM)) with hlt | hlt
      · exact .inl ⟨x, hx, hlt⟩
      · exact .inr ⟨x, hx, (hle M hM).1.trans_lt hlt⟩
  · rw [heq, List.nodup_append]
    refine ⟨found_nodup hc hi hlt, found_nodup hc hi hgt, ?_⟩
    rintro e he e' he' rfl
    obtain ⟨x, hx, hlt⟩ := (mem_found_lt hc hi M e).mp he
    obtain ⟨y, hy, hlt'⟩ := (mem_found_gt hc hi m e).mp he'
    obtain rfl := hx.unique hc hy
    exact lt_asymm (hbelow x ⟨e, hx⟩ hlt m hm) hlt'
  · rw [heq, List.pairwise_append]
    refine ⟨found_inOrder hc hi hlt, found_inOrder hc hi hgt, ?_⟩
    intro e he e' he' x x' hx hx'
    obtain ⟨y, hy, hlt⟩ := (mem_found_lt hc hi M e).mp he
    obtain ⟨y', hy', hlt'⟩ := (mem_found_gt hc hi m e').mp he'
    obtain rfl := hx.unique hc hy
    obtain rfl := hx'.unique hc hy'
    exact absurd (habove x' ⟨e', hx'⟩ hlt')
      (h.oneSide rfl x x' ⟨e, hx⟩ ⟨e', hx'⟩ (hbelow x ⟨e, hx⟩ hlt))

/-- **Values to leave out are left out** in ascending order, but for an empty vector; in descending
order just where no entry lies between two of the values and the others are all on one side. -/
theorem leavesOut_iff (hi : Indexed src c) :
    LeavesOut src c order l ↔ Separated src c order l := by
  cases order with
  | asc =>
    constructor
    · intro h
      refine ⟨?_, nofun, nofun, nofun⟩
      rintro rfl x ⟨e, hx⟩
      cases (h.visits e).mpr ⟨x, hx, List.not_mem_nil⟩
    · intro h
      by_cases hne : l = []
      · subst hne
        have hnone := h.nonempty rfl
        refine ⟨nofun, fun e => ⟨nofun, ?_⟩, .nil, .nil⟩
        rintro ⟨x, hx, -⟩
        exact absurd ⟨e, hx⟩ (hnone x)
      · exact leavesOut_asc hc hi hne
  | desc => exact ⟨separated_of_desc hc hi, leavesOut_of_desc hc hi⟩

end

theorem sampleSource_indexed : Indexed sampleSource sampleColumn where
  sorted := (sampleRows .eq .eq 0 0).sorted
  part e he hstart := by
    obtain ⟨⟨row, hrow⟩, -⟩ := (sampleRows .eq .eq 0 0).rows e he hstart
    exact .inl ⟨row.1, hrow.part (fitColumn_ordered _)⟩

/-- A vector with repetitions, in ascending order. -/
theorem leavesOut_sample : LeavesOut sampleSource sampleColumn .asc
    [sampleValue 200, sampleValue 6, sampleValue 6] :=
  (leavesOut_iff (fitColumn_ordered _) sampleSource_indexed).mpr ⟨nofun, nofun, nofun, nofun⟩

/-- In descending order, the entries between two values to leave out are visited twice. -/
theorem not_leavesOut : ¬ LeavesOut sampleSource sampleColumn .desc
    [sampleValue 1, sampleValue 200] := by
  intro h
  have htwice : ¬ (called sampleSource
      [ninVector sampleColumn .desc [sampleValue 1, sampleValue 200]]).Nodup := by
    decide +kernel
  exact htwice h.once

end IndexKeySearch

end Hatn.Db
