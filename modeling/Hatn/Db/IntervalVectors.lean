import Hatn.Db.Query
import Hatn.Order.Cuts
import Hatn.Order.Places

/-!
# Vectors of intervals

`sortAndMerge` sorts the intervals by their begins and joins neighbours that intersect, so that
the intervals that stay are disjoint and have the values of the given ones.

The ends of an interval are places between the values, and the comparisons of endpoints are
comparisons of places (`less_from`, `less_to`, `less_to_from`) with two exceptions: an end that is
`Last` is less than itself, and an open end at a value does not lie in front of an open begin at
the same value.  By the first one a sort may have no meaning, by the second one intervals on the
two sides of a value are joined over it, `(1, 5)` and `(5, 9)` to `(1, 9)`.
-/

namespace Hatn.Db

namespace Query

open Hatn.Order Hatn.Order.Place

variable {α : Type} [LinearOrder α]

/-! ### The code -/

/-- `Endpoint::less` -/
def Endpoint.less (e other : Endpoint α) (selfFrom otherFrom : Bool) : Bool :=
  if e.type = .first ∧ other.type ≠ .first then true
  else if e.type = .last ∧ other.type ≠ .last then false
  else if other.type = .first then false
  else if other.type = .last then true
  else if e.value < other.value then true
  else if other.value < e.value then false
  else if e.type = other.type then false
  else if selfFrom then
    if otherFrom then e.type = .closed else other.type = .closed
  else if !otherFrom then other.type = .closed
  else e.type = .closed

/-- `std::less` of intervals -/
def Interval.less (l r : Interval α) : Bool :=
  if l.from_.less r.from_ true true then true
  else if r.from_.less l.from_ true true then false
  else l.to_.less r.to_ false false

/-- `intersects` -/
def Interval.intersects (i other : Interval α) : Bool :=
  !(i.to_.less other.from_ false true || other.to_.less i.from_ false true)

/-- What an interval becomes when the next one intersects it. -/
def Interval.extend (it it1 : Interval α) : Interval α :=
  ⟨if it1.from_.less it.from_ true true then it1.from_ else it.from_,
    if it.to_.less it1.to_ false false then it1.to_ else it.to_⟩

/-- The loop at the interval `it`, with those behind it. -/
def mergeFrom (it : Interval α) : List (Interval α) → List (Interval α)
  | [] => [it]
  | it1 :: rest =>
    if it.intersects it1 then mergeFrom (it.extend it1) rest else it :: mergeFrom it1 rest

/-- No two of the intervals are each less than the other, as a sort needs it. -/
def Comparable (vec : List (Interval α)) : Prop :=
  vec.Pairwise fun i j => ¬ (i.less j ∧ j.less i)

instance (vec : List (Interval α)) : Decidable (Comparable vec) :=
  inferInstanceAs (Decidable (vec.Pairwise _))

/-- `sortAndMerge`; it has no meaning for an empty vector and where the sort has none. -/
def sortAndMerge (vec : List (Interval α)) (order : Order) : Option (List (Interval α)) :=
  if Comparable vec then
    match vec.insertionSort (fun i j => ¬ j.less i) with
    | [] => none
    | it :: rest =>
      let merged := mergeFrom it rest
      some (if order = .desc then merged.reverse else merged)
  else none

/-! ### What it is for -/

/-- **The result**: it is sorted, no two of its intervals share a value, and its values are those
of the given intervals. -/
structure Merges (vec : List (Interval α)) (order : Order) (result : List (Interval α)) :
    Prop where
  sorted : result.Pairwise fun r s => match order with
    | .asc => ¬ s.less r
    | .desc => ¬ r.less s
  disjoint : result.Pairwise fun r s => ∀ v, ¬ (r.contains v ∧ s.contains v)
  union : ∀ v, (∃ r ∈ result, r.contains v) ↔ ∃ i ∈ vec, i.contains v

/-- The call returns, with the result it is for. -/
def SortsAndMerges (vec : List (Interval α)) (order : Order) : Prop :=
  ∃ result, sortAndMerge vec order = some result ∧ Merges vec order result

/-- The interval ends before it begins. -/
def Interval.Reversed (i : Interval α) : Prop := i.to_.less i.from_ false true

/-- A value between an interval that ends right below it and one that begins right above it is in
some other interval. -/
def GapsCovered (vec : List (Interval α)) : Prop :=
  ∀ v, ∀ i ∈ vec, ∀ j ∈ vec, i.to_ = ⟨v, .open_⟩ → j.from_ = ⟨v, .open_⟩ →
    Interval.contains ⟨i.from_, ⟨v, .closed⟩⟩ v → Interval.contains ⟨⟨v, .closed⟩, j.to_⟩ v →
      ∃ k ∈ vec, k.contains v

/-- An interval that ends before the begin of an earlier one stands behind the end of that one,
or no interval that follows has to be joined with the earlier one. -/
def Undisturbed (vec : List (Interval α)) : Prop :=
  ∀ i ∈ vec, ∀ k ∈ vec, ∀ j ∈ vec, ¬ k.from_.less i.from_ true true →
    ¬ j.from_.less k.from_ true true → k.to_.less i.from_ false true → ¬ j.Reversed →
      i.to_.less j.from_ false true

/-! ### Endpoints as places -/

/-- Where an interval with this endpoint begins; `Next` is compared as `Open` is. -/
def Endpoint.beginPlace (e : Endpoint α) : Hatn.Order.Place α :=
  match e.type with
  | .closed => below e.value
  | .open_ | .next => above e.value
  | .first => ⊥
  | .last => ⊤

/-- Where an interval with this endpoint ends. -/
def Endpoint.endPlace (e : Endpoint α) : Hatn.Order.Place α :=
  match e.type with
  | .closed => above e.value
  | .open_ | .next => below e.value
  | .first => ⊥
  | .last => ⊤

def Interval.lo (i : Interval α) : Hatn.Order.Place α := i.from_.beginPlace

def Interval.hi (i : Interval α) : Hatn.Order.Place α := i.to_.endPlace

/-- An interval that ends at the first place is taken to lie in front of one that begins at the
second place. -/
def Apart (p q : Hatn.Order.Place α) : Prop :=
  q = ⊤ ∨ (p < q ∧ ¬ ∃ v, p = below v ∧ q = above v) ∨ ∃ v, p = above v ∧ q = above v

theorem less_from (e f : Endpoint α) :
    e.less f true true ↔ e.beginPlace < f.beginPlace ∨ f.beginPlace = ⊤ := by
  rcases e with ⟨x, s⟩
  rcases f with ⟨y, t⟩
  rcases lt_trichotomy x y with h | rfl | h
  · cases s <;> cases t <;>
      simp [Endpoint.less, Endpoint.beginPlace, h, h.le, lt_top_iff_ne_top, bot_lt_iff_ne_bot]
  · cases s <;> cases t <;>
      simp [Endpoint.less, Endpoint.beginPlace, lt_top_iff_ne_top, bot_lt_iff_ne_bot]
  · cases s <;> cases t <;>
      simp [Endpoint.less, Endpoint.beginPlace, h, h.not_gt, h.not_ge, lt_top_iff_ne_top,
        bot_lt_iff_ne_bot]

theorem less_to (e f : Endpoint α) :
    e.less f false false ↔ e.endPlace < f.endPlace ∨ f.endPlace = ⊤ := by
  rcases e with ⟨x, s⟩
  rcases f with ⟨y, t⟩
  rcases lt_trichotomy x y with h | rfl | h
  · cases s <;> cases t <;>
      simp [Endpoint.less, Endpoint.endPlace, h, h.le, lt_top_iff_ne_top, bot_lt_iff_ne_bot]
  · cases s <;> cases t <;>
      simp [Endpoint.less, Endpoint.endPlace, lt_top_iff_ne_top, bot_lt_iff_ne_bot]
  · cases s <;> cases t <;>
      simp [Endpoint.less, Endpoint.endPlace, h, h.not_gt, h.not_ge, lt_top_iff_ne_top,
        bot_lt_iff_ne_bot]

theorem less_to_from (e f : Endpoint α) :
    e.less f false true ↔ Apart e.endPlace f.beginPlace := by
  rcases e with ⟨x, s⟩
  rcases f with ⟨y, t⟩
  rcases lt_trichotomy x y with h | rfl | h
  · cases s <;> cases t <;>
      simp [Endpoint.less, Endpoint.endPlace, Endpoint.beginPlace, Apart, h, h.le, h.ne',
        lt_top_iff_ne_top, bot_lt_iff_ne_bot]
  · cases s <;> cases t <;>
      simp [Endpoint.less, Endpoint.endPlace, Endpoint.beginPlace, Apart, lt_top_iff_ne_top,
        bot_lt_iff_ne_bot]
  · cases s <;> cases t <;>
      simp [Endpoint.less, Endpoint.endPlace, Endpoint.beginPlace, Apart, h, h.not_gt, h.not_ge,
        h.ne, lt_top_iff_ne_top, bot_lt_iff_ne_bot]

theorem less_iff (i j : Interval α) :
    i.less j ↔ (i.lo < j.lo ∨ j.lo = ⊤) ∨
      ¬ (j.lo < i.lo ∨ i.lo = ⊤) ∧ (i.hi < j.hi ∨ j.hi = ⊤) := by
  unfold Interval.less Interval.lo Interval.hi
  rw [← less_from, ← less_from, ← less_to]
  cases i.from_.less j.from_ true true <;> cases j.from_.less i.from_ true true <;> simp

theorem intersects_iff (i j : Interval α) :
    i.intersects j ↔ ¬ Apart i.hi j.lo ∧ ¬ Apart j.hi i.lo := by
  unfold Interval.intersects Interval.lo Interval.hi
  rw [← less_to_from, ← less_to_from]
  simp

theorem reversed_iff (i : Interval α) : i.Reversed ↔ Apart i.hi i.lo := less_to_from i.to_ i.from_

section
variable {p q r : Hatn.Order.Place α}

theorem Apart.le (h : Apart p q) : p ≤ q := by
  rcases h with rfl | ⟨h, -⟩ | ⟨v, rfl, rfl⟩
  · exact le_top
  · exact h.le
  · exact le_rfl

theorem Apart.trans_le (h : Apart p q) (hqr : q ≤ r) : Apart p r := by
  rcases h with rfl | ⟨h, hgap⟩ | ⟨v, rfl, rfl⟩
  · exact .inl (top_le_iff.mp hqr)
  · refine .inr (.inl ⟨h.trans_le hqr, ?_⟩)
    rintro ⟨v, rfl, rfl⟩
    exact hgap ⟨v, rfl, le_antisymm hqr (above_le_iff.mpr h)⟩
  · rcases hqr.lt_or_eq with hlt | rfl
    · exact .inr (.inl ⟨hlt, fun ⟨w, hw, _⟩ => above_ne_below hw⟩)
    · exact .inr (.inr ⟨v, rfl, rfl⟩)

/-- What is not apart touches, or there is a gap of one value. -/
theorem le_or_gap (h : ¬ Apart p q) : q ≤ p ∨ ∃ v, p = below v ∧ q = above v := by
  by_contra hc
  push Not at hc
  exact h (.inr (.inl ⟨hc.1, fun ⟨v, hp, hq⟩ => hc.2 v hp hq⟩))

theorem not_apart_gap {v : α} : ¬ Apart (below v) (above v) := by
  simp [Apart]

end

/-! ### The sorted vector -/

/-- The first interval may stand in front of the second one. -/
def Interval.Goes (i j : Interval α) : Prop := ¬ j.less i

instance : DecidableRel (Interval.Goes (α := α)) := fun _ _ => inferInstanceAs (Decidable (¬ _))

theorem goes_iff (i j : Interval α) :
    i.Goes j ↔ i.lo ≠ ⊤ ∧ (i.lo < j.lo ∨ i.lo = j.lo ∧ i.hi ≠ ⊤ ∧ i.hi ≤ j.hi) := by
  rw [Interval.Goes, less_iff]
  push Not
  constructor
  · rintro ⟨⟨hle, hi⟩, h⟩
    refine ⟨hi, ?_⟩
    rcases hle.lt_or_eq with hlt | heq
    · exact .inl hlt
    · have hnot : ¬ (i.lo < j.lo ∨ j.lo = ⊤) := by
        rw [← heq]
        exact not_or.mpr ⟨lt_irrefl _, hi⟩
      have hhi := h (not_or.mp hnot |>.imp not_lt.mp id)
      exact .inr ⟨heq, hhi.2, hhi.1⟩
  · rintro ⟨hi, hlt | ⟨heq, htop, hle⟩⟩
    · exact ⟨⟨hlt.le, hi⟩, fun h => absurd hlt (not_lt.mpr h.1)⟩
    · exact ⟨⟨heq.le, hi⟩, fun _ => ⟨hle, htop⟩⟩

section
variable {i j k : Interval α}

theorem Interval.Goes.lo_le (h : i.Goes j) : i.lo ≤ j.lo := by
  rcases ((goes_iff i j).mp h).2 with hlt | ⟨heq, -⟩
  · exact hlt.le
  · exact heq.le

theorem Interval.Goes.trans (h : i.Goes j) (g : j.Goes k) : i.Goes k := by
  obtain ⟨htop, h⟩ := (goes_iff i j).mp h
  obtain ⟨-, g⟩ := (goes_iff j k).mp g
  refine (goes_iff i k).mpr ⟨htop, ?_⟩
  rcases h with h | ⟨h, hend, hle⟩ <;> rcases g with g | ⟨g, -, gle⟩
  · exact .inl (h.trans g)
  · exact .inl (h.trans_eq g)
  · exact .inl (h.trans_lt g)
  · exact .inr ⟨h.trans g, hend, hle.trans gle⟩

/-- The begin is not behind the one of an interval that may stand behind. -/
theorem Interval.Goes.not_less_from (h : i.Goes j) : ¬ j.from_.less i.from_ true true := by
  rw [less_from]
  exact not_or.mpr ⟨not_lt.mpr h.lo_le, ((goes_iff i j).mp h).1⟩

theorem extend_from (h : i.Goes j) : (i.extend j).from_ = i.from_ := by
  rw [Interval.extend, if_neg h.not_less_from]

theorem extend_lo (h : i.Goes j) : (i.extend j).lo = i.lo := by
  rw [Interval.lo, extend_from h, Interval.lo]

theorem extend_hi (i j : Interval α) : (i.extend j).hi = max i.hi j.hi := by
  unfold Interval.extend Interval.hi
  simp only
  split
  · rename_i h
    rcases (less_to _ _).mp h with h | h
    · exact (max_eq_right h.le).symm
    · rw [h, max_top_right]
  · rename_i h
    rw [less_to, not_or, not_lt] at h
    exact (max_eq_left h.1).symm

/-- What may stand behind both may stand behind the two joined. -/
theorem extend_goes (h : i.Goes j) (hi : i.Goes k) (hj : j.Goes k) : (i.extend j).Goes k := by
  rw [goes_iff, extend_lo h, extend_hi]
  obtain ⟨htop, hik⟩ := (goes_iff i k).mp hi
  refine ⟨htop, ?_⟩
  rcases hik with hlt | ⟨heq, hend, hle⟩
  · exact .inl hlt
  · obtain ⟨-, hjk⟩ := (goes_iff j k).mp hj
    have hnot : ¬ j.lo < k.lo := not_lt.mpr (heq ▸ h.lo_le)
    obtain ⟨-, hend', hle'⟩ := hjk.resolve_left hnot
    exact .inr ⟨heq, max_ne_top hend hend', max_le hle hle'⟩

theorem goes_extend (h : i.Goes j) (hi : k.Goes i) : k.Goes (i.extend j) := by
  rw [goes_iff, extend_lo h, extend_hi]
  obtain ⟨htop, hki⟩ := (goes_iff k i).mp hi
  refine ⟨htop, hki.imp_right fun ⟨heq, hend, hle⟩ => ⟨heq, hend, le_max_of_le_left hle⟩⟩

end

/-! ### The loop -/

/-- The loop over sorted intervals: `it` has been read, and `rest` is to come. -/
inductive Merging : Interval α → List (Interval α) → List (Interval α) → Prop
  | last (it : Interval α) : Merging it [] [it]
  | join {it it1 : Interval α} {rest result : List (Interval α)} (goes : it.Goes it1)
      (sorted : (it1 :: rest).Pairwise Interval.Goes) (meets : it.intersects it1)
      (loop : Merging (it.extend it1) rest result) : Merging it (it1 :: rest) result
  | next {it it1 : Interval α} {rest result : List (Interval α)} (goes : it.Goes it1)
      (sorted : (it1 :: rest).Pairwise Interval.Goes) (misses : ¬ it.intersects it1)
      (loop : Merging it1 rest result) : Merging it (it1 :: rest) (it :: result)

section
variable {it it1 x : Interval α} {rest result : List (Interval α)}

theorem extend_sorted (h : (it :: it1 :: rest).Pairwise Interval.Goes) :
    (it.extend it1 :: rest).Pairwise Interval.Goes := by
  obtain ⟨hit, h⟩ := List.pairwise_cons.mp h
  obtain ⟨hit1, h⟩ := List.pairwise_cons.mp h
  exact List.pairwise_cons.mpr ⟨fun y hy => extend_goes (hit it1 List.mem_cons_self)
    (hit y (List.mem_cons_of_mem it1 hy)) (hit1 y hy), h⟩

theorem merging_mergeFrom : ∀ {rest : List (Interval α)} {it : Interval α},
    (it :: rest).Pairwise Interval.Goes → Merging it rest (mergeFrom it rest) := by
  intro rest
  induction rest with
  | nil => intro it _; exact .last it
  | cons it1 rest ih =>
    intro it hs
    obtain ⟨hgoes, hs1⟩ := List.pairwise_cons.mp hs
    rw [mergeFrom]
    split
    · rename_i hint
      exact .join (hgoes it1 List.mem_cons_self) hs1 hint (ih (extend_sorted hs))
    · rename_i hint
      exact .next (hgoes it1 List.mem_cons_self) hs1 hint (ih hs1)

theorem lo_le_of_sorted (h : (it :: rest).Pairwise Interval.Goes) :
    ∀ y ∈ it :: rest, it.lo ≤ y.lo := by
  intro y hy
  rcases List.mem_cons.mp hy with rfl | hy
  · exact le_rfl
  · exact ((List.pairwise_cons.mp h).1 y hy).lo_le

/-- An interval that ends before it begins is joined with none that stands behind it. -/
theorem Interval.Reversed.not_intersects (h : it.Reversed) (hgoes : it.Goes it1) :
    it.intersects it1 = false := by
  rw [Bool.eq_false_iff, Ne, intersects_iff]
  exact fun hi => hi.1 (((reversed_iff it).mp h).trans_le hgoes.lo_le)

namespace Merging

/-- An interval of the result begins as a given one, and is not reversed when that one is not. -/
theorem begin_of_mem (h : Merging it rest result) :
    ∀ r ∈ result, ∃ x ∈ it :: rest, r.from_ = x.from_ ∧ (x.Reversed → r.Reversed) := by
  induction h with
  | last it =>
    intro r hr
    exact ⟨r, hr, rfl, id⟩
  | @join it it1 rest result goes _ meets _ ih =>
    intro r hr
    obtain ⟨x, hx, hfrom, hrev⟩ := ih r hr
    rcases List.mem_cons.mp hx with rfl | hx
    · refine ⟨it, List.mem_cons_self, hfrom.trans (extend_from goes), fun h => ?_⟩
      rw [h.not_intersects goes] at meets
      cases meets
    · exact ⟨x, by simp [hx], hfrom, hrev⟩
  | @next it it1 rest result _ _ _ _ ih =>
    intro r hr
    rcases List.mem_cons.mp hr with rfl | hr
    · exact ⟨r, List.mem_cons_self, rfl, id⟩
    · obtain ⟨x, hx, h⟩ := ih r hr
      exact ⟨x, List.mem_cons_of_mem it hx, h⟩

/-- An interval of the result ends as a given one. -/
theorem end_of_mem (h : Merging it rest result) :
    ∀ r ∈ result, ∃ x ∈ it :: rest, r.to_ = x.to_ := by
  induction h with
  | last it =>
    intro r hr
    exact ⟨r, hr, rfl⟩
  | @join it it1 rest result _ _ _ _ ih =>
    intro r hr
    obtain ⟨x, hx, hto⟩ := ih r hr
    rcases List.mem_cons.mp hx with rfl | hx
    · have hend : (it.extend it1).to_ = it1.to_ ∨ (it.extend it1).to_ = it.to_ :=
        ite_eq_or_eq _ _ _
      rcases hend with h | h
      · exact ⟨it1, by simp, hto.trans h⟩
      · exact ⟨it, by simp, hto.trans h⟩
    · exact ⟨x, by simp [hx], hto⟩
  | @next it it1 rest result _ _ _ _ ih =>
    intro r hr
    rcases List.mem_cons.mp hr with rfl | hr
    · exact ⟨r, List.mem_cons_self, rfl⟩
    · obtain ⟨x, hx, hto⟩ := ih r hr
      exact ⟨x, List.mem_cons_of_mem it hx, hto⟩

theorem goes_of_mem (h : Merging it rest result) (hx : x.Goes it) : ∀ r ∈ result, x.Goes r := by
  induction h with
  | last it =>
    intro r hr
    exact List.mem_singleton.mp hr ▸ hx
  | join goes _ _ _ ih => exact ih (goes_extend goes hx)
  | next goes _ _ _ ih =>
    intro r hr
    rcases List.mem_cons.mp hr with rfl | hr
    · exact hx
    · exact ih (hx.trans goes) r hr

/-- **The result is sorted.** -/
theorem sorted_result (h : Merging it rest result) : result.Pairwise Interval.Goes := by
  induction h with
  | last it => exact List.pairwise_singleton _ it
  | join _ _ _ _ ih => exact ih
  | next goes _ _ loop ih => exact List.pairwise_cons.mpr ⟨loop.goes_of_mem goes, ih⟩

/-- **Every interval lies in one of the result.** -/
theorem exists_mem (h : Merging it rest result) :
    ∀ x ∈ it :: rest, ∃ r ∈ result, r.lo ≤ x.lo ∧ x.hi ≤ r.hi := by
  induction h with
  | last it =>
    intro x hx
    exact ⟨x, hx, le_rfl, le_rfl⟩
  | @join it it1 rest result goes _ _ _ ih =>
    intro x hx
    obtain ⟨r, hr, hlo, hhi⟩ := ih _ List.mem_cons_self
    rw [extend_lo goes] at hlo
    rw [extend_hi, max_le_iff] at hhi
    rcases List.mem_cons.mp hx with rfl | hx
    · exact ⟨r, hr, hlo, hhi.1⟩
    · rcases List.mem_cons.mp hx with rfl | hx
      · exact ⟨r, hr, hlo.trans goes.lo_le, hhi.2⟩
      · exact ih x (List.mem_cons_of_mem _ hx)
  | @next it it1 rest result _ _ _ _ ih =>
    intro x hx
    rcases List.mem_cons.mp hx with rfl | hx
    · exact ⟨x, List.mem_cons_self, le_rfl, le_rfl⟩
    · obtain ⟨r, hr, h⟩ := ih x hx
      exact ⟨r, List.mem_cons_of_mem it hr, h⟩

end Merging

end

/-! ### The values -/

/-- The ends are closed, open or infinite. -/
def Interval.Plain (i : Interval α) : Prop := i.from_.type ≠ .next ∧ i.to_.type ≠ .next

theorem contains_iff_place {i : Interval α} (h : i.Plain) (v : α) :
    i.contains v ↔ i.lo ≤ below v ∧ above v ≤ i.hi := by
  obtain ⟨⟨x, s⟩, y, t⟩ := i
  obtain ⟨hs, ht⟩ := h
  refine decide_eq_true_iff.trans (and_congr ?_ ?_)
  · cases s <;> simp [Interval.lo, Endpoint.beginPlace, above_le_iff] at hs ⊢
  · cases t <;> simp [Interval.hi, Endpoint.endPlace, above_le_iff] at ht ⊢

omit [LinearOrder α] in
theorem eq_of_beginPlace {e : Endpoint α} {v : α} (he : e.type ≠ .next)
    (h : e.beginPlace = above v) : e = ⟨v, .open_⟩ := by
  rcases e with ⟨x, t⟩
  cases t <;> simp [Endpoint.beginPlace] at he h ⊢
  exact h

omit [LinearOrder α] in
theorem eq_of_endPlace {e : Endpoint α} {v : α} (he : e.type ≠ .next)
    (h : e.endPlace = below v) : e = ⟨v, .open_⟩ := by
  rcases e with ⟨x, t⟩
  cases t <;> simp [Endpoint.endPlace] at he h ⊢
  exact h

/-- Two intervals of which one ends where the other begins share no value. -/
theorem disjoint_of_le {i j : Interval α} (hi : i.Plain) (hj : j.Plain) (h : i.hi ≤ j.lo) :
    ∀ v, ¬ (i.contains v ∧ j.contains v) := by
  intro v ⟨hiv, hjv⟩
  have hle := ((contains_iff_place hi v).mp hiv).2.trans
    (h.trans ((contains_iff_place hj v).mp hjv).1)
  exact absurd (below_lt_above.mpr le_rfl) (not_lt.mpr hle)

/-- The joined interval `it` on its way through the sorted vector: the end is the one of a given
interval that does not begin in front of it. -/
structure Block (vec rest : List (Interval α)) (it : Interval α) : Prop where
  plain : it.Plain
  last : ∃ x ∈ vec, x.to_ = it.to_ ∧ (∀ y ∈ rest, x.Goes y) ∧ it.lo ≤ x.lo ∧
    (x.lo ≤ x.hi ∨ x.lo = it.lo)

section
variable {vec rest result : List (Interval α)} {it it1 : Interval α}
  (hplain : ∀ i ∈ vec, i.Plain)
include hplain

theorem Block.start (hmem : it ∈ vec) (hs : ∀ y ∈ rest, it.Goes y) : Block vec rest it :=
  ⟨hplain it hmem, it, hmem, rfl, hs, le_rfl, .inr rfl⟩

theorem Block.extend (h : Block vec (it1 :: rest) it) (hmem : it1 ∈ vec) (hgoes : it.Goes it1)
    (hs : ∀ y ∈ rest, it1.Goes y) (hint : it.intersects it1) :
    Block vec rest (it.extend it1) := by
  have hfrom := extend_from hgoes
  have hlo := extend_lo hgoes
  by_cases hless : it.to_.less it1.to_ false false
  · have hto : (it.extend it1).to_ = it1.to_ := by rw [Interval.extend, if_pos hless]
    refine ⟨⟨hfrom ▸ h.plain.1, hto ▸ (hplain it1 hmem).2⟩, it1, hmem, hto.symm, hs, ?_, .inl ?_⟩
    · rw [hlo]
      exact hgoes.lo_le
    · rcases (less_to _ _).mp hless with hlt | htop
      · rcases le_or_gap ((intersects_iff it it1).mp hint).1 with hle | ⟨v, hv, hv'⟩
        · exact hle.trans hlt.le
        · rw [hv', above_le_iff, ← hv]
          exact hlt
      · exact le_top.trans_eq htop.symm
  · have hto : (it.extend it1).to_ = it.to_ := by rw [Interval.extend, if_neg hless]
    obtain ⟨x, hx, hxto, hxs, hxlo, hxend⟩ := h.last
    refine ⟨⟨hfrom ▸ h.plain.1, hto ▸ h.plain.2⟩, x, hx, hxto.trans hto.symm,
      fun y hy => hxs y (List.mem_cons_of_mem it1 hy), ?_, ?_⟩
    · rw [hlo]
      exact hxlo
    · rw [hlo]
      exact hxend

/-- **Joined intervals** have the values of the two, and of the gap between them. -/
theorem Block.values (hgaps : GapsCovered vec) (h : Block vec (it1 :: rest) it) (hmem : it1 ∈ vec)
    (hgoes : it.Goes it1) (hs : ∀ y ∈ rest, it1.Goes y) (hint : it.intersects it1)
    (hvalues : ∀ v, it.contains v → ∃ k ∈ vec, k.contains v) :
    ∀ v, (it.extend it1).contains v → ∃ k ∈ vec, k.contains v := by
  intro v hv
  obtain ⟨hlo, hhi⟩ := (contains_iff_place (h.extend hplain hmem hgoes hs hint).plain v).mp hv
  rw [extend_lo hgoes] at hlo
  rw [extend_hi, le_max_iff] at hhi
  by_cases hend : above v ≤ it.hi
  · exact hvalues v ((contains_iff_place h.plain v).mpr ⟨hlo, hend⟩)
  have hhi1 := hhi.resolve_left hend
  have hbelow : it.hi ≤ below v := lt_above_iff.mp (not_le.mp hend)
  by_cases hbegin : it1.lo ≤ below v
  · exact ⟨it1, hmem, (contains_iff_place (hplain it1 hmem) v).mpr ⟨hbegin, hhi1⟩⟩
  have habove : above v ≤ it1.lo := above_le_iff.mpr (not_le.mp hbegin)
  rcases le_or_gap ((intersects_iff it it1).mp hint).1 with hle | ⟨w, hw, hw'⟩
  · exact absurd (habove.trans (hle.trans hbelow)) (not_le.mpr (below_lt_above.mpr le_rfl))
  -- the value is the one between the two open ends
  · have hwv : w = v := by
      rw [hw, below_le_below] at hbelow
      rw [hw', above_le_above] at habove
      exact le_antisymm hbelow habove
    subst hwv
    obtain ⟨x, hx, hxto, -, -, hxend⟩ := h.last
    have hxhi : x.hi = below w := by rw [Interval.hi, hxto, ← hw, Interval.hi]
    have hxlo : x.lo ≤ below w := by
      rcases hxend with hle | heq
      · exact hle.trans_eq hxhi
      · exact heq.trans_le hlo
    have hclosed : (⟨w, .closed⟩ : Endpoint α).type ≠ .next := by simp
    refine hgaps w x hx it1 hmem (eq_of_endPlace (hplain x hx).2 hxhi)
      (eq_of_beginPlace (hplain it1 hmem).1 hw') ?_ ?_
    · exact (contains_iff_place (i := ⟨x.from_, ⟨w, .closed⟩⟩) ⟨(hplain x hx).1, hclosed⟩ w).mpr
        ⟨hxlo, le_rfl⟩
    · exact (contains_iff_place (i := ⟨⟨w, .closed⟩, it1.to_⟩) ⟨hclosed, (hplain it1 hmem).2⟩
        w).mpr ⟨le_rfl, hhi1⟩

/-- **Nothing but the given values.** -/
theorem Merging.values (hgaps : GapsCovered vec) (h : Merging it rest result) :
    (∀ y ∈ rest, y ∈ vec) → Block vec rest it → (∀ v, it.contains v → ∃ k ∈ vec, k.contains v) →
      ∀ r ∈ result, ∀ v, r.contains v → ∃ k ∈ vec, k.contains v := by
  induction h with
  | last it =>
    intro _ _ hvalues r hr
    exact List.mem_singleton.mp hr ▸ hvalues
  | @join it it1 rest result goes sorted meets _ ih =>
    intro hmem hblock hvalues
    have hmem1 := hmem it1 List.mem_cons_self
    have hrest := (List.pairwise_cons.mp sorted).1
    exact ih (fun y hy => hmem y (List.mem_cons_of_mem it1 hy))
      (hblock.extend hplain hmem1 goes hrest meets)
      (hblock.values hplain hgaps hmem1 goes hrest meets hvalues)
  | @next it it1 rest result _ sorted _ _ ih =>
    intro hmem _ hvalues r hr
    have hmem1 := hmem it1 List.mem_cons_self
    rcases List.mem_cons.mp hr with rfl | hr
    · exact hvalues
    · exact ih (fun y hy => hmem y (List.mem_cons_of_mem it1 hy))
        (.start hplain hmem1 (List.pairwise_cons.mp sorted).1) (fun v hv => ⟨it1, hmem1, hv⟩) r hr

omit hplain in
/-- What stands behind a joined interval does not begin before its end. -/
theorem Block.end_le {x : Interval α} (hu : Undisturbed vec) (h : Block vec (it1 :: rest) it)
    (hmem : ∀ y ∈ it1 :: rest, y ∈ vec) (hs : (it1 :: rest).Pairwise Interval.Goes)
    (hint : ¬ it.intersects it1) (hx : x ∈ it1 :: rest) (hrev : ¬ x.Reversed) :
    it.hi ≤ x.lo := by
  have hle : it1.lo ≤ x.lo := lo_le_of_sorted hs x hx
  rw [intersects_iff, ← not_or, not_not] at hint
  rcases hint with hapart | hapart
  · exact (hapart.trans_le hle).le
  · obtain ⟨a, ha, hato, hagoes, halo, -⟩ := h.last
    have hgoes := hagoes it1 List.mem_cons_self
    have hapart' : Apart it1.hi a.lo := hapart.trans_le halo
    have hx' : x ∈ rest := (List.mem_cons.mp hx).resolve_left fun heq =>
      hrev ((reversed_iff x).mpr (heq ▸ hapart'.trans_le hgoes.lo_le))
    have hless := hu a ha it1 (hmem it1 List.mem_cons_self) x (hmem x hx) hgoes.not_less_from
      ((List.pairwise_cons.mp hs).1 x hx').not_less_from ((less_to_from _ _).mpr hapart') hrev
    have hend := ((less_to_from _ _).mp hless).le
    rw [hato] at hend
    exact hend

theorem Merging.plain_of_mem (h : Merging it rest result) (hmem : ∀ y ∈ it :: rest, y ∈ vec) :
    ∀ r ∈ result, r.Plain := by
  intro r hr
  obtain ⟨x, hx, hfrom, -⟩ := h.begin_of_mem r hr
  obtain ⟨y, hy, hto⟩ := h.end_of_mem r hr
  exact ⟨hfrom ▸ (hplain x (hmem x hx)).1, hto ▸ (hplain y (hmem y hy)).2⟩

/-- **The intervals of the result share no value.** -/
theorem Merging.disjoint (hu : Undisturbed vec) (h : Merging it rest result) :
    (∀ y ∈ rest, y ∈ vec) → Block vec rest it →
      result.Pairwise fun r s => ∀ v, ¬ (r.contains v ∧ s.contains v) := by
  induction h with
  | last it => intro _ _; exact List.pairwise_singleton _ it
  | @join it it1 rest result goes sorted meets _ ih =>
    intro hmem hblock
    exact ih (fun y hy => hmem y (List.mem_cons_of_mem it1 hy)) (hblock.extend hplain
      (hmem it1 List.mem_cons_self) goes (List.pairwise_cons.mp sorted).1 meets)
  | @next it it1 rest result _ sorted misses loop ih =>
    intro hmem hblock
    have hstart : Block vec rest it1 :=
      .start hplain (hmem it1 List.mem_cons_self) (List.pairwise_cons.mp sorted).1
    refine List.pairwise_cons.mpr ⟨fun s hs => ?_,
      ih (fun y hy => hmem y (List.mem_cons_of_mem it1 hy)) hstart⟩
    have hsplain := loop.plain_of_mem hplain hmem s hs
    obtain ⟨x, hx, hxfrom, hxrev⟩ := loop.begin_of_mem s hs
    by_cases hrev : x.Reversed
    · have hsrev := ((reversed_iff s).mp (hxrev hrev)).le
      intro v ⟨_, hv⟩
      exact disjoint_of_le hsplain hsplain hsrev v ⟨hv, hv⟩
    · have hle := hblock.end_le hu hmem sorted misses hx hrev
      refine disjoint_of_le hblock.plain hsplain (hle.trans_eq ?_)
      rw [Interval.lo, Interval.lo, hxfrom]

omit hplain in
/-- Where no interval ends before it begins, the result is apart in its order. -/
theorem Merging.apart (h : Merging it rest result) :
    (∀ y ∈ rest, ¬ y.Reversed) → result.Pairwise fun r s => Apart r.hi s.lo := by
  induction h with
  | last it => intro _; exact List.pairwise_singleton _ it
  | @join it it1 rest result _ _ _ _ ih =>
    intro hrev
    exact ih fun y hy => hrev y (List.mem_cons_of_mem it1 hy)
  | @next it it1 rest result goes sorted misses loop ih =>
    intro hrev
    rw [intersects_iff, ← not_or, not_not] at misses
    have hapart : Apart it.hi it1.lo := misses.resolve_right fun h =>
      hrev it1 List.mem_cons_self ((reversed_iff it1).mpr (h.trans_le goes.lo_le))
    refine List.pairwise_cons.mpr ⟨fun s hs => ?_,
      ih fun y hy => hrev y (List.mem_cons_of_mem it1 hy)⟩
    obtain ⟨x, hx, hfrom, -⟩ := loop.begin_of_mem s hs
    have hlo : s.lo = x.lo := by rw [Interval.lo, Interval.lo, hfrom]
    rw [hlo]
    exact hapart.trans_le (lo_le_of_sorted sorted x hx)

end

/-! ### The result -/

section
variable {vec : List (Interval α)} {order : Order}

/-- What the sort does, where it has a meaning. -/
theorem sortAndMerge_spec (order : Order) (hne : vec ≠ []) (hc : Comparable vec) : ∃ it rest,
    (it :: rest).Pairwise Interval.Goes ∧ (∀ y, y ∈ it :: rest ↔ y ∈ vec) ∧
      sortAndMerge vec order = some (if order = .desc then (mergeFrom it rest).reverse
        else mergeFrom it rest) := by
  have hsorted : (vec.insertionSort fun i j => ¬ j.less i).Pairwise Interval.Goes := by
    have htrans : ∀ i j k : Interval α, i.Goes j → j.Goes k → i.Goes k := fun _ _ _ => .trans
    refine pairwise_insertionSort htrans (hc.imp ?_)
    intro i j h
    exact (not_and_or.mp h).symm
  have hmem : ∀ y, y ∈ vec.insertionSort (fun i j => ¬ j.less i) ↔ y ∈ vec :=
    fun y => List.mem_insertionSort _
  unfold sortAndMerge
  rw [if_pos hc]
  cases hsort : vec.insertionSort fun i j => ¬ j.less i with
  | nil =>
    rw [hsort] at hmem
    have hnil : ∀ y, y ∉ vec := fun y hy => List.not_mem_nil ((hmem y).mpr hy)
    exact absurd (List.eq_nil_iff_forall_not_mem.mpr hnil) hne
  | cons it rest =>
    rw [hsort] at hsorted hmem
    exact ⟨it, rest, hsorted, hmem, rfl⟩

theorem comparable_of_sortsAndMerges (h : SortsAndMerges vec order) : Comparable vec := by
  obtain ⟨result, heq, -⟩ := h
  by_contra hc
  rw [sortAndMerge, if_neg hc] at heq
  cases heq

theorem sortsAndMerges_of_gapsCovered (hne : vec ≠ []) (hplain : ∀ i ∈ vec, i.Plain)
    (hc : Comparable vec) (hu : Undisturbed vec) (hgaps : GapsCovered vec) :
    SortsAndMerges vec order := by
  obtain ⟨it, rest, hs, hmem, heq⟩ := sortAndMerge_spec order hne hc
  have hit : it ∈ vec := (hmem it).mp List.mem_cons_self
  have hmem' : ∀ y ∈ rest, y ∈ vec := fun y hy => (hmem y).mp (List.mem_cons_of_mem it hy)
  have hblock := Block.start hplain hit (List.pairwise_cons.mp hs).1
  have hmerging := merging_mergeFrom hs
  have hdisjoint := hmerging.disjoint hplain hu hmem' hblock
  have hsorted := hmerging.sorted_result
  have hunion : ∀ v, (∃ r ∈ mergeFrom it rest, r.contains v) ↔ ∃ i ∈ vec, i.contains v := by
    intro v
    constructor
    · rintro ⟨r, hr, hv⟩
      exact hmerging.values hplain hgaps hmem' hblock (fun v hv => ⟨it, hit, hv⟩) r hr v hv
    · rintro ⟨i, hi, hv⟩
      obtain ⟨r, hr, hlo, hhi⟩ := hmerging.exists_mem i ((hmem i).mpr hi)
      have hv' := (contains_iff_place (hplain i hi) v).mp hv
      have hrplain := hmerging.plain_of_mem hplain (fun y hy => (hmem y).mp hy) r hr
      exact ⟨r, hr, (contains_iff_place hrplain v).mpr
        ⟨hlo.trans hv'.1, hv'.2.trans hhi⟩⟩
  refine ⟨_, heq, ?_⟩
  cases order with
  | asc => exact ⟨hsorted, hdisjoint, hunion⟩
  | desc =>
    refine ⟨List.pairwise_reverse.mpr hsorted,
      List.pairwise_reverse.mpr (hdisjoint.imp fun h v hv => h v hv.symm), fun v => ?_⟩
    rw [← hunion v]
    simp only [if_true, List.mem_reverse]

/-- Where no interval ends before it begins, none stands between two that have to be joined. -/
theorem undisturbed_of_not_reversed (hrev : ∀ i ∈ vec, ¬ i.Reversed) : Undisturbed vec := by
  intro i _ k hk j _ hki _ hless _
  rw [less_from, not_or, not_lt] at hki
  exact absurd ((reversed_iff k).mpr (((less_to_from _ _).mp hless).trans_le hki.1)) (hrev k hk)

/-- The values of the gap that two open ends are joined over. -/
theorem gapsCovered_of_sortsAndMerges (hne : vec ≠ []) (hplain : ∀ i ∈ vec, i.Plain)
    (hrev : ∀ i ∈ vec, ¬ i.Reversed) (h : SortsAndMerges vec order) : GapsCovered vec := by
  obtain ⟨it, rest, hs, hmem, heq⟩ :=
    sortAndMerge_spec order hne (comparable_of_sortsAndMerges h)
  obtain ⟨result, hresult, hmerges⟩ := h
  rw [heq, Option.some.injEq] at hresult
  have hcovered : ∀ v, ∀ r ∈ mergeFrom it rest, r.contains v → ∃ k ∈ vec, k.contains v := by
    intro v r hr hv
    refine (hmerges.union v).mp ⟨r, ?_, hv⟩
    rw [← hresult]
    split
    · exact List.mem_reverse.mpr hr
    · exact hr
  have hmerging := merging_mergeFrom hs
  have hrplain := hmerging.plain_of_mem hplain fun y hy => (hmem y).mp hy
  have hrest : ∀ y ∈ rest, ¬ y.Reversed :=
    fun y hy => hrev y ((hmem y).mp (List.mem_cons_of_mem it hy))
  intro v i hi j hj hito hjfrom hiv hjv
  have hclosed : (⟨v, .closed⟩ : Endpoint α).type ≠ .next := by simp
  have hilo : i.lo ≤ below v :=
    ((contains_iff_place (i := ⟨i.from_, ⟨v, .closed⟩⟩) ⟨(hplain i hi).1, hclosed⟩ v).mp hiv).1
  have hjhi : above v ≤ j.hi :=
    ((contains_iff_place (i := ⟨⟨v, .closed⟩, j.to_⟩) ⟨hclosed, (hplain j hj).2⟩ v).mp hjv).2
  have hihi : i.hi = below v := by rw [Interval.hi, hito]; rfl
  have hjlo : j.lo = above v := by rw [Interval.lo, hjfrom]; rfl
  obtain ⟨r, hr, hrlo, hrhi⟩ := hmerging.exists_mem i ((hmem i).mpr hi)
  obtain ⟨s, hsm, hslo, hshi⟩ := hmerging.exists_mem j ((hmem j).mpr hj)
  by_cases hrv : above v ≤ r.hi
  · exact hcovered v r hr ((contains_iff_place (hrplain r hr) v).mpr ⟨hrlo.trans hilo, hrv⟩)
  by_cases hsv : s.lo ≤ below v
  · exact hcovered v s hsm ((contains_iff_place (hrplain s hsm) v).mpr ⟨hsv, hjhi.trans hshi⟩)
  -- otherwise the two lie apart on the two sides of the value, which the code does not see
  have hrend : r.hi = below v :=
    le_antisymm (lt_above_iff.mp (not_le.mp hrv)) (hihi ▸ hrhi)
  have hrs : r.lo < s.lo := (hrlo.trans hilo).trans_lt (not_le.mp hsv)
  have hpairs : (mergeFrom it rest).Pairwise fun r s =>
      (r.Goes s ∧ Apart r.hi s.lo) ∨ (s.Goes r ∧ Apart s.hi r.lo) :=
    (hmerging.sorted_result.and (hmerging.apart hrest)).imp Or.inl
  have hsymm : Std.Symm fun r s : Interval α =>
      (r.Goes s ∧ Apart r.hi s.lo) ∨ (s.Goes r ∧ Apart s.hi r.lo) := ⟨fun _ _ h => h.symm⟩
  rcases hpairs.forall hr hsm (fun heq => hrs.ne (heq ▸ rfl)) with h | h
  · have hapart := h.2.trans_le (hslo.trans_eq hjlo)
    rw [hrend] at hapart
    exact absurd hapart not_apart_gap
  · exact absurd h.1.lo_le (not_le.mpr hrs)

end

end Query

end Hatn.Db
