import Mathlib.Data.List.Sort
import Mathlib.Data.List.TakeWhile
import Mathlib.Order.Basic

/-!
# Cuts of sorted lists

In a sorted list the elements below a bound are in front, so what a search from the front leaves
and what it takes are the elements on the two sides of the bound.  A list can be sorted when its
elements, not all elements of their type, can be compared with each other.
-/

namespace Hatn.Order

variable {α : Type*} {r : α → α → Prop} {p : α → Bool}

theorem takeWhile_eq_filter {l : List α} (hl : l.Pairwise r)
    (hp : ∀ a b, r a b → p b = true → p a = true) : l.takeWhile p = l.filter p := by
  induction l with
  | nil => rfl
  | cons a l ih =>
    obtain ⟨hfront, hl⟩ := List.pairwise_cons.mp hl
    by_cases ha : p a = true
    · rw [List.takeWhile_cons_of_pos ha, List.filter_cons_of_pos ha, ih hl]
    · rw [List.takeWhile_cons_of_neg ha, List.filter_cons_of_neg ha, eq_comm,
        List.filter_eq_nil_iff]
      exact fun b hb h => ha (hp a b (hfront b hb) h)

theorem dropWhile_eq_filter {l : List α} (hl : l.Pairwise r)
    (hp : ∀ a b, r a b → p b = true → p a = true) : l.dropWhile p = l.filter fun a => !p a := by
  induction l with
  | nil => rfl
  | cons a l ih =>
    obtain ⟨hfront, hl⟩ := List.pairwise_cons.mp hl
    by_cases ha : p a = true
    · rw [List.dropWhile_cons_of_pos ha, List.filter_cons_of_neg (by rw [ha]; decide), ih hl]
    · have hall : ∀ b ∈ a :: l, (!p b) = true := by
        rintro b hb
        rw [Bool.not_eq_true']
        obtain rfl | hb := List.mem_cons.mp hb
        · exact Bool.eq_false_iff.mpr ha
        · exact Bool.eq_false_iff.mpr fun h => ha (hp a b (hfront b hb) h)
      rw [List.dropWhile_cons_of_neg ha, List.filter_eq_self.mpr hall]

section
variable [LinearOrder α] {l : List α} (hl : l.Pairwise (· < ·)) {a b : α}
include hl

/-- What is at the lower bound and behind it. -/
theorem mem_dropWhile_lt_iff : a ∈ l.dropWhile (· < b) ↔ a ∈ l ∧ b ≤ a := by
  rw [dropWhile_eq_filter hl fun _ _ h h' => decide_eq_true (h.trans (of_decide_eq_true h')),
    List.mem_filter, Bool.not_eq_true', decide_eq_false_iff_not, not_lt]

theorem mem_takeWhile_lt_iff : a ∈ l.takeWhile (· < b) ↔ a ∈ l ∧ a < b := by
  rw [takeWhile_eq_filter hl fun _ _ h h' => decide_eq_true (h.trans (of_decide_eq_true h')),
    List.mem_filter, decide_eq_true_iff]

theorem mem_takeWhile_not_lt_iff : a ∈ l.takeWhile (fun a => ¬ b < a) ↔ a ∈ l ∧ a ≤ b := by
  have hdown : ∀ a a' : α, a < a' → decide (¬ b < a') = true → decide (¬ b < a) = true :=
    fun a a' h h' => decide_eq_true fun hlt => absurd (hlt.trans h) (of_decide_eq_true h')
  rw [takeWhile_eq_filter hl hdown, List.mem_filter, decide_eq_true_iff, not_lt]

/-- The element at the lower bound is the least one that is not below the bound. -/
theorem dropWhile_lt_eq_cons {rest : List α} (h : l.dropWhile (· < b) = a :: rest) :
    a ∈ l ∧ b ≤ a ∧ ∀ a' ∈ l, b ≤ a' → a ≤ a' := by
  have hmem : a ∈ l.dropWhile (· < b) := by
    rw [h]
    exact List.mem_cons_self
  obtain ⟨ha, hle⟩ := (mem_dropWhile_lt_iff hl).mp hmem
  refine ⟨ha, hle, fun a' ha' hle' => ?_⟩
  have hmem' := (mem_dropWhile_lt_iff hl).mpr ⟨ha', hle'⟩
  have hsorted : (a :: rest).Pairwise (· < ·) := h ▸ hl.sublist (List.dropWhile_sublist _)
  rw [h] at hmem'
  obtain rfl | hmem' := List.mem_cons.mp hmem'
  · exact le_rfl
  · exact le_of_lt ((List.pairwise_cons.mp hsorted).1 a' hmem')

end

/-! ### Sorting -/

section
variable [DecidableRel r] (htrans : ∀ a b c, r a b → r b c → r a c)
include htrans

theorem pairwise_orderedInsert {a : α} {l : List α} (hcomp : ∀ b ∈ l, r a b ∨ r b a)
    (hl : l.Pairwise r) : (l.orderedInsert r a).Pairwise r := by
  induction l with
  | nil => exact List.pairwise_singleton r a
  | cons b l ih =>
    obtain ⟨hb, hl'⟩ := List.pairwise_cons.mp hl
    by_cases hab : r a b
    · rw [List.orderedInsert_cons_of_le (r := r) l hab]
      refine List.pairwise_cons.mpr ⟨fun c hc => ?_, hl⟩
      rcases List.mem_cons.mp hc with rfl | hc
      · exact hab
      · exact htrans a b c hab (hb c hc)
    · rw [List.orderedInsert_cons, if_neg hab]
      refine List.pairwise_cons.mpr ⟨fun c hc => ?_,
        ih (fun c hc => hcomp c (List.mem_cons_of_mem b hc)) hl'⟩
      rcases (List.mem_orderedInsert r).mp hc with rfl | hc
      · exact (hcomp b List.mem_cons_self).resolve_left hab
      · exact hb c hc

/-- **Sorting** a list whose elements can be compared with each other. -/
theorem pairwise_insertionSort {l : List α} (hl : l.Pairwise fun a b => r a b ∨ r b a) :
    (l.insertionSort r).Pairwise r := by
  induction l with
  | nil => exact List.Pairwise.nil
  | cons a l ih =>
    obtain ⟨ha, hl⟩ := List.pairwise_cons.mp hl
    exact pairwise_orderedInsert htrans (fun b hb => ha b ((List.mem_insertionSort r).mp hb))
      (ih hl)

end

end Hatn.Order
