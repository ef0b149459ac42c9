import Hatn.Order.StrictWeak
import Mathlib.Tactic.Common

/-!
# Flat maps and flat sets

`FlatMap` and `FlatSet` keep their elements in a vector in the order of a comparison.  The
elements of a set are its keys, those of a map are pairs with a key; what both share is
written for elements that have a key.

All lookups go by a binary search that stops at any element equivalent to the key.  They
answer as a `std::map` or `std::set` with the same history if and only if

* what is loaded at once has no two equivalent keys, also with the elements that are there:
  `sort` leaves both of them in the vector,
* what is assigned over an element has the very key of it: `insert_or_assign` and
  `emplace_or_assign` replace the key too.

The bounds of a set use a comparison constructed by default, and not the one of the set.
-/

namespace Hatn.Common.FlatContainer

open Hatn.Order

variable {κ ι : Type} (o : StrictWeak κ) (key : ι → κ)

/-! ### The binary search -/

/-- The loop of `detail::lowerBound` over `len` elements from `first`.  It stops at an
equivalent element, wherever it meets one. -/
def lowerBoundLoop (items : List ι) (k : κ) (first len : Nat) : Nat :=
  if 0 < len then
    match items[first + len / 2]? with
    | none => first
    | some middle =>
      if o.less (key middle) k then
        lowerBoundLoop items k (first + len / 2 + 1) (len - len / 2 - 1)
      else if o.less k (key middle) then lowerBoundLoop items k first (len / 2)
      else first + len / 2
  else first
termination_by len

def lowerBound (items : List ι) (k : κ) : Nat := lowerBoundLoop o key items k 0 items.length

/-- `detail::binary_find`: the position of what is found, or the end. -/
def binary_find (items : List ι) (k : κ) : Nat :=
  match items[lowerBound o key items k]? with
  | none => items.length
  | some x => if o.less k (key x) then items.length else lowerBound o key items k

/-- The element that `find` points to. -/
def find (items : List ι) (k : κ) : Option ι := items[binary_find o key items k]?

/-- `std::upper_bound`: the first element that is greater than the key. -/
def upperBound (items : List ι) (k : κ) : Nat := items.findIdx fun x => o.less k (key x)

/-! ### The operations of both containers -/

/-- What an insertion returns: the vector, the position of the element, and whether it was
created. -/
structure Insertion (ι : Type) where
  items : List ι
  index : Nat
  created : Bool

/-- `vector::insert` before a position -/
def insertAt (items : List ι) (it : Nat) (val : ι) : List ι := items.take it ++ val :: items.drop it

/-- `FlatContainer::insert` -/
def insert (items : List ι) (val : ι) (orAssign : Bool) : Insertion ι :=
  let it := lowerBound o key items (key val)
  match items[it]? with
  | none => ⟨insertAt items it val, it, true⟩
  | some x =>
    if !o.less (key val) (key x) && !o.less (key x) (key val) then
      ⟨if orAssign then items.set it val else items, it, false⟩
    else ⟨insertAt items it val, it, true⟩

/-- `FlatContainer::erase` of a key -/
def erase (items : List ι) (k : κ) : List ι :=
  let it := binary_find o key items k
  if it ≠ items.length then items.eraseIdx it else items

/-- `std::sort`: any function that leaves the elements, in an order that the comparison
does not contradict. -/
structure Sorting where
  sort : List ι → List ι
  perm (items : List ι) : (sort items).Perm items
  sorted (items : List ι) :
    (sort items).Pairwise fun x y => o.less (key y) (key x) = false

/-- Sorting by merges. -/
def mergeSorting : Sorting o key where
  sort items := items.mergeSort fun x y => !o.less (key y) (key x)
  perm items := List.mergeSort_perm items _
  sorted items := by
    have htrans : ∀ a b c : ι, (!o.less (key b) (key a)) = true → (!o.less (key c) (key b)) = true →
        (!o.less (key c) (key a)) = true := by
      intro a b c hab hbc
      rw [Bool.not_eq_true'] at hab hbc ⊢
      exact o.negTrans hbc hab
    have htotal : ∀ a b : ι, ((!o.less (key b) (key a)) || !o.less (key a) (key b)) = true := by
      intro a b
      cases hab : o.less (key a) (key b) with
      | false => simp
      | true => simp [StrictWeak.asymm hab]
    refine (List.pairwise_mergeSort htrans htotal items).imp fun h => ?_
    rwa [Bool.not_eq_true'] at h

variable {o key} (sorting : Sorting o key)

/-- The constructors from a list and from a vector. -/
def construct (items : List ι) : List ι := sorting.sort items

/-- `loadRange`: `beginRawInsert`, `rawInsert` of all elements, and `endRawInsert`. -/
def loadRange (items range : List ι) : List ι := sorting.sort (items ++ range)

/-! ### The operations of a map -/

section Map

variable {ν : Type} (o : StrictWeak κ)

/-- `FlatMap::doEmplace` -/
def doEmplace (items : List (κ × ν)) (k : κ) (val : ν) (assign : Bool) : Insertion (κ × ν) :=
  let it := lowerBound o Prod.fst items k
  let created := match items[it]? with
    | none => true
    | some x => !(!o.less k x.1 && !o.less x.1 k)
  if created then ⟨insertAt items it (k, val), it, true⟩
  else ⟨if assign then items.set it (k, val) else items, it, false⟩

/-- `FlatMap::operator[]`: the vector, and the position that the returned reference is of. -/
def subscript [Inhabited ν] (items : List (κ × ν)) (k : κ) : List (κ × ν) × Nat :=
  let it := binary_find o Prod.fst items k
  if it = items.length then
    let ret := insert o Prod.fst items (k, default) false
    (ret.items, ret.index)
  else (items, it)

/-- The value is assigned through a reference to a position. -/
def assignAt (items : List (κ × ν)) (it : Nat) (val : ν) : List (κ × ν) :=
  items.modify it fun x => (x.1, val)

end Map

/-! ### What the search finds -/

section Search

variable {items : List ι} {k : κ}

theorem isLowerBound_of_equiv {f b : List ι} {x : ι} (h : o.Ordered key (f ++ x :: b))
    (he : o.Equiv (key x) k) : o.IsLowerBound key (f ++ x :: b) k f.length where
  le_length := by simp
  below y hy := by
    rw [List.take_left'] at hy
    · exact h.below_of_not_less he.2 y hy
    · rfl
  above y hy := by
    rw [List.drop_left' rfl] at hy
    rcases List.mem_cons.mp hy with rfl | hy
    · exact he.1
    · exact h.above_of_not_less he.1 y hy

theorem split_at {m : Nat} {x : ι} (hx : items[m]? = some x) :
    items = items.take m ++ x :: items.drop (m + 1) := by
  obtain ⟨hm, rfl⟩ := List.getElem?_eq_some_iff.mp hx
  rw [← List.drop_eq_getElem_cons hm, List.take_append_drop]

/-- The loop finds the lower bound when all before its range is less than the key and all
after it is not. -/
theorem lowerBoundLoop_spec (h : o.Ordered key items) {first len : Nat}
    (hl : first + len ≤ items.length)
    (below : ∀ x ∈ items.take first, o.less (key x) k = true)
    (above : ∀ x ∈ items.drop (first + len), o.less (key x) k = false) :
    o.IsLowerBound key items k (lowerBoundLoop o key items k first len) := by
  induction first, len using lowerBoundLoop.induct o key items k with
  | case1 first len hlen hnone =>
    have := List.getElem?_eq_none_iff.mp hnone
    omega
  | case2 first len hlen middle hmid hless ih =>
    rw [lowerBoundLoop, if_pos hlen, hmid]
    simp only [hless, if_true]
    have hs := split_at hmid
    refine ih (by omega) (fun x hx => ?_) fun x hx => above x (by
      rwa [show first + len / 2 + 1 + (len - len / 2 - 1) = first + len by omega] at hx)
    have hlt : first + len / 2 < items.length := by omega
    rw [hs] at h
    have hx' : x ∈ items.take (first + len / 2) ∨ x = middle := by
      rw [List.take_add_one, hmid] at hx
      simpa using hx
    rcases hx' with hx' | rfl
    · exact o.trans ((List.pairwise_append.mp h).2.2 x hx' middle List.mem_cons_self) hless
    · exact hless
  | case3 first len hlen middle hmid hless hgreater ih =>
    rw [lowerBoundLoop, if_pos hlen, hmid]
    simp only [hless, hgreater, if_true]
    refine ih (by omega) below fun x hx => ?_
    have hs := split_at hmid
    rw [hs] at h
    have hmk := Bool.not_eq_true _ ▸ hless
    rw [List.drop_eq_getElem_cons (by omega)] at hx
    obtain ⟨hlt, hget⟩ := List.getElem?_eq_some_iff.mp hmid
    rw [hget] at hx
    rcases List.mem_cons.mp hx with rfl | hx
    · exact hmk
    · exact h.above_of_not_less hmk x hx
  | case4 first len hlen middle hmid hless hgreater =>
    rw [lowerBoundLoop, if_pos hlen, hmid]
    simp only [hless, hgreater]
    have hs := split_at hmid
    obtain ⟨hlt, -⟩ := List.getElem?_eq_some_iff.mp hmid
    have he : o.Equiv (key middle) k :=
      ⟨Bool.not_eq_true _ ▸ hless, Bool.not_eq_true _ ▸ hgreater⟩
    rw [hs] at h
    have hb := isLowerBound_of_equiv h he
    rw [← hs, List.length_take_of_le (Nat.le_of_lt hlt)] at hb
    exact hb
  | case5 first len hlen =>
    rw [lowerBoundLoop, if_neg hlen]
    have h0 : len = 0 := by omega
    subst h0
    exact ⟨hl, below, above⟩

theorem lowerBound_spec (h : o.Ordered key items) :
    o.IsLowerBound key items k (lowerBound o key items k) :=
  lowerBoundLoop_spec h (by omega) (by simp) (by simp)

/-- **The search**: it stops at an equivalent element, or where the key would go. -/
theorem lowerBound_cases (h : o.Ordered key items) (k : κ) :
    (∃ f x b, items = f ++ x :: b ∧ lowerBound o key items k = f.length ∧ o.Equiv (key x) k) ∨
    ∃ f b, items = f ++ b ∧ lowerBound o key items k = f.length ∧
      (∀ y ∈ f, o.less (key y) k = true) ∧ ∀ y ∈ b, o.less k (key y) = true := by
  have hs := lowerBound_spec (k := k) h
  generalize lowerBound o key items k = p at hs
  have hlen : (items.take p).length = p := List.length_take_of_le hs.le_length
  have happ := (List.take_append_drop p items).symm
  cases hd : items.drop p with
  | nil =>
    rw [hd] at happ
    exact .inr ⟨_, _, happ, hlen.symm, hs.below, by simp⟩
  | cons x b =>
    rw [hd] at happ
    have habove := hs.above
    rw [hd] at habove
    have hx := habove x List.mem_cons_self
    cases hk : o.less k (key x) with
    | false => exact .inl ⟨_, x, b, happ, hlen.symm, hx, hk⟩
    | true =>
      refine .inr ⟨_, _, happ, hlen.symm, hs.below, fun y hy => ?_⟩
      rcases List.mem_cons.mp hy with rfl | hy
      · exact hk
      · rw [happ] at h
        exact o.trans hk ((List.pairwise_cons.mp (List.pairwise_append.mp h).2.1).1 y hy)

theorem getElem?_length_append {f b : List ι} {x : ι} : (f ++ x :: b)[f.length]? = some x := by
  simp

theorem not_equiv_of_apart {f b : List ι} (hf : ∀ y ∈ f, o.less (key y) k = true)
    (hb : ∀ y ∈ b, o.less k (key y) = true) : ∀ y ∈ f ++ b, ¬ o.Equiv (key y) k := by
  intro y hy he
  rcases List.mem_append.mp hy with hy | hy
  · exact StrictWeak.not_equiv_of_less (hf y hy) he
  · exact StrictWeak.not_equiv_of_less (hb y hy) he.symm

theorem head?_of_apart {f b : List ι} : (f ++ b)[f.length]? = b.head? := by
  rw [List.getElem?_append_right (Nat.le_refl _), Nat.sub_self, List.head?_eq_getElem?]

theorem binary_find_of_equiv {f b : List ι} {x : ι} (hk : o.Equiv (key x) k)
    (hp : lowerBound o key (f ++ x :: b) k = f.length) :
    binary_find o key (f ++ x :: b) k = f.length := by
  simp [binary_find, hp, hk.2]

theorem binary_find_of_apart {f b : List ι} (hb : ∀ y ∈ b, o.less k (key y) = true)
    (hp : lowerBound o key (f ++ b) k = f.length) :
    binary_find o key (f ++ b) k = (f ++ b).length := by
  rw [binary_find, hp, head?_of_apart]
  cases b with
  | nil => rfl
  | cons y b => simp only [List.head?_cons, hb y List.mem_cons_self, if_true]

/-- **`find`** gives the element equivalent to the key. -/
theorem find_eq_some_iff (h : o.Ordered key items) {x : ι} :
    find o key items k = some x ↔ x ∈ items ∧ o.Equiv (key x) k := by
  rcases lowerBound_cases h k with ⟨f, y, b, rfl, hp, hk⟩ | ⟨f, b, rfl, hp, hf, hb⟩
  · rw [find, binary_find_of_equiv hk hp, getElem?_length_append, Option.some.injEq]
    constructor
    · rintro rfl
      exact ⟨by simp, hk⟩
    · rintro ⟨hx, hxk⟩
      exact h.unique (by simp) hx (hk.trans hxk.symm)
  · rw [find, binary_find_of_apart hb hp, List.getElem?_eq_none (Nat.le_refl _)]
    refine iff_of_false (Option.some_ne_none x).symm fun hx => ?_
    exact not_equiv_of_apart hf hb x hx.1 hx.2

theorem findIdx_append_of_forall {p : ι → Bool} {f b : List ι} (hf : ∀ y ∈ f, p y = false)
    (hb : ∀ y ∈ b.head?, p y = true) : (f ++ b).findIdx p = f.length := by
  rw [List.findIdx_append, List.findIdx_eq_length_of_false hf, if_neg (Nat.lt_irrefl _)]
  cases b with
  | nil => simp
  | cons y b => simp [List.findIdx_cons, hb y rfl]

theorem upperBound_spec (h : o.Ordered key items) :
    o.IsUpperBound key items k (upperBound o key items k) := by
  rcases lowerBound_cases h k with ⟨f, x, b, rfl, hp, hk⟩ | ⟨f, b, rfl, hp, hf, hb⟩
  · have hp := List.pairwise_append.mp h
    have hfx : ∀ y ∈ f ++ [x], o.less k (key y) = false := by
      intro y hy
      rcases List.mem_append.mp hy with hy | hy
      · exact StrictWeak.asymm (h.below_of_not_less hk.2 y hy)
      · rw [List.mem_singleton.mp hy]
        exact hk.2
    have hb : ∀ y ∈ b, o.less k (key y) = true := by
      intro y hy
      rw [← hk.less_left]
      exact (List.pairwise_cons.mp hp.2.1).1 y hy
    have heq : f ++ x :: b = (f ++ [x]) ++ b := by simp
    rw [upperBound, heq, findIdx_append_of_forall hfx fun y hy => hb y (List.mem_of_mem_head? hy)]
    exact ⟨by simp, by rwa [List.take_left' rfl], by rwa [List.drop_left' rfl]⟩
  · have hf' : ∀ y ∈ f, o.less k (key y) = false := fun y hy => StrictWeak.asymm (hf y hy)
    rw [upperBound, findIdx_append_of_forall hf' fun y hy => hb y (List.mem_of_mem_head? hy)]
    exact ⟨by simp, by rwa [List.take_left' rfl], by rwa [List.drop_left' rfl]⟩

end Search

/-! ### What the operations do to an ordered vector -/

section Operations

variable {items : List ι}

theorem insertAt_length {f b : List ι} {x : ι} :
    insertAt (f ++ b) f.length x = f ++ x :: b := by
  simp [insertAt]

/-- An insertion keeps or replaces the equivalent element, or creates one in its place. -/
theorem insert_cases (h : o.Ordered key items) (val : ι) (orAssign : Bool) :
    (∃ f x b, items = f ++ x :: b ∧ o.Equiv (key x) (key val) ∧
      insert o key items val orAssign =
        ⟨f ++ (if orAssign then val else x) :: b, f.length, false⟩) ∨
    ∃ f b, items = f ++ b ∧ (∀ y ∈ f, o.less (key y) (key val) = true) ∧
      (∀ y ∈ b, o.less (key val) (key y) = true) ∧
      insert o key items val orAssign = ⟨f ++ val :: b, f.length, true⟩ := by
  rcases lowerBound_cases h (key val) with ⟨f, x, b, rfl, hp, hk⟩ | ⟨f, b, rfl, hp, hf, hb⟩
  · refine .inl ⟨f, x, b, rfl, hk, ?_⟩
    simp only [insert, hp, getElem?_length_append, hk.1, hk.2]
    cases orAssign <;> simp
  · refine .inr ⟨f, b, rfl, hf, hb, ?_⟩
    simp only [insert, hp, head?_of_apart, insertAt_length]
    cases b with
    | nil => rfl
    | cons y b => simp [hb y List.mem_cons_self]

/-- An erasure takes the equivalent element out. -/
theorem erase_cases (h : o.Ordered key items) (k : κ) :
    (∃ f x b, items = f ++ x :: b ∧ o.Equiv (key x) k ∧ erase o key items k = f ++ b) ∨
    (∀ y ∈ items, ¬ o.Equiv (key y) k) ∧ erase o key items k = items := by
  rcases lowerBound_cases h k with ⟨f, x, b, rfl, hp, hk⟩ | ⟨f, b, rfl, hp, hf, hb⟩
  · refine .inl ⟨f, x, b, rfl, hk, ?_⟩
    have hne : f.length ≠ (f ++ x :: b).length := by simp
    rw [erase, binary_find_of_equiv hk hp]
    refine (if_pos hne).trans ?_
    rw [List.eraseIdx_append_of_length_le (Nat.le_refl _), Nat.sub_self, List.eraseIdx_cons_zero]
  · refine .inr ⟨not_equiv_of_apart hf hb, ?_⟩
    rw [erase, binary_find_of_apart hb hp]
    exact if_neg (not_not.mpr rfl)

variable {ν : Type} {entries : List (κ × ν)}

/-- `doEmplace` makes its own tests, and does what `insert` does. -/
theorem doEmplace_eq_insert (entries : List (κ × ν)) (k : κ) (val : ν) (assign : Bool) :
    doEmplace o entries k val assign = insert o Prod.fst entries (k, val) assign := by
  simp only [doEmplace, insert]
  cases entries[lowerBound o Prod.fst entries k]? with
  | none => rfl
  | some x => cases hkx : o.less k x.1 <;> cases hxk : o.less x.1 k <;> simp [hkx, hxk]

/-- `operator[]` gives the position of what an insertion of the default value keeps or
creates. -/
theorem subscript_eq_insert [Inhabited ν] (h : o.Ordered Prod.fst entries) (k : κ) :
    subscript o entries k =
      ((insert o Prod.fst entries (k, default) false).items,
        (insert o Prod.fst entries (k, default) false).index) := by
  rcases lowerBound_cases h k with ⟨f, x, b, rfl, hp, hk⟩ | ⟨f, b, rfl, hp, hf, hb⟩
  · have hne : f.length ≠ (f ++ x :: b).length := by simp
    simp only [subscript, binary_find_of_equiv hk hp, if_neg hne]
    simp only [insert, hp, getElem?_length_append, hk.1, hk.2]
    rfl
  · simp only [subscript, binary_find_of_apart hb hp, if_true]

end Operations

end Hatn.Common.FlatContainer
