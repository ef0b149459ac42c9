import Hatn.Search.OrderedSet
import Hatn.Order.Cuts

/-!
# Search trees

The ordered containers: a multimap is a search tree in which an entry goes behind all entries of
its key, a set one in which an entry is refused next to one that it is not told apart from.  After
each insertion the tree may be given another shape, as long as its entries stay where they are:
nothing that is found here is about the shape.

A key that is searched for need not be comparable with all keys of the tree.  Where it cuts the
tree (`CutBy`), its range is all entries that the comparison does not tell apart from it
(`entries_equalRange`).
-/

namespace Hatn.Search

/-- A binary tree with entries in its nodes. -/
inductive SearchTree (ε : Type)
  | leaf
  | node (left : SearchTree ε) (entry : ε) (right : SearchTree ε)

namespace SearchTree

variable {ε κ : Type}

/-- The entries in their order. -/
def toList : SearchTree ε → List ε
  | leaf => []
  | node left entry right => left.toList ++ entry :: right.toList

section
variable (less : κ → κ → Bool) (key : ε → κ)

/-- The entry becomes a leaf behind all entries that are not greater. -/
def insertEqual (e : ε) : SearchTree ε → SearchTree ε
  | leaf => node leaf e leaf
  | node left entry right =>
    if less (key e) (key entry) then node (left.insertEqual e) entry right
    else node left entry (right.insertEqual e)

/-- The position of the first entry that is not less than the key. -/
def lowerBound (k : κ) : SearchTree ε → Nat
  | leaf => 0
  | node left entry right =>
    if less (key entry) k then left.toList.length + 1 + right.lowerBound k else left.lowerBound k

/-- The position of the first entry that is greater than the key. -/
def upperBound (k : κ) : SearchTree ε → Nat
  | leaf => 0
  | node left entry right =>
    if less k (key entry) then left.upperBound k else left.toList.length + 1 + right.upperBound k

/-- The positions of the first entry of the range and of the one behind the range: the search
splits at the first entry that is neither less nor greater than the key. -/
def equalRange (k : κ) : SearchTree ε → Nat × Nat
  | leaf => (0, 0)
  | node left entry right =>
    if less (key entry) k then
      (left.toList.length + 1 + (right.equalRange k).1,
        left.toList.length + 1 + (right.equalRange k).2)
    else if less k (key entry) then left.equalRange k
    else (left.lowerBound less key k, left.toList.length + 1 + right.upperBound less key k)

/-- The entries from the first to the second position. -/
def entries (t : SearchTree ε) (range : Nat × Nat) : List ε :=
  (t.toList.drop range.1).take (range.2 - range.1)

/-- The tree has got the entries of the list one after the other. -/
inductive Filled : List ε → SearchTree ε → Prop
  | empty : Filled [] leaf
  | insert {l : List ε} {t t' : SearchTree ε} {e : ε} (h : Filled l t)
      (shape : t'.toList = (t.insertEqual less key e).toList) : Filled (l ++ [e]) t'

/-- The entries are in order. -/
def Sorted (l : List ε) : Prop := l.Pairwise fun a b => less (key b) (key a) = false

/-- The entries that are less than the key are in front of all others, and those that are greater
are behind all others. -/
structure CutBy (k : κ) (l : List ε) : Prop where
  asymm : ∀ a ∈ l, less (key a) k = true → less k (key a) = false
  less_left : l.Pairwise fun a b => less (key b) k = true → less (key a) k = true
  less_right : l.Pairwise fun a b => less k (key a) = true → less k (key b) = true

end

variable {less : κ → κ → Bool} {key : ε → κ} {k : κ} {e : ε} {l : List ε} {t : SearchTree ε}

/-! ### What is found -/

theorem lowerBound_eq
    (h : t.toList.Pairwise fun a b => less (key b) k = true → less (key a) k = true) :
    t.lowerBound less key k = t.toList.countP fun a => less (key a) k := by
  induction t with
  | leaf => rfl
  | node left entry right ihl ihr =>
    obtain ⟨hleft, hright, hcross⟩ := List.pairwise_append.mp h
    obtain ⟨hentry, hright⟩ := List.pairwise_cons.mp hright
    rw [lowerBound, toList, List.countP_append]
    by_cases hk : less (key entry) k = true
    · have hall : ∀ a ∈ left.toList, less (key a) k = true := fun a ha =>
        hcross a ha entry List.mem_cons_self hk
      rw [if_pos hk, List.countP_eq_length.mpr hall, List.countP_cons, if_pos hk, ihr hright]
      omega
    · have hnone : ∀ a ∈ entry :: right.toList, ¬ less (key a) k = true := by
        intro a ha hak
        obtain rfl | ha := List.mem_cons.mp ha
        · exact hk hak
        · exact hk (hentry a ha hak)
      rw [if_neg hk, List.countP_eq_zero.mpr hnone, ihl hleft, Nat.add_zero]

theorem upperBound_eq
    (h : t.toList.Pairwise fun a b => less k (key a) = true → less k (key b) = true) :
    t.upperBound less key k = t.toList.countP fun a => !less k (key a) := by
  induction t with
  | leaf => rfl
  | node left entry right ihl ihr =>
    obtain ⟨hleft, hright, hcross⟩ := List.pairwise_append.mp h
    obtain ⟨hentry, hright⟩ := List.pairwise_cons.mp hright
    rw [upperBound, toList, List.countP_append]
    by_cases hk : less k (key entry) = true
    · have hnone : ∀ a ∈ entry :: right.toList, ¬ (!less k (key a)) = true := by
        intro a ha
        rw [Bool.not_eq_true', Bool.not_eq_false]
        obtain rfl | ha := List.mem_cons.mp ha
        · exact hk
        · exact hentry a ha hk
      rw [if_pos hk, List.countP_eq_zero.mpr hnone, ihl hleft, Nat.add_zero]
    · have hall : ∀ a ∈ left.toList, (!less k (key a)) = true := by
        intro a ha
        rw [Bool.not_eq_true', ← Bool.not_eq_true]
        exact fun hak => hk (hcross a ha entry List.mem_cons_self hak)
      have hnot : (!less k (key entry)) = true := by
        rw [Bool.not_eq_true', ← Bool.not_eq_true]
        exact hk
      rw [if_neg hk, List.countP_eq_length.mpr hall, List.countP_cons, if_pos hnot, ihr hright]
      omega

/-- The search for both positions is a search for each of them. -/
theorem equalRange_eq (h : ∀ a ∈ t.toList, less (key a) k = true → less k (key a) = false) :
    t.equalRange less key k = (t.lowerBound less key k, t.upperBound less key k) := by
  induction t with
  | leaf => rfl
  | node left entry right ihl ihr =>
    rw [toList] at h
    have hleft := ihl fun a ha => h a (List.mem_append_left _ ha)
    have hright := ihr fun a ha => h a (List.mem_append_right _ (List.mem_cons_of_mem entry ha))
    have hentry := h entry (List.mem_append_right _ List.mem_cons_self)
    rw [equalRange, lowerBound, upperBound]
    by_cases hk : less (key entry) k = true
    · rw [if_pos hk, if_pos hk, hentry hk, if_neg Bool.false_ne_true, hright]
    · rw [if_neg hk, if_neg hk]
      by_cases hk' : less k (key entry) = true
      · rw [if_pos hk', if_pos hk', hleft]
      · rw [if_neg hk', if_neg hk']

section
variable {p : ε → Bool} (h : l.Pairwise fun a b => p b = true → p a = true)
include h

theorem take_countP : l.take (l.countP p) = l.filter p := by
  rw [← Order.takeWhile_eq_filter h fun _ _ hp => hp, List.countP_eq_length_filter,
    ← Order.takeWhile_eq_filter h fun _ _ hp => hp]
  exact (List.prefix_iff_eq_take.mp (List.takeWhile_prefix p)).symm

theorem drop_countP : l.drop (l.countP p) = l.filter fun a => !p a := by
  have hsplit : l.filter p ++ l.drop (l.countP p) = l.filter p ++ l.filter fun a => !p a := by
    nth_rewrite 1 [← take_countP h]
    rw [List.take_append_drop, ← Order.takeWhile_eq_filter h fun _ _ hp => hp,
      ← Order.dropWhile_eq_filter h fun _ _ hp => hp, List.takeWhile_append_dropWhile]
  exact List.append_cancel_left hsplit

end

/-- **The range of a key** is what the comparison does not tell apart from it. -/
theorem entries_equalRange (h : CutBy less key k t.toList) :
    t.entries (t.equalRange less key k) =
      t.toList.filter fun a => !less (key a) k && !less k (key a) := by
  have hright : t.toList.Pairwise fun a b =>
      (!less k (key b)) = true → (!less k (key a)) = true := by
    refine h.less_right.imp fun {a b} hab hb => ?_
    rw [Bool.not_eq_true', ← Bool.not_eq_true] at hb ⊢
    exact fun ha => hb (hab ha)
  rw [entries, equalRange_eq h.asymm, lowerBound_eq h.less_left, upperBound_eq h.less_right,
    drop_countP h.less_left]
  generalize t.toList = l at *
  have hsub : (l.filter fun a => less (key a) k).countP (fun a => !less k (key a)) =
      l.countP fun a => less (key a) k := by
    rw [List.countP_eq_length_filter (l := l), List.countP_eq_length]
    intro a ha
    rw [List.mem_filter] at ha
    rw [h.asymm a ha.1 ha.2]
    rfl
  have hcount := List.countP_eq_countP_filter_add l (fun a => !less k (key a))
    fun a => less (key a) k
  rw [hsub] at hcount
  rw [hcount, Nat.add_sub_cancel_left]
  rw [take_countP (hright.sublist List.filter_sublist), List.filter_filter]
  exact List.filter_congr fun a _ => Bool.and_comm _ _

/-! ### What is inserted -/

theorem insertEqual_perm (less : κ → κ → Bool) (key : ε → κ) (e : ε) (t : SearchTree ε) :
    (t.insertEqual less key e).toList.Perm (e :: t.toList) := by
  induction t with
  | leaf => exact .refl _
  | node left entry right ihl ihr =>
    rw [insertEqual]
    by_cases hk : less (key e) (key entry) = true
    · rw [if_pos hk]
      exact ihl.append_right _
    · rw [if_neg hk]
      have hright := (ihr.cons entry).trans (.swap e entry right.toList)
      exact (hright.append_left left.toList).trans List.perm_middle

/-- A tree that got the entries of a list has these entries. -/
theorem Filled.perm (h : Filled less key l t) : t.toList.Perm l := by
  induction h with
  | empty => exact .refl _
  | @insert l t t' e h shape ih =>
    rw [shape]
    have hcons := (insertEqual_perm less key e t).trans (ih.cons e)
    exact hcons.trans (List.perm_append_singleton e l).symm

section
variable {V : List κ} (h : WeakOrderOn less V)
include h

theorem sorted_insertEqual (he : key e ∈ V) (ht : ∀ a ∈ t.toList, key a ∈ V)
    (hsorted : Sorted less key t.toList) : Sorted less key (t.insertEqual less key e).toList := by
  induction t with
  | leaf => exact List.pairwise_singleton _ _
  | node left entry right ihl ihr =>
    rw [toList] at ht
    have htl : ∀ a ∈ left.toList, key a ∈ V := fun a ha => ht a (List.mem_append_left _ ha)
    have htr : ∀ a ∈ right.toList, key a ∈ V := fun a ha =>
      ht a (List.mem_append_right _ (List.mem_cons_of_mem entry ha))
    have hte : key entry ∈ V := ht entry (List.mem_append_right _ List.mem_cons_self)
    obtain ⟨hleft, hnode, hcross⟩ := List.pairwise_append.mp hsorted
    obtain ⟨hentry, hright⟩ := List.pairwise_cons.mp hnode
    rw [insertEqual]
    by_cases hk : less (key e) (key entry) = true
    · rw [if_pos hk]
      refine List.pairwise_append.mpr ⟨ihl htl hleft, hnode, fun a ha b hb => ?_⟩
      obtain rfl | ha := List.mem_cons.mp ((insertEqual_perm less key e left).subset ha)
      · -- the entry is less than what it is put in front of
        rw [← Bool.not_eq_true]
        obtain rfl | hb := List.mem_cons.mp hb
        · exact h.asymm _ he _ hte hk
        · intro hba
          have hbe := h.trans _ (htr b hb) _ he _ hte hba hk
          rw [hentry b hb] at hbe
          cases hbe
      · exact hcross a ha b hb
    · rw [if_neg hk]
      have hright := ihr htr hright
      refine List.pairwise_append.mpr ⟨hleft, List.pairwise_cons.mpr ⟨fun b hb => ?_, hright⟩,
        fun a ha b hb => ?_⟩
      · obtain rfl | hb := List.mem_cons.mp ((insertEqual_perm less key e right).subset hb)
        · exact Bool.eq_false_iff.mpr hk
        · exact hentry b hb
      · obtain rfl | hb := List.mem_cons.mp hb
        · exact hcross a ha _ List.mem_cons_self
        obtain rfl | hb := List.mem_cons.mp ((insertEqual_perm less key e right).subset hb)
        · exact h.negTrans he hte (htl a ha) (Bool.eq_false_iff.mpr hk)
            (hcross a ha entry List.mem_cons_self)
        · exact hcross a ha b (List.mem_cons_of_mem entry hb)

/-- **A tree is in order** after any insertions. -/
theorem Filled.sorted (hl : ∀ a ∈ l, key a ∈ V) (hfilled : Filled less key l t) :
    Sorted less key t.toList := by
  induction hfilled with
  | empty => exact List.Pairwise.nil
  | @insert l t t' e hfilled shape ih =>
    have hl' : ∀ a ∈ l, key a ∈ V := fun a ha => hl a (List.mem_append_left _ ha)
    have he : key e ∈ V := hl e (List.mem_append_right _ (List.mem_singleton_self e))
    rw [shape]
    exact sorted_insertEqual h he (fun a ha => hl' a (hfilled.perm.subset ha)) (ih hl')

end

/-! ### Sets -/

/-- The entry becomes a leaf, unless it is not greater than the entry `before` it. -/
def insertUnique (less : ε → ε → Bool) (e : ε) : Option ε → SearchTree ε → SearchTree ε
  | none, leaf => node leaf e leaf
  | some before, leaf => if less before e then node leaf e leaf else leaf
  | before, node left entry right =>
    if less e entry then node (left.insertUnique less e before) entry right
    else node left entry (right.insertUnique less e (some entry))

/-- The entry that is not told apart from the key. -/
def find (less : κ → κ → Bool) (key : ε → κ) (k : κ) (t : SearchTree ε) : Option ε :=
  match t.toList[t.lowerBound less key k]? with
  | some entry => if less k (key entry) then none else some entry
  | none => none

/-- A way to give a tree another shape. -/
structure Balancing (ε : Type) where
  balance : SearchTree ε → SearchTree ε
  toList_balance (t : SearchTree ε) : (balance t).toList = t.toList

/-- The shape is left as it is. -/
def Balancing.unchanged (ε : Type) : Balancing ε := ⟨id, fun _ => rfl⟩

section
variable {less : ε → ε → Bool} {x : ε} {before : Option ε}

/-- No entry is lost. -/
theorem mem_insertUnique_of_mem (h : x ∈ t.toList) :
    x ∈ (t.insertUnique less e before).toList := by
  induction t generalizing before with
  | leaf => cases h
  | node left entry right ihl ihr =>
    rw [insertUnique]
    rw [toList, List.mem_append, List.mem_cons] at h
    split_ifs
    · rw [toList, List.mem_append, List.mem_cons]
      exact h.imp_left ihl
    · rw [toList, List.mem_append, List.mem_cons]
      exact h.imp_right fun h => h.imp_right ihr

/-- An entry that all others are less than is not refused. -/
theorem mem_insertUnique (h : ∀ a ∈ t.toList, less a e = true)
    (hbefore : ∀ a ∈ before, less a e = true) : e ∈ (t.insertUnique less e before).toList := by
  induction t generalizing before with
  | leaf =>
    cases before with
    | none => exact List.mem_singleton_self e
    | some a =>
      rw [insertUnique, if_pos (hbefore a rfl)]
      exact List.mem_singleton_self e
  | node left entry right ihl ihr =>
    rw [toList] at h
    have hleft : ∀ a ∈ left.toList, less a e = true := fun a ha =>
      h a (List.mem_append_left _ ha)
    have hright : ∀ a ∈ right.toList, less a e = true := fun a ha =>
      h a (List.mem_append_right _ (List.mem_cons_of_mem entry ha))
    have hentry : less entry e = true := h entry (List.mem_append_right _ List.mem_cons_self)
    rw [insertUnique]
    split_ifs
    · rw [toList, List.mem_append]
      exact .inl (ihl hleft hbefore)
    · rw [toList, List.mem_append, List.mem_cons]
      refine .inr (.inr (ihr hright ?_))
      rintro a ⟨⟩
      exact hentry

/-- The greatest entry goes behind all others. -/
theorem insertUnique_eq_concat (h : ∀ a ∈ t.toList, less a e = true ∧ less e a = false)
    (hbefore : ∀ a ∈ before, less a e = true) :
    (t.insertUnique less e before).toList = t.toList ++ [e] := by
  induction t generalizing before with
  | leaf =>
    cases before with
    | none => rfl
    | some a =>
      rw [insertUnique, if_pos (hbefore a rfl)]
      rfl
  | node left entry right ihl ihr =>
    rw [toList] at h
    obtain ⟨hless, hnot⟩ := h entry (List.mem_append_right _ List.mem_cons_self)
    rw [insertUnique, hnot, if_neg Bool.false_ne_true, toList, toList, List.append_assoc,
      List.cons_append]
    have hentry : ∀ a ∈ some entry, less a e = true := by
      rintro a ⟨⟩
      exact hless
    have hright := fun a ha => h a (List.mem_append_right _ (List.mem_cons_of_mem entry ha))
    rw [ihr hright hentry]

/-- **What is found** between the entries that are less and those that are greater. -/
theorem find_eq {less : κ → κ → Bool} {l l' : List ε} (heq : t.toList = l ++ e :: l')
    (hl : ∀ a ∈ l, less (key a) k = true) (he : less (key e) k = false)
    (hk : less k (key e) = false) (hl' : ∀ a ∈ l', less (key a) k = false) :
    t.find less key k = some e := by
  have hnone : ∀ a ∈ e :: l', ¬ less (key a) k = true := by
    intro a ha
    rw [Bool.not_eq_true]
    obtain rfl | ha := List.mem_cons.mp ha
    · exact he
    · exact hl' a ha
  have hcut : t.toList.Pairwise fun a b => less (key b) k = true → less (key a) k = true := by
    rw [heq, List.pairwise_append]
    refine ⟨List.pairwise_iff_forall_sublist.mpr fun {a b} hab _ => ?_,
      List.pairwise_iff_forall_sublist.mpr fun {a b} hab hb => ?_, fun a ha _ _ _ => hl a ha⟩
    · exact hl a (hab.subset List.mem_cons_self)
    · exact absurd hb (hnone b (hab.subset (List.mem_cons_of_mem a List.mem_cons_self)))
  have hposition : t.lowerBound less key k = l.length := by
    rw [lowerBound_eq hcut, heq, List.countP_append, List.countP_eq_length.mpr hl,
      List.countP_eq_zero.mpr hnone, Nat.add_zero]
  rw [find, hposition, heq, List.getElem?_append_right le_rfl, Nat.sub_self,
    List.getElem?_cons_zero]
  show (if less k (key e) = true then none else some e) = some e
  rw [hk, if_neg Bool.false_ne_true]

end

end SearchTree

end Hatn.Search
