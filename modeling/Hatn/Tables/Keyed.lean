import Mathlib.Data.Finset.Basic
import Mathlib.Data.List.OfFn

/-!
# Finite maps and arrays as functions

A finite map is a function on its keys, and an array is one on its indices.  Both may be used in a
type of trees for the children of a node: that two of them are equal is seen from what they give
(`Keyed.ext`, `Items.ext`), and a recursion over a tree goes through them to the children.
-/

namespace Hatn.Tables

/-- A map with finitely many keys. -/
structure Keyed (κ τ : Type) where
  keys : Finset κ
  entry : {k // k ∈ keys} → τ

namespace Keyed

variable {κ τ : Type} [DecidableEq κ] {m m' : Keyed κ τ} {k k' : κ} {t : τ}

def find (m : Keyed κ τ) (k : κ) : Option τ :=
  if h : k ∈ m.keys then some (m.entry ⟨k, h⟩) else none

def empty : Keyed κ τ := ⟨∅, fun k => absurd k.2 (Finset.notMem_empty k.1)⟩

def insert (k : κ) (t : τ) (m : Keyed κ τ) : Keyed κ τ where
  keys := Insert.insert k m.keys
  entry := fun k' =>
    if h : k'.1 = k then t else m.entry ⟨k'.1, (Finset.mem_insert.mp k'.2).resolve_left h⟩

def erase (k : κ) (m : Keyed κ τ) : Keyed κ τ where
  keys := m.keys.erase k
  entry := fun k' => m.entry ⟨k'.1, Finset.mem_of_mem_erase k'.2⟩

theorem find_of_mem (h : k ∈ m.keys) : m.find k = some (m.entry ⟨k, h⟩) := dif_pos h

theorem find_eq_none_iff : m.find k = none ↔ k ∉ m.keys := by
  rw [find]
  split
  next h => exact iff_of_false (Option.some_ne_none _) (not_not_intro h)
  next h => exact iff_of_true rfl h

theorem find_eq_some_iff : m.find k = some t ↔ ∃ h : k ∈ m.keys, m.entry ⟨k, h⟩ = t := by
  rw [find]
  split
  next h => exact ⟨fun ht => ⟨h, Option.some.inj ht⟩, fun ⟨_, ht⟩ => congrArg some ht⟩
  next h => exact ⟨nofun, fun ⟨hk, _⟩ => absurd hk h⟩

/-- **Maps that give the same** are equal. -/
theorem ext (h : ∀ k, m.find k = m'.find k) : m = m' := by
  have hkeys : m.keys = m'.keys := by
    ext k
    rw [← not_iff_not, ← find_eq_none_iff, ← find_eq_none_iff, h]
  obtain ⟨keys, entry⟩ := m
  obtain ⟨keys', entry'⟩ := m'
  cases hkeys
  refine congrArg (mk keys) (funext fun k => ?_)
  have hk := h k.1
  rw [find_of_mem k.2, find_of_mem k.2] at hk
  exact Option.some.inj hk

@[simp] theorem find_empty (k : κ) : (empty : Keyed κ τ).find k = none :=
  find_eq_none_iff.mpr (Finset.notMem_empty k)

@[simp] theorem find_insert_self (k : κ) (t : τ) (m : Keyed κ τ) :
    (m.insert k t).find k = some t := by
  rw [find_of_mem (Finset.mem_insert_self k m.keys)]
  exact congrArg some (dif_pos rfl)

theorem find_insert_of_ne (h : k' ≠ k) (t : τ) (m : Keyed κ τ) :
    (m.insert k t).find k' = m.find k' := by
  by_cases hk : k' ∈ m.keys
  · rw [find_of_mem hk, find_of_mem (Finset.mem_insert_of_mem hk)]
    exact congrArg some (dif_neg h)
  · have hinsert : k' ∉ (m.insert k t).keys := fun hin =>
      (Finset.mem_insert.mp hin).elim h hk
    rw [find_eq_none_iff.mpr hk, find_eq_none_iff.mpr hinsert]

theorem find_insert (k k' : κ) (t : τ) (m : Keyed κ τ) :
    (m.insert k t).find k' = if k' = k then some t else m.find k' := by
  split
  next h => rw [h, find_insert_self]
  next h => exact find_insert_of_ne h t m

theorem find_erase_self (k : κ) (m : Keyed κ τ) : (m.erase k).find k = none :=
  find_eq_none_iff.mpr (Finset.notMem_erase k m.keys)

theorem find_erase_of_ne (h : k' ≠ k) (m : Keyed κ τ) : (m.erase k).find k' = m.find k' := by
  by_cases hk : k' ∈ m.keys
  · rw [find_of_mem hk, find_of_mem (Finset.mem_erase.mpr ⟨h, hk⟩)]
    rfl
  · have herase : k' ∉ (m.erase k).keys := fun hin => hk (Finset.mem_of_mem_erase hin)
    rw [find_eq_none_iff.mpr hk, find_eq_none_iff.mpr herase]

/-- A map in which a key already has the entry. -/
theorem insert_of_find (h : m.find k = some t) : m.insert k t = m := by
  refine ext fun k' => ?_
  rw [find_insert]
  split
  next hk => rw [hk, h]
  next => rfl

theorem insert_insert (k : κ) (t t' : τ) (m : Keyed κ τ) :
    (m.insert k t).insert k t' = m.insert k t' := by
  refine ext fun k' => ?_
  by_cases hk : k' = k
  · rw [hk, find_insert_self, find_insert_self]
  · rw [find_insert_of_ne hk, find_insert_of_ne hk, find_insert_of_ne hk]

/-- A key that is not there is erased in vain. -/
theorem erase_of_find (h : m.find k = none) : m.erase k = m := by
  refine ext fun k' => ?_
  by_cases hk : k' = k
  · rw [hk, find_erase_self, h]
  · rw [find_erase_of_ne hk]

end Keyed

/-- An array. -/
structure Items (τ : Type) where
  size : Nat
  item : Fin size → τ

namespace Items

variable {τ : Type} {a b : Items τ} {i j : Nat} {t : τ}

def find (a : Items τ) (i : Nat) : Option τ :=
  if h : i < a.size then some (a.item ⟨i, h⟩) else none

def toList (a : Items τ) : List τ := List.ofFn a.item

def ofList (l : List τ) : Items τ := ⟨l.length, l.get⟩

/-- The array with another item; nothing where there is none. -/
def set (i : Nat) (t : τ) (a : Items τ) : Items τ where
  size := a.size
  item := fun j => if j.1 = i then t else a.item j

theorem find_of_lt (h : i < a.size) : a.find i = some (a.item ⟨i, h⟩) := dif_pos h

theorem find_eq_none_iff : a.find i = none ↔ a.size ≤ i := by
  rw [find]
  split
  next h => exact iff_of_false (Option.some_ne_none _) (Nat.not_le_of_lt h)
  next h => exact iff_of_true rfl (Nat.le_of_not_lt h)

theorem find_eq_some_iff : a.find i = some t ↔ ∃ h : i < a.size, a.item ⟨i, h⟩ = t := by
  rw [find]
  split
  next h => exact ⟨fun ht => ⟨h, Option.some.inj ht⟩, fun ⟨_, ht⟩ => congrArg some ht⟩
  next h => exact ⟨nofun, fun ⟨hi, _⟩ => absurd hi h⟩

theorem getElem?_toList (a : Items τ) (i : Nat) : a.toList[i]? = a.find i := by
  rw [toList, List.getElem?_ofFn, find]

@[simp] theorem length_toList (a : Items τ) : a.toList.length = a.size := List.length_ofFn

theorem find_ofList (l : List τ) (i : Nat) : (ofList l).find i = l[i]? := by
  rw [find]
  split
  next h => exact (List.getElem?_eq_getElem h).symm
  next h => exact (List.getElem?_eq_none (Nat.le_of_not_lt h)).symm

/-- **Arrays that give the same** are equal. -/
theorem ext (h : ∀ i, a.find i = b.find i) : a = b := by
  have hsize : a.size = b.size := by
    have hle : ∀ n, a.size ≤ n ↔ b.size ≤ n := fun n => by
      rw [← find_eq_none_iff, ← find_eq_none_iff, h]
    exact Nat.le_antisymm ((hle _).mpr (Nat.le_refl _)) ((hle _).mp (Nat.le_refl _))
  obtain ⟨size, item⟩ := a
  obtain ⟨size', item'⟩ := b
  cases hsize
  refine congrArg (mk size) (funext fun i => ?_)
  have hi := h i.1
  rw [find_of_lt i.2, find_of_lt i.2] at hi
  exact Option.some.inj hi

theorem toList_ofList (l : List τ) : (ofList l).toList = l :=
  List.ext_getElem? fun i => by rw [getElem?_toList, find_ofList]

theorem find_set_self (h : i < a.size) (t : τ) : (a.set i t).find i = some t := by
  rw [find_of_lt (show i < (a.set i t).size from h)]
  exact congrArg some (if_pos rfl)

theorem find_set_of_ne (h : j ≠ i) (t : τ) (a : Items τ) : (a.set i t).find j = a.find j := by
  by_cases hj : j < a.size
  · rw [find_of_lt hj, find_of_lt (show j < (a.set i t).size from hj)]
    exact congrArg some (if_neg h)
  · rw [find_eq_none_iff.mpr (Nat.le_of_not_lt hj)]
    exact find_eq_none_iff.mpr (Nat.le_of_not_lt hj)

theorem set_ofList (l : List τ) (i : Nat) (t : τ) : (ofList l).set i t = ofList (l.set i t) := by
  refine ext fun j => ?_
  rw [find_ofList]
  by_cases hj : j = i
  · rw [hj]
    by_cases hi : i < l.length
    · rw [List.getElem?_set_self hi]
      exact find_set_self hi t
    · have hnone : (l.set i t)[i]? = none :=
        List.getElem?_eq_none (List.length_set.trans_le (Nat.le_of_not_lt hi))
      rw [hnone]
      exact find_eq_none_iff.mpr (Nat.le_of_not_lt hi)
  · rw [find_set_of_ne hj, find_ofList, List.getElem?_set_ne (Ne.symm hj)]

theorem set_of_find (h : a.find i = some t) : a.set i t = a := by
  refine ext fun j => ?_
  by_cases hj : j = i
  · obtain ⟨hi, -⟩ := find_eq_some_iff.mp h
    rw [hj, find_set_self hi, h]
  · rw [find_set_of_ne hj]

end Items

end Hatn.Tables
