import Mathlib.Data.List.Dedup

/-!
# Caches in the order of last use

What a cache that displaces the least recently used key is for: at each time it has some
keys with their values, and the order in which the keys were used last.  The order is a
list without repetitions of just the keys that have a value.

* `put`, `touch`, `remove`: a use of a key, and its end;
* `Ordered`: the order is that of the last uses; each operation keeps it;
* `length_put_le`: no more keys than there is place for.
-/

namespace Hatn.Cache

/-- Keys with values, from the least to the most recently used one. -/
@[ext]
structure Recency (κ ν : Type) where
  order : List κ
  value : κ → Option ν
  nodup : order.Nodup
  mem_order : ∀ k, k ∈ order ↔ (value k).isSome

namespace Recency

variable {κ ν : Type} [DecidableEq κ]

def empty : Recency κ ν := ⟨[], fun _ => none, .nil, fun _ => iff_of_false List.not_mem_nil nofun⟩

/-- The key is not there any more. -/
def remove (k : κ) (r : Recency κ ν) : Recency κ ν where
  order := r.order.erase k
  value := Function.update r.value k none
  nodup := r.nodup.erase k
  mem_order k' := by
    rw [r.nodup.mem_erase_iff, r.mem_order]
    by_cases h : k' = k
    · rw [h, Function.update_self]
      exact iff_of_false (fun h' => h'.1 rfl) nofun
    · rw [Function.update_of_ne h]
      exact and_iff_right h

/-- A use of the key, with a value. -/
def use (k : κ) (v : ν) (r : Recency κ ν) : Recency κ ν where
  order := r.order.erase k ++ [k]
  value := Function.update r.value k (some v)
  nodup := by
    have hnot : k ∉ r.order.erase k := fun h => (r.nodup.mem_erase_iff.mp h).1 rfl
    exact List.nodup_append.mpr ⟨r.nodup.erase k, List.nodup_singleton k, fun a ha b hb h => by
      rw [List.mem_singleton.mp hb] at h
      exact hnot (h ▸ ha)⟩
  mem_order k' := by
    rw [List.mem_append, List.mem_singleton, r.nodup.mem_erase_iff, r.mem_order]
    by_cases h : k' = k
    · rw [h, Function.update_self]
      exact iff_of_true (.inr rfl) rfl
    · rw [Function.update_of_ne h]
      exact ⟨fun h' => (h'.resolve_right h).2, fun h' => .inl ⟨h, h'⟩⟩

/-- A use of a key that is there. -/
def touch (k : κ) (r : Recency κ ν) : Recency κ ν :=
  match r.value k with
  | some v => r.use k v
  | none => r

/-- The key that has to go for a new one, with place for `n`; with `n = 0` there is place for
all. -/
def displaced (n : Nat) (k : κ) (r : Recency κ ν) : Option κ :=
  if k ∉ r.order ∧ n ≠ 0 ∧ r.order.length = n then r.order.head? else none

/-- Without the key that has to go, if any. -/
def without : Option κ → Recency κ ν → Recency κ ν
  | none, r => r
  | some k, r => r.remove k

/-- The key has the value from now on. -/
def put (n : Nat) (k : κ) (v : ν) (r : Recency κ ν) : Recency κ ν :=
  (r.without (r.displaced n k)).use k v

section
variable {r : Recency κ ν} {k k' : κ} {v : ν} {n : Nat}

omit [DecidableEq κ] in
theorem value_eq_none : r.value k = none ↔ k ∉ r.order := by
  rw [r.mem_order, Bool.not_eq_true, Option.isSome_eq_false_iff, Option.isNone_iff_eq_none]

theorem touch_eq (h : r.value k = some v) : r.touch k = r.use k v := by
  rw [touch, h]

theorem touch_of_notMem (h : k ∉ r.order) : r.touch k = r := by
  rw [touch, value_eq_none.mpr h]

theorem displaced_of_mem (h : k ∈ r.order) : r.displaced n k = none := if_neg fun h' => h'.1 h

theorem mem_of_mem_without {o : Option κ} (h : k ∈ (r.without o).order) : k ∈ r.order := by
  cases o with
  | none => exact h
  | some k' => exact List.mem_of_mem_erase h

/-- **What was put last** is found. -/
theorem value_put : (r.put n k v).value k = some v := Function.update_self ..

/-- Other keys keep their values, but for the one that has to go. -/
theorem value_put_of_ne (hk : k' ≠ k) (h : r.displaced n k ≠ some k') :
    (r.put n k v).value k' = r.value k' := by
  refine (Function.update_of_ne hk ..).trans ?_
  cases hd : r.displaced n k with
  | none => rfl
  | some k'' =>
    have hne : k' ≠ k'' := fun heq => h (by rw [hd, heq])
    exact Function.update_of_ne hne ..

/-! ### Sizes -/

theorem length_remove_le : (r.remove k).order.length ≤ r.order.length :=
  List.length_erase_le

theorem length_use_of_mem (h : k ∈ r.order) : (r.use k v).order.length = r.order.length := by
  have hpos := List.length_pos_of_mem h
  show (r.order.erase k ++ [k]).length = _
  rw [List.length_append, List.length_erase_of_mem h, List.length_singleton]
  omega

theorem length_use_le : (r.use k v).order.length ≤ r.order.length + 1 := by
  have hle : (r.order.erase k).length ≤ r.order.length := List.length_erase_le
  show (r.order.erase k ++ [k]).length ≤ _
  rw [List.length_append, List.length_singleton]
  omega

theorem length_touch : (r.touch k).order.length = r.order.length := by
  cases h : r.value k with
  | none => rw [touch_of_notMem (value_eq_none.mp h)]
  | some v =>
    rw [touch_eq h]
    exact length_use_of_mem ((r.mem_order k).mpr (h ▸ rfl))

/-- **There are no more keys** than there is place for. -/
theorem length_put_le (hn : n ≠ 0) (h : r.order.length ≤ n) :
    (r.put n k v).order.length ≤ n := by
  rw [put]
  cases hd : r.displaced n k with
  | some k' =>
    have hhead : r.order.head? = some k' := by
      rw [displaced] at hd
      split at hd
      · exact hd
      · cases hd
    have hmem : k' ∈ r.order := List.mem_of_head? hhead
    have hpos := List.length_pos_of_mem hmem
    have hlen : (r.remove k').order.length = r.order.length - 1 := List.length_erase_of_mem hmem
    have hle : ((r.remove k').use k v).order.length ≤ (r.remove k').order.length + 1 := length_use_le
    show ((r.remove k').use k v).order.length ≤ n
    omega
  | none =>
    show (r.use k v).order.length ≤ n
    by_cases hk : k ∈ r.order
    · rw [length_use_of_mem hk]
      exact h
    · have hlt : r.order.length ≠ n := by
        intro heq
        rw [displaced, if_pos ⟨hk, hn, heq⟩] at hd
        rw [List.head?_eq_none_iff.mp hd] at heq
        exact hn heq.symm
      have hle : (r.use k v).order.length ≤ r.order.length + 1 := length_use_le
      omega

/-! ### The order of the last uses -/

/-- Behind one more use, its key is the last one. -/
theorem dedup_concat (k : κ) : ∀ uses : List κ, (uses ++ [k]).dedup = uses.dedup.erase k ++ [k] := by
  intro uses
  induction uses with
  | nil => rfl
  | cons a uses ih =>
    rw [List.cons_append]
    by_cases ha : a ∈ uses
    · rw [List.dedup_cons_of_mem ha, List.dedup_cons_of_mem (List.mem_append_left _ ha), ih]
    · rw [List.dedup_cons_of_notMem ha]
      by_cases hk : a = k
      · have hnot : k ∉ uses.dedup := fun h => ha (hk ▸ List.mem_dedup.mp h)
        rw [hk, List.dedup_cons_of_mem (List.mem_append_right _ (List.mem_singleton_self k)), ih,
          List.erase_cons_head, List.erase_of_not_mem hnot]
      · have hnot : a ∉ uses ++ [k] := fun h =>
          (List.mem_append.mp h).elim ha fun h => hk (List.mem_singleton.mp h)
        rw [List.dedup_cons_of_notMem hnot, ih, List.erase_cons_tail (by simpa using hk),
          List.cons_append]

/-- The keys are in the order in which they were used last. -/
def Ordered (uses : List κ) (r : Recency κ ν) : Prop := r.order.Sublist uses.dedup

variable {uses : List κ}

theorem Ordered.remove (h : r.Ordered uses) (k : κ) : (r.remove k).Ordered uses :=
  List.erase_sublist.trans h

theorem Ordered.use (h : r.Ordered uses) (k : κ) (v : ν) : (r.use k v).Ordered (uses ++ [k]) := by
  rw [Ordered, dedup_concat]
  exact (h.erase k).append (List.Sublist.refl _)

/-- A use of a key that is not there does not matter. -/
theorem Ordered.of_notMem (h : r.Ordered uses) (hk : k ∉ r.order) : r.Ordered (uses ++ [k]) := by
  rw [Ordered, dedup_concat]
  have herase := h.erase k
  rw [List.erase_of_not_mem hk] at herase
  exact herase.trans (List.sublist_append_left _ _)

theorem Ordered.touch (h : r.Ordered uses) (k : κ) : (r.touch k).Ordered (uses ++ [k]) := by
  cases hv : r.value k with
  | none =>
    have hk := value_eq_none.mp hv
    rw [touch_of_notMem hk]
    exact h.of_notMem hk
  | some v =>
    rw [touch_eq hv]
    exact h.use k v

theorem Ordered.without (h : r.Ordered uses) (k : Option κ) : (r.without k).Ordered uses := by
  cases k with
  | none => exact h
  | some k => exact h.remove k

theorem Ordered.put (h : r.Ordered uses) (n : Nat) (k : κ) (v : ν) :
    (r.put n k v).Ordered (uses ++ [k]) :=
  (h.without _).use k v

end

end Recency

end Hatn.Cache
