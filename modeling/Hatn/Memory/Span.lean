import Mathlib.Data.List.GetD

/-!
# Spans of a memory

A memory gives a value at each index.  `read` gives the values of a span, and `write` puts
values there; what is read after a write is what was written, or what was there before.
-/

namespace Hatn.Memory

variable {α : Type} {f g : Nat → α} {i j m n : Nat} {l : List α}

/-- The values at `i`, `i + 1`, …, `n` of them. -/
def read (f : Nat → α) (i n : Nat) : List α := (List.range n).map fun k => f (i + k)

/-- The memory with `l` from `i` on. -/
def write (f : Nat → α) (i : Nat) (l : List α) (k : Nat) : α :=
  if k < i then f k else l.getD (k - i) (f k)

@[simp] theorem length_read (f : Nat → α) (i n : Nat) : (read f i n).length = n := by
  rw [read, List.length_map, List.length_range]

@[simp] theorem read_zero (f : Nat → α) (i : Nat) : read f i 0 = [] := rfl

theorem read_congr (h : ∀ k < n, f (i + k) = g (j + k)) : read f i n = read g j n :=
  List.map_congr_left fun k hk => h k (List.mem_range.mp hk)

theorem read_add (f : Nat → α) (i m n : Nat) :
    read f i (m + n) = read f i m ++ read f (i + m) n := by
  rw [read, List.range_add, List.map_append, List.map_map]
  refine congrArg (read f i m ++ ·) (List.map_congr_left fun k _ => ?_)
  rw [Function.comp_apply, Nat.add_assoc]

theorem take_read (h : m ≤ n) : (read f i n).take m = read f i m := by
  obtain ⟨k, rfl⟩ := Nat.exists_eq_add_of_le h
  rw [read_add, List.take_left' (length_read f i m)]

theorem drop_read (h : m ≤ n) : (read f i n).drop m = read f (i + m) (n - m) := by
  obtain ⟨k, rfl⟩ := Nat.exists_eq_add_of_le h
  rw [read_add, List.drop_left' (length_read f i m), Nat.add_sub_cancel_left]

/-- What was written is read. -/
theorem read_write (f : Nat → α) (i : Nat) (l : List α) : read (write f i l) i l.length = l := by
  refine List.ext_getElem (length_read _ _ _) fun k hk hk' => ?_
  have hle : ¬i + k < i := by omega
  simp only [read, List.getElem_map, List.getElem_range, write, hle, if_false,
    Nat.add_sub_cancel_left, List.getD_eq_getElem _ _ hk']

/-- Nothing else is changed. -/
theorem read_write_of_disjoint (h : j + n ≤ i ∨ i + l.length ≤ j) :
    read (write f i l) j n = read f j n := by
  refine read_congr fun k hk => ?_
  rw [write]
  split
  · rfl
  · rw [List.getD_eq_default]
    omega

end Hatn.Memory
