import Hatn.Order.Lex
import Mathlib.Order.Cover

/-!
# Ranges of keys with a common prefix

Two neighbouring symbols `z ⋖ o` close a part of a key from below and from above: the keys
that start with `x ++ [z]` are those from `x ++ [z]` up to, not including, `x ++ [o]`
(`between_iff`).  Behind a common prefix, a key whose next part is `w` compares with such a
bound as `w` compares with the part of the bound (`closed_lt_closed` and what follows).
-/

namespace Hatn.Order

variable {α : Type*} [LinearOrder α] {z o : α}

/-- A common prefix does not matter. -/
theorem append_left_lt {x u v : List α} : x ++ u < x ++ v ↔ u < v := by
  rw [append_lt_append rfl]
  simp only [lt_irrefl, false_or, true_and]

theorem append_left_le {x u v : List α} : x ++ u ≤ x ++ v ↔ u ≤ v := by
  rw [← not_lt, append_left_lt, not_lt]

theorem prefix_le {x k : List α} (h : x <+: k) : x ≤ k := by
  obtain ⟨r, rfl⟩ := h
  nth_rewrite 1 [← List.append_nil x]
  rw [append_left_le, ← not_lt]
  exact List.not_lt_nil r

theorem lt_of_prefix (hz : z < o) {x k : List α} (h : x ++ [z] <+: k) : k < x ++ [o] := by
  obtain ⟨r, rfl⟩ := h
  rw [List.append_assoc, append_left_lt, List.singleton_append, List.cons_lt_cons_iff]
  exact .inl hz

/-- **Between neighbours** there are only the keys of the prefix. -/
theorem between_iff (hz : z ⋖ o) : ∀ {x k : List α},
    x ++ [z] ≤ k ∧ k < x ++ [o] ↔ x ++ [z] <+: k := by
  intro x
  induction x with
  | nil =>
    intro k
    cases k with
    | nil =>
      have hnil : ¬ [z] ≤ ([] : List α) := not_le.mpr (List.nil_lt_cons z [])
      simp [hnil]
    | cons c k =>
      have hlow : [z] ≤ c :: k ↔ z ≤ c := by
        rw [← not_lt, List.cons_lt_cons_iff, not_or, not_lt]
        exact ⟨fun h => h.1, fun h => ⟨h, fun h' => List.not_lt_nil k h'.2⟩⟩
      have hhigh : c :: k < [o] ↔ c < o := by
        rw [List.cons_lt_cons_iff]
        exact ⟨fun h => h.elim id fun h' => absurd h'.2 (List.not_lt_nil k), .inl⟩
      rw [List.nil_append, List.nil_append, hlow, hhigh, List.cons_prefix_cons]
      constructor
      · rintro ⟨hc, hc'⟩
        refine ⟨?_, List.nil_prefix⟩
        by_contra hne
        exact hz.2 (lt_of_le_of_ne hc hne) hc'
      · rintro ⟨rfl, -⟩
        exact ⟨le_rfl, hz.1⟩
  | cons a x ih =>
    intro k
    cases k with
    | nil =>
      have hnil : ¬ (a :: x) ++ [z] ≤ ([] : List α) := not_le.mpr (List.nil_lt_cons a _)
      simp only [hnil, false_and, false_iff]
      exact fun h => by simpa using h.length_le
    | cons c k =>
      simp only [List.cons_append, List.cons_prefix_cons, ← ih (k := k), ← not_lt,
        List.cons_lt_cons_iff]
      constructor
      · rintro ⟨hlow, hhigh⟩
        obtain hca | ⟨rfl, hk⟩ := hhigh
        · exact absurd (.inl hca) hlow
        · exact ⟨rfl, fun h => hlow (.inr ⟨rfl, h⟩), hk⟩
      · rintro ⟨rfl, hlow, hhigh⟩
        exact ⟨fun h => h.elim (lt_irrefl _) fun h' => hlow h'.2, .inr ⟨rfl, hhigh⟩⟩

/-- **A part closed from below** is under a part closed from above unless it is greater. -/
theorem closed_lt_closed (hz : z < o) : ∀ {x y u v : List α}, (∀ c ∈ x, o < c) →
    (∀ c ∈ y, o < c) → (x ++ z :: u < y ++ o :: v ↔ x ≤ y) := by
  intro x
  induction x with
  | nil =>
    intro y u v _ hy
    have hle : ([] : List α) ≤ y := not_lt.mp (List.not_lt_nil y)
    cases y with
    | nil => simp [List.cons_lt_cons_iff, hz]
    | cons b y =>
      have hb : z < b := hz.trans (hy b List.mem_cons_self)
      simp [List.cons_lt_cons_iff, hb, hle]
  | cons a x ih =>
    intro y u v hx hy
    have ha : o < a := hx a List.mem_cons_self
    cases y with
    | nil =>
      have hle : ¬ a :: x ≤ [] := not_le.mpr (List.nil_lt_cons a x)
      simp [List.cons_lt_cons_iff, ha.not_gt, ha.ne']
    | cons b y =>
      have hx' : ∀ c ∈ x, o < c := fun c hc => hx c (List.mem_cons_of_mem a hc)
      have hy' : ∀ c ∈ y, o < c := fun c hc => hy c (List.mem_cons_of_mem b hc)
      rw [← not_lt (a := b :: y), List.cons_append, List.cons_append, List.cons_lt_cons_iff,
        List.cons_lt_cons_iff, ih hx' hy', ← not_lt]
      constructor
      · rintro (hab | ⟨rfl, hxy⟩)
        · exact fun h => h.elim (fun h' => absurd hab h'.not_gt) fun h' => hab.ne h'.1.symm
        · exact fun h => h.elim (lt_irrefl _) fun h' => hxy h'.2
      · intro h
        obtain hab | rfl | hba := lt_trichotomy a b
        · exact .inl hab
        · exact .inr ⟨rfl, fun h' => h (.inr ⟨rfl, h'⟩)⟩
        · exact absurd (.inl hba) h

section
variable {P w x r : List α}

/-- The part of a key against an upper bound that is closed from below: strictly under. -/
theorem part_lt_lower (hw : ∀ c ∈ w, z < c) (hx : ∀ c ∈ x, z < c) :
    P ++ (w ++ z :: r) < P ++ (x ++ [z]) ↔ w < x := by
  rw [append_left_lt, terminated_lt_terminated hw hx]
  exact ⟨fun h => h.elim id fun h' => absurd h'.2 (List.not_lt_nil r), .inl⟩

theorem lower_le_part (hw : ∀ c ∈ w, z < c) (hx : ∀ c ∈ x, z < c) :
    P ++ (x ++ [z]) ≤ P ++ (w ++ z :: r) ↔ x ≤ w := by
  rw [← not_lt, part_lt_lower hw hx, not_lt]

theorem part_lt_upper (hz : z < o) (hw : ∀ c ∈ w, o < c) (hx : ∀ c ∈ x, o < c) :
    P ++ (w ++ z :: r) < P ++ (x ++ [o]) ↔ w ≤ x := by
  rw [append_left_lt, closed_lt_closed hz hw hx]

theorem upper_le_part (hz : z < o) (hw : ∀ c ∈ w, o < c) (hx : ∀ c ∈ x, o < c) :
    P ++ (x ++ [o]) ≤ P ++ (w ++ z :: r) ↔ x < w := by
  rw [← not_lt, part_lt_upper hz hw hx, not_le]

end

end Hatn.Order
