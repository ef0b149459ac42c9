import Mathlib.Data.List.Nodup

/-!
# What follows what in a list

`Follows l a b`: the list has `b` right after `a`.  In a list without duplicates every element
has at most one that follows it, the last one has none, and an element at the end adds one pair.
-/

namespace Hatn.Order

variable {α : Type} {l : List α} {a b c x : α}

/-- `b` stands right after `a`. -/
def Follows : List α → α → α → Prop
  | [], _, _ => False
  | x :: l, a, b => (a = x ∧ l.head? = some b) ∨ Follows l a b

theorem Follows.mem_left (h : Follows l a b) : a ∈ l := by
  induction l with
  | nil => exact h.elim
  | cons x l ih =>
    rcases h with ⟨rfl, -⟩ | h
    · exact List.mem_cons_self
    · exact List.mem_cons_of_mem x (ih h)

/-- What follows in a list with one more element at the end. -/
theorem follows_concat :
    Follows (l ++ [x]) a b ↔ Follows l a b ∨ l.getLast? = some a ∧ b = x := by
  induction l with
  | nil => simp [Follows]
  | cons y l ih =>
    rw [List.cons_append, Follows, ih, Follows]
    cases l with
    | nil => simp [Follows, eq_comm]
    | cons z l =>
      simp only [List.cons_append, List.head?_cons, List.getLast?_cons_cons]
      tauto

theorem follows_head (h : l.head? = some a) (hl : l.getLast? ≠ some a) : ∃ b, Follows l a b := by
  match l, h with
  | x :: y :: l, h =>
    rw [List.head?_cons, Option.some.injEq] at h
    exact ⟨y, .inl ⟨h.symm, rfl⟩⟩
  | [x], h => exact absurd h hl

variable (hn : l.Nodup)
include hn

theorem Follows.unique (h : Follows l a b) (g : Follows l a c) : b = c := by
  induction l with
  | nil => exact h.elim
  | cons x l ih =>
    obtain ⟨hx, hl⟩ := List.nodup_cons.mp hn
    rcases h with ⟨hax, h⟩ | h <;> rcases g with ⟨hax', g⟩ | g
    · exact Option.some.inj (h.symm.trans g)
    · exact absurd (hax ▸ g.mem_left) hx
    · exact absurd (hax' ▸ h.mem_left) hx
    · exact ih hl h g

theorem Follows.ne_last (h : Follows l a b) : l.getLast? ≠ some a := by
  induction l with
  | nil => exact h.elim
  | cons x l ih =>
    obtain ⟨hx, hl⟩ := List.nodup_cons.mp hn
    rcases h with ⟨rfl, h⟩ | h
    · match l, h with
      | y :: l, _ =>
        rw [List.getLast?_cons_cons]
        exact fun he => hx (List.mem_of_getLast? he)
    · match l, h with
      | y :: l, h =>
        rw [List.getLast?_cons_cons]
        exact ih hl h

theorem eq_singleton_of_ends (h : l.head? = some a) (hl : l.getLast? = some a) : l = [a] := by
  match l, h with
  | x :: l, h =>
    rw [List.head?_cons, Option.some.injEq] at h
    subst h
    match l with
    | [] => rfl
    | y :: l =>
      rw [List.getLast?_cons_cons] at hl
      exact absurd (List.mem_of_getLast? hl) (List.nodup_cons.mp hn).1

end Hatn.Order
