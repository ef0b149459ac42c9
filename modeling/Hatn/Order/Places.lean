import Mathlib.Data.List.Sort
import Mathlib.Data.Prod.Lex
import Mathlib.Order.WithBot

/-!
# Places between values

The ends of an interval lie between the values of an order: right below a value, right above it,
in front of all values or behind them.  A value is in an interval when the interval begins below
the value and ends above it, whether its ends are open, closed or infinite.
-/

namespace Hatn.Order

/-- A place between the values. -/
abbrev Place (α : Type*) := WithBot (WithTop (α ×ₗ Bool))

namespace Place

variable {α : Type*} {v w : α}

/-- Right below the value. -/
def below (v : α) : Place α := ((toLex (v, false) : α ×ₗ Bool) : WithTop (α ×ₗ Bool))

/-- Right above the value. -/
def above (v : α) : Place α := ((toLex (v, true) : α ×ₗ Bool) : WithTop (α ×ₗ Bool))

/-- Every place is one of the four kinds. -/
theorem cases_on (p : Place α) : p = ⊥ ∨ p = ⊤ ∨ (∃ v, p = below v) ∨ ∃ v, p = above v := by
  match p with
  | ⊥ => exact .inl rfl
  | some none => exact .inr (.inl rfl)
  | some (some x) =>
    rcases x with ⟨v, b⟩
    cases b with
    | false => exact .inr (.inr (.inl ⟨v, rfl⟩))
    | true => exact .inr (.inr (.inr ⟨v, rfl⟩))

@[simp] theorem below_inj : below v = below w ↔ v = w := by
  simp [below]

@[simp] theorem above_inj : above v = above w ↔ v = w := by
  simp [above]

@[simp] theorem below_ne_above : below v ≠ above w := by
  simp [below, above]

@[simp] theorem above_ne_below : above v ≠ below w := below_ne_above.symm

@[simp] theorem below_ne_bot : below v ≠ ⊥ := WithBot.coe_ne_bot

@[simp] theorem above_ne_bot : above v ≠ ⊥ := WithBot.coe_ne_bot

@[simp] theorem below_ne_top : below v ≠ ⊤ := by
  simp [below]

@[simp] theorem above_ne_top : above v ≠ ⊤ := by
  simp [above]

@[simp] theorem bot_ne_below : ⊥ ≠ below v := below_ne_bot.symm

@[simp] theorem bot_ne_above : ⊥ ≠ above v := above_ne_bot.symm

@[simp] theorem top_ne_below : ⊤ ≠ below v := below_ne_top.symm

@[simp] theorem top_ne_above : ⊤ ≠ above v := above_ne_top.symm

variable [LinearOrder α]

@[simp] theorem below_lt_below : below v < below w ↔ v < w := by
  simp [below, Prod.Lex.toLex_lt_toLex]

@[simp] theorem above_lt_above : above v < above w ↔ v < w := by
  simp [above, Prod.Lex.toLex_lt_toLex]

@[simp] theorem above_lt_below : above v < below w ↔ v < w := by
  simp [above, below, Prod.Lex.toLex_lt_toLex]

@[simp] theorem below_lt_above : below v < above w ↔ v ≤ w := by
  simp [above, below, Prod.Lex.toLex_lt_toLex, le_iff_lt_or_eq]

@[simp] theorem below_le_below : below v ≤ below w ↔ v ≤ w := by
  rw [← not_lt, below_lt_below, not_lt]

@[simp] theorem above_le_above : above v ≤ above w ↔ v ≤ w := by
  rw [← not_lt, above_lt_above, not_lt]

/-- Nothing lies between the places on the two sides of a value. -/
theorem above_le_iff {p : Place α} : above v ≤ p ↔ below v < p := by
  rcases p.cases_on with rfl | rfl | ⟨w, rfl⟩ | ⟨w, rfl⟩
  · simp
  · simp [lt_top_iff_ne_top]
  · rw [← not_lt, below_lt_above, below_lt_below, not_le]
  · rw [above_le_above, below_lt_above]

theorem lt_above_iff {p : Place α} : p < above v ↔ p ≤ below v := by
  rw [← not_le, above_le_iff, not_lt]

end Place

end Hatn.Order
