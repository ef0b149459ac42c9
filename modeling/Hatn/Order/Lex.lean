import Mathlib.Data.List.Lex
import Mathlib.Order.Defs.LinearOrder
import Mathlib.Order.Lattice
import Mathlib.Order.Monotone.Basic

/-!
# The lexicographic order on strings over a linear order

Keys of an ordered store are compared symbol by symbol.  This file collects what
is needed to read such a comparison off the parts a key is put together from:

* `append_lt_append`: two strings that start with parts of one length compare as
  these parts, and as the rest when the parts agree.
* `terminated_lt_terminated`: the same for parts of any length, when each is
  closed by a symbol that is below all symbols of the parts.  This is what makes
  a separated key compare as the tuple of its fields.
* `map_lt_map`, `flatMap_lt_flatMap`: a strictly monotone code of one length per
  symbol keeps the order of the strings.
-/

namespace Hatn.Order

/-- Bytes are ordered as the numbers they hold. -/
instance instLinearOrderUInt8 : LinearOrder UInt8 where
  le_refl := UInt8.le_refl
  le_trans _ _ _ := UInt8.le_trans
  le_antisymm _ _ := UInt8.le_antisymm
  le_total := UInt8.le_total
  lt_iff_le_not_ge a b := by
    simp only [UInt8.lt_iff_toNat_lt, UInt8.le_iff_toNat_le]
    omega
  min_def _ _ := rfl
  max_def _ _ := rfl
  compare_eq_compareOfLessAndEq _ _ := rfl
  toDecidableLE := inferInstance

section
variable {α β : Type*} [LinearOrder α] [LinearOrder β]

/-- **Parts of one length compare first**, the rest decides when they agree. -/
theorem append_lt_append : ∀ {x y u v : List α}, x.length = y.length →
    (x ++ u < y ++ v ↔ x < y ∨ x = y ∧ u < v) := by
  intro x
  induction x with
  | nil =>
    intro y u v h
    have hy : y = [] := List.length_eq_zero_iff.mp h.symm
    subst hy
    simp
  | cons a x ih =>
    intro y u v h
    cases y with
    | nil => simp at h
    | cons b y =>
      have hl : x.length = y.length := by simpa using h
      simp only [List.cons_append, List.cons_lt_cons_iff, ih hl, List.cons.injEq]
      tauto

/-- **Closed parts compare first.**  The closing symbol is below every symbol of
the parts, so a part that is a proper prefix of the other comes first. -/
theorem terminated_lt_terminated {s : α} : ∀ {x y u v : List α}, (∀ c ∈ x, s < c) →
    (∀ c ∈ y, s < c) → (x ++ s :: u < y ++ s :: v ↔ x < y ∨ x = y ∧ u < v) := by
  intro x
  induction x with
  | nil =>
    intro y u v _ hy
    cases y with
    | nil => simp
    | cons b y =>
      have hb : s < b := hy b (by simp)
      simp [List.cons_lt_cons_iff, hb]
  | cons a x ih =>
    intro y u v hx hy
    have ha : s < a := hx a (by simp)
    cases y with
    | nil => simp [List.cons_lt_cons_iff, ha.not_gt, ha.ne']
    | cons b y =>
      have hx' : ∀ c ∈ x, s < c := fun c hc => hx c (by simp [hc])
      have hy' : ∀ c ∈ y, s < c := fun c hc => hy c (by simp [hc])
      simp only [List.cons_append, List.cons_lt_cons_iff, ih hx' hy', List.cons.injEq]
      tauto

/-- Closed parts can be read back. -/
theorem terminated_inj {s : α} {x y u v : List α} (hx : ∀ c ∈ x, s < c) (hy : ∀ c ∈ y, s < c)
    (h : x ++ s :: u = y ++ s :: v) : x = y ∧ u = v := by
  have hxy : ¬ x < y := fun hlt =>
    absurd h ((terminated_lt_terminated hx hy).mpr (Or.inl hlt)).ne
  have hyx : ¬ y < x := fun hlt =>
    absurd h.symm ((terminated_lt_terminated hy hx).mpr (Or.inl hlt)).ne
  have he : x = y := le_antisymm (not_lt.mp hyx) (not_lt.mp hxy)
  subst he
  have huv := List.append_cancel_left h
  exact ⟨rfl, by simpa using huv⟩

/-- A symbol map that is strictly monotone on the symbols in use keeps the order. -/
theorem map_lt_map {f : α → β} {P : α → Prop} (hf : ∀ a b, P a → P b → (f a < f b ↔ a < b)) :
    ∀ {x y : List α}, (∀ c ∈ x, P c) → (∀ c ∈ y, P c) → (x.map f < y.map f ↔ x < y) := by
  intro x
  induction x with
  | nil => intro y _ _; cases y <;> simp
  | cons a x ih =>
    intro y hx hy
    cases y with
    | nil => simp
    | cons b y =>
      have ha : P a := hx a (by simp)
      have hb : P b := hy b (by simp)
      have hxy := @ih y (fun c hc => hx c (by simp [hc])) (fun c hc => hy c (by simp [hc]))
      have heq : f a = f b ↔ a = b := by
        refine ⟨fun h => ?_, fun h => by rw [h]⟩
        have hab := (hf a b ha hb).not.mp h.not_lt
        have hba := (hf b a hb ha).not.mp h.not_gt
        exact le_antisymm (not_lt.mp hba) (not_lt.mp hab)
      simp only [List.map_cons, List.cons_lt_cons_iff, hf a b ha hb, heq, hxy]

/-- **A strictly monotone code of one length keeps the order of strings.** -/
theorem flatMap_lt_flatMap {f : α → List β} {k : Nat} (hk : ∀ a, (f a).length = k + 1)
    (hf : ∀ a b, f a < f b ↔ a < b) :
    ∀ {x y : List α}, (x.flatMap f < y.flatMap f ↔ x < y) := by
  have hne : ∀ a, f a ≠ [] := fun a h => by have := hk a; rw [h] at this; simp at this
  intro x
  induction x with
  | nil =>
    intro y
    cases y with
    | nil => simp
    | cons b y =>
      obtain ⟨c, l, hc⟩ := List.exists_cons_of_ne_nil (hne b)
      simp [List.flatMap_cons, hc]
  | cons a x ih =>
    intro y
    cases y with
    | nil => simp
    | cons b y =>
      have heq : f a = f b ↔ a = b := by
        refine ⟨fun h => ?_, fun h => by rw [h]⟩
        have hab := (hf a b).not.mp h.not_lt
        have hba := (hf b a).not.mp h.not_gt
        exact le_antisymm (not_lt.mp hba) (not_lt.mp hab)
      rw [List.flatMap_cons, List.flatMap_cons, append_lt_append (by rw [hk, hk]), hf, heq, ih,
        List.cons_lt_cons_iff]

end

end Hatn.Order
