import Mathlib.Data.List.Basic
import Mathlib.Data.List.Pairwise

/-!
# Strict weak orders and lists in their order

A comparison that tells classes of equivalent keys apart, lists whose elements stand in the
strict order of their keys, and what a search in such a list can find: at most one element
is equivalent to a key, and every key cuts the list in a lower and an upper part.
-/

namespace Hatn.Order

/-- A comparison that is a strict weak order. -/
structure StrictWeak (κ : Type) where
  less : κ → κ → Bool
  irrefl (a : κ) : less a a = false
  trans {a b c : κ} : less a b = true → less b c = true → less a c = true
  negTrans {a b c : κ} : less a b = false → less b c = false → less a c = false

namespace StrictWeak

variable {κ : Type} (o : StrictWeak κ) {a b c : κ}

/-- Neither key is less than the other. -/
def Equiv (a b : κ) : Prop := o.less a b = false ∧ o.less b a = false

instance (a b : κ) : Decidable (o.Equiv a b) := inferInstanceAs (Decidable (_ ∧ _))

variable {o}

theorem Equiv.refl (a : κ) : o.Equiv a a := ⟨o.irrefl a, o.irrefl a⟩

theorem Equiv.symm (h : o.Equiv a b) : o.Equiv b a := ⟨h.2, h.1⟩

theorem Equiv.trans (h : o.Equiv a b) (g : o.Equiv b c) : o.Equiv a c :=
  ⟨o.negTrans h.1 g.1, o.negTrans g.2 h.2⟩

theorem asymm (h : o.less a b = true) : o.less b a = false := by
  by_contra hba
  rw [Bool.not_eq_false] at hba
  exact absurd (o.trans h hba) (by rw [o.irrefl a]; exact Bool.false_ne_true)

theorem not_equiv_of_less (h : o.less a b = true) : ¬ o.Equiv a b := by
  rintro ⟨hab, _⟩
  exact absurd h (by rw [hab]; exact Bool.false_ne_true)

theorem less_of_less_of_not (h : o.less a b = true) (g : o.less c b = false) :
    o.less a c = true := by
  by_contra hac
  rw [Bool.not_eq_true] at hac
  exact absurd h (by rw [o.negTrans hac g]; exact Bool.false_ne_true)

theorem less_of_not_of_less (h : o.less b a = false) (g : o.less b c = true) :
    o.less a c = true := by
  by_contra hac
  rw [Bool.not_eq_true] at hac
  exact absurd g (by rw [o.negTrans h hac]; exact Bool.false_ne_true)

theorem Equiv.less_left (h : o.Equiv a b) : o.less a c = o.less b c := by
  cases hb : o.less b c with
  | true => exact less_of_not_of_less h.2 hb
  | false => exact o.negTrans h.1 hb

theorem Equiv.less_right (h : o.Equiv a b) : o.less c a = o.less c b := by
  cases hb : o.less c b with
  | true => exact less_of_less_of_not hb h.1
  | false => exact o.negTrans hb h.2

theorem Equiv.congr (h : o.Equiv a b) : o.Equiv a c ↔ o.Equiv b c :=
  ⟨h.symm.trans, h.trans⟩

/-! ### Lists in the order of their keys -/

variable {ι : Type} (o) (key : ι → κ)

/-- Every element is less than those that follow. -/
def Ordered (l : List ι) : Prop := l.Pairwise fun x y => o.less (key x) (key y) = true

/-- The position cuts the list in what is less than the key and what is not. -/
structure IsLowerBound (l : List ι) (k : κ) (p : Nat) : Prop where
  le_length : p ≤ l.length
  below : ∀ x ∈ l.take p, o.less (key x) k = true
  above : ∀ x ∈ l.drop p, o.less (key x) k = false

/-- The position cuts the list in what is not greater than the key and what is. -/
structure IsUpperBound (l : List ι) (k : κ) (p : Nat) : Prop where
  le_length : p ≤ l.length
  below : ∀ x ∈ l.take p, o.less k (key x) = false
  above : ∀ x ∈ l.drop p, o.less k (key x) = true

variable {o key} {l : List ι} {k : κ} {p : Nat} {x y : ι}

theorem Ordered.sublist {l' : List ι} (h : o.Ordered key l) (hs : l'.Sublist l) :
    o.Ordered key l' :=
  List.Pairwise.sublist hs h

/-- **At most one element of a class.** -/
theorem Ordered.unique (h : o.Ordered key l) (hx : x ∈ l) (hy : y ∈ l)
    (he : o.Equiv (key x) (key y)) : x = y := by
  induction l with
  | nil => exact absurd hx List.not_mem_nil
  | cons z l ih =>
    obtain ⟨hz, hl⟩ := List.pairwise_cons.mp h
    rcases List.mem_cons.mp hx with hxz | hxl <;> rcases List.mem_cons.mp hy with hyz | hyl
    · rw [hxz, hyz]
    · rw [hxz] at he
      exact absurd he (not_equiv_of_less (hz y hyl))
    · rw [hyz] at he
      exact absurd he.symm (not_equiv_of_less (hz x hxl))
    · exact ih hl hxl hyl

/-- What follows an element that is not less than the key is not less either. -/
theorem Ordered.above_of_not_less {f b : List ι} (h : o.Ordered key (f ++ x :: b))
    (hx : o.less (key x) k = false) : ∀ y ∈ b, o.less (key y) k = false := by
  intro y hy
  have hxy := (List.pairwise_cons.mp (List.pairwise_append.mp h).2.1).1 y hy
  exact o.negTrans (asymm hxy) hx

theorem Ordered.below_of_not_less {f b : List ι} (h : o.Ordered key (f ++ x :: b))
    (hx : o.less k (key x) = false) : ∀ y ∈ f, o.less (key y) k = true := by
  intro y hy
  have hyx := (List.pairwise_append.mp h).2.2 y hy x List.mem_cons_self
  exact less_of_less_of_not hyx hx

/-- An element goes in at the lower bound of its key, where no equivalent one stands. -/
theorem Ordered.insert {f b : List ι} (h : o.Ordered key (f ++ b))
    (hf : ∀ y ∈ f, o.less (key y) (key x) = true) (hb : ∀ y ∈ b, o.less (key x) (key y) = true) :
    o.Ordered key (f ++ x :: b) := by
  obtain ⟨hpf, hpb, hfb⟩ := List.pairwise_append.mp h
  refine List.pairwise_append.mpr ⟨hpf, List.pairwise_cons.mpr ⟨hb, hpb⟩, fun y hy z hz => ?_⟩
  rcases List.mem_cons.mp hz with rfl | hz
  · exact hf y hy
  · exact hfb y hy z hz

/-- An element may be replaced by an equivalent one. -/
theorem Ordered.replace {f b : List ι} (h : o.Ordered key (f ++ x :: b))
    (he : o.Equiv (key x) (key y)) : o.Ordered key (f ++ y :: b) := by
  obtain ⟨hpf, hpb, hfb⟩ := List.pairwise_append.mp h
  obtain ⟨hx, hpb⟩ := List.pairwise_cons.mp hpb
  refine List.pairwise_append.mpr ⟨hpf, List.pairwise_cons.mpr ⟨fun z hz => ?_, hpb⟩,
    fun z hz w hw => ?_⟩
  · rw [← he.less_left]
    exact hx z hz
  · rcases List.mem_cons.mp hw with rfl | hw
    · rw [← he.less_right]
      exact hfb z hz x List.mem_cons_self
    · exact hfb z hz w (List.mem_cons_of_mem x hw)

/-- A list sorted by the comparison, without two equivalent elements, is in strict order. -/
theorem ordered_of_sorted (hs : l.Pairwise fun x y => o.less (key y) (key x) = false)
    (hd : l.Pairwise fun x y => ¬ o.Equiv (key x) (key y)) : o.Ordered key l := by
  refine (hs.and hd).imp fun {x y} h => ?_
  by_contra hxy
  rw [Bool.not_eq_true] at hxy
  exact h.2 ⟨hxy, h.1⟩

theorem Ordered.distinct (h : o.Ordered key l) :
    l.Pairwise fun x y => ¬ o.Equiv (key x) (key y) :=
  List.Pairwise.imp not_equiv_of_less h

end StrictWeak

end Hatn.Order
