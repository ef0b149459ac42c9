import Mathlib.Algebra.BigOperators.Group.Finset.Basic
import Mathlib.Algebra.Order.BigOperators.Group.Finset
import Mathlib.Data.Fintype.Card
import Mathlib.Logic.Function.Basic

/-!
# Positions of threads

Finitely many threads are each at a position of its program, and a step moves one thread.  What an
invariant says of the threads is mostly how many of them are at the positions of a kind: a step
changes this number by what the position left behind and the new one count.
-/

namespace Hatn.Threads

open Finset

variable {T P : Type}

/-- Places that may name this thread only say the same of the other ones. -/
theorem named_iff_of_ne {place place' : Option T} {t : T} (h : place = none ∨ place = some t)
    (h' : place' = none ∨ place' = some t) :
    ∀ u, u ≠ t → (place' = some u ↔ place = some u) := by
  intro u hu
  have hnot : ∀ {q : Option T}, q = none ∨ q = some t → q ≠ some u := by
    rintro q (rfl | rfl) hq
    · cases hq
    · exact hu (Option.some.inj hq).symm
  exact iff_of_false (hnot h') (hnot h)

variable [Fintype T]

/-- The number of threads at the positions of a kind. -/
def count (pc : T → P) (kind : P → Bool) : Nat := ∑ t, (kind (pc t)).toNat

theorem count_le_card (pc : T → P) (kind : P → Bool) : count pc kind ≤ Fintype.card T := by
  rw [← Finset.card_univ, Finset.card_eq_sum_ones]
  exact Finset.sum_le_sum fun t _ => Bool.toNat_le _

theorem count_eq_zero_iff {pc : T → P} {kind : P → Bool} :
    count pc kind = 0 ↔ ∀ t, kind (pc t) = false := by
  rw [count, Finset.sum_eq_zero_iff]
  constructor
  · intro h t
    have := h t (mem_univ t)
    rwa [Bool.toNat_eq_zero] at this
  · intro h t _
    rw [h t]
    rfl

theorem count_pos {pc : T → P} {kind : P → Bool} {t : T} (h : kind (pc t) = true) :
    0 < count pc kind := by
  rw [Nat.pos_iff_ne_zero]
  intro h0
  rw [count_eq_zero_iff] at h0
  rw [h0 t] at h
  cases h

theorem exists_of_count_pos {pc : T → P} {kind : P → Bool} (h : 0 < count pc kind) :
    ∃ t, kind (pc t) = true := by
  by_contra hno
  have h0 : count pc kind = 0 :=
    count_eq_zero_iff.mpr fun t => Bool.eq_false_iff.mpr fun ht => hno ⟨t, ht⟩
  omega

theorem le_sum (f : T → Nat) (t : T) : f t ≤ ∑ u, f u :=
  Finset.single_le_sum (fun _ _ => Nat.zero_le _) (mem_univ t)

theorem eq_zero_of_sum {f : T → Nat} (h : ∑ u, f u = 0) (t : T) : f t = 0 :=
  Nat.le_zero.mp (h ▸ le_sum f t)

/-- A thread that is not of the kind leaves room for one more. -/
theorem count_lt_card {pc : T → P} {kind : P → Bool} {t : T} (h : kind (pc t) = false) :
    count pc kind < Fintype.card T := by
  rw [← Finset.card_univ, Finset.card_eq_sum_ones]
  refine Finset.sum_lt_sum (fun u _ => Bool.toNat_le _) ⟨t, mem_univ t, ?_⟩
  rw [h]
  exact Nat.one_pos

variable [DecidableEq T]

/-- What all threads have together, when one of them has got more or less. -/
theorem sum_update (f : T → Nat) (t : T) (n : Nat) :
    ∑ u, Function.update f t n u + f t = ∑ u, f u + n := by
  have hrest : ∑ u ∈ univ.erase t, Function.update f t n u = ∑ u ∈ univ.erase t, f u :=
    Finset.sum_congr rfl fun u hu => Function.update_of_ne (Finset.ne_of_mem_erase hu) _ _
  have hself := Finset.sum_erase_add univ f (mem_univ t)
  have hmoved := Finset.sum_erase_add univ (Function.update f t n) (mem_univ t)
  rw [hrest, Function.update_self] at hmoved
  rw [← hself, ← hmoved]
  omega

theorem sum_update_succ (f : T → Nat) (t : T) :
    ∑ u, Function.update f t (f t + 1) u = ∑ u, f u + 1 := by
  have h := sum_update f t (f t + 1)
  omega

theorem sum_update_pred (f : T → Nat) (t : T) (h : 0 < f t) :
    ∑ u, Function.update f t (f t - 1) u = ∑ u, f u - 1 := by
  have hsum := sum_update f t (f t - 1)
  have hle := le_sum f t
  omega

/-- **One thread moves.** -/
theorem count_update (pc : T → P) (kind : P → Bool) (t : T) (x : P) :
    count (Function.update pc t x) kind + (kind (pc t)).toNat =
      count pc kind + (kind x).toNat := by
  have hcomp := Function.comp_update (fun y => (kind y).toNat) pc t x
  have hsum := sum_update ((fun y => (kind y).toNat) ∘ pc) t (kind x).toNat
  rw [← hcomp] at hsum
  exact hsum

theorem count_update_of_eq {pc : T → P} {kind : P → Bool} {t : T} {x : P}
    (h : kind x = kind (pc t)) : count (Function.update pc t x) kind = count pc kind := by
  have hcount := count_update pc kind t x
  rw [h] at hcount
  omega

omit [Fintype T] in
/-- What one place says of the threads follows the step of a thread: a place that names one
thread names it when the thread is at the positions of a kind. -/
theorem named_update {pc : T → P} {kind : P → Bool} {place place' : Option T} {t : T} {x : P}
    (h : ∀ u, place = some u ↔ kind (pc u) = true)
    (hother : ∀ u, u ≠ t → (place' = some u ↔ place = some u))
    (hself : place' = some t ↔ kind x = true) :
    ∀ u, place' = some u ↔ kind (Function.update pc t x u) = true := by
  intro u
  by_cases hu : u = t
  · subst hu
    rw [Function.update_self]
    exact hself
  · rw [Function.update_of_ne hu, hother u hu]
    exact h u

omit [Fintype T] in
/-- What a thread has got suffices for its position, and goes on to. -/
theorem held_update {pc : T → P} {needs : P → Bool} {held held' : T → Nat} {t : T} {x : P}
    (h : ∀ u, needs (pc u) = true → 0 < held u) (hother : ∀ u, u ≠ t → held' u = held u)
    (hself : needs x = true → 0 < held' t) :
    ∀ u, needs (Function.update pc t x u) = true → 0 < held' u := by
  intro u hu
  by_cases hut : u = t
  · subst hut
    rw [Function.update_self] at hu
    exact hself hu
  · rw [Function.update_of_ne hut] at hu
    rw [hother u hut]
    exact h u hu

/-! ### The numbers of threads at each position -/

variable [DecidableEq P]

def countAt (pc : T → P) (x : P) : Nat := count pc fun y => decide (y = x)

/-- One thread goes from a position to another one. -/
def shift (n : P → Nat) (src dst : P) (x : P) : Nat :=
  if x = dst then n x + 1 else if x = src then n x - 1 else n x

omit [DecidableEq T] in
theorem countAt_pos {pc : T → P} {t : T} {x : P} (h : pc t = x) : 0 < countAt pc x :=
  count_pos (t := t) (decide_eq_true h)

omit [DecidableEq T] in
theorem exists_of_countAt_pos {pc : T → P} {x : P} (h : 0 < countAt pc x) : ∃ t, pc t = x := by
  obtain ⟨t, ht⟩ := exists_of_count_pos h
  exact ⟨t, of_decide_eq_true ht⟩

omit [DecidableEq T] in
theorem countAt_eq_zero {pc : T → P} {x : P} (h : ∀ t, pc t ≠ x) : countAt pc x = 0 :=
  count_eq_zero_iff.mpr fun t => decide_eq_false (h t)

theorem countAt_update {pc : T → P} {t : T} {x y : P} (h : pc t = x) (hne : x ≠ y) :
    countAt (Function.update pc t y) = shift (countAt pc) x y := by
  funext z
  have hcount := count_update pc (fun w => decide (w = z)) t y
  have hpos := countAt_pos h
  rw [h] at hcount
  rw [shift, countAt]
  split
  next hz =>
    subst hz
    rw [decide_eq_false hne, decide_eq_true rfl] at hcount
    simp only [Bool.toNat_false, Bool.toNat_true, add_zero] at hcount
    exact hcount
  next hzy =>
    rw [decide_eq_false (Ne.symm hzy)] at hcount
    split
    next hz =>
      subst hz
      rw [decide_eq_true rfl] at hcount
      simp only [Bool.toNat_false, Bool.toNat_true, add_zero] at hcount
      rw [countAt] at hpos ⊢
      omega
    next hzx =>
      rw [decide_eq_false (Ne.symm hzx)] at hcount
      exact hcount

end Hatn.Threads
