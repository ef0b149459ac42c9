import Hatn.Common.MempoolPointers
import Hatn.Threads.Positions
import Mathlib.Algebra.BigOperators.Ring.Finset

/-!
# The object and the control block are kept

What the steps depend on is in numbers: how many pointers there are, and how many threads are at
each position.  `Numbers` relates them to the counts in the object and in its control block, with
one lemma for each step, and the invariant of the threads puts the numbers of a state into it.

As long as the object is not being deleted, the lock state is the number of weak pointers that are
being locked, and an object without shared pointers has a thread that comes to delete it or to make
a shared pointer again.
-/

namespace Hatn.Common.MempoolPointers

open Hatn.Order Hatn.Threads

/-- The counts and flags, and the numbers of pointers, of what was given back, and of the threads
at each position. -/
structure Numbers (refCount ctrlRefCount lockState : Int) (weakCtrl sharedObj : Bool)
    (shared weak destroyed freed : Nat) (n : Position → Nat) : Prop where
  refs : refCount = shared
  once : n .clearSharedPtr + n .resetCtrl + n .deallocateCtrl + n .destroy + destroyed ≤ 1
  dead : n .clearSharedPtr + n .resetCtrl + n .deallocateCtrl + n .destroy + destroyed = 1 →
    shared = 0 ∧ n .resetResult = 0 ∧ (sharedObj = true → n .sharedObject = 0)
  alive : n .clearSharedPtr + n .resetCtrl + n .deallocateCtrl + n .destroy + destroyed = 0 →
    sharedObj = true ∧ n (.unlockForClone false) = 0 ∧
    lockState = n .sharedObject + n .resetResult + n (.unlockForClone true) ∧
    (n .loadWeakCtrl + n .lockForDelete = 0 → n .sharedObject + n .resetResult = 0 → 0 < shared)
  clearing : weakCtrl = true → sharedObj = true →
    n .clearSharedPtr + n .resetCtrl + n .deallocateCtrl + n .destroy + destroyed = 1 →
    n .clearSharedPtr = 1
  unpublished : weakCtrl = false → ctrlRefCount = 0 ∧ weak = 0 ∧ freed = 0 ∧
    n .lockForDelete + n .clearSharedPtr + n .resetCtrl + n .deallocateCtrl + n .addRefShared +
      n .addRefWeak + n .deallocateWeak + n .sharedObject + n .resetResult = 0 ∧
    n .loadWeakCtrl + n .destroy + destroyed ≤ 1 ∧
    (n .loadWeakCtrl + n .destroy + destroyed = 1 → shared = 0)
  creator : n .addRefShared ≤ 1
  block : weakCtrl = true →
    ctrlRefCount + n .addRefShared + n .deallocateCtrl + n .destroy + destroyed = weak + 1
  freed : weakCtrl = true → freed + n .deallocateCtrl + n .deallocateWeak ≤ 1 ∧
    (freed + n .deallocateCtrl + n .deallocateWeak = 1 ↔ ctrlRefCount = 0 ∧ n .addRefShared = 0)

namespace Numbers

variable {refCount ctrlRefCount lockState : Int} {weakCtrl sharedObj : Bool}
  {shared weak destroyed freed : Nat} {n : Position → Nat}

theorem copyShared
    (h : Numbers refCount ctrlRefCount lockState weakCtrl sharedObj shared weak destroyed freed n)
    (hs : 0 < shared) :
    Numbers (refCount + 1) ctrlRefCount lockState weakCtrl sharedObj (shared + 1) weak destroyed
      freed n := by
  obtain ⟨refs, once, dead, alive, clearing, unpublished, creator, block, freed⟩ := h
  constructor
  case refs => grind
  all_goals grind

/-- A shared pointer is reset, and is not the last one. -/
theorem resetShared
    (h : Numbers refCount ctrlRefCount lockState weakCtrl sharedObj shared weak destroyed freed n)
    (hs : 0 < shared)
    (hc : refCount ≠ 1) :
    Numbers (refCount - 1) ctrlRefCount lockState weakCtrl sharedObj (shared - 1) weak destroyed
      freed n := by
  obtain ⟨refs, once, dead, alive, clearing, unpublished, creator, block, freed⟩ := h
  constructor
  case refs => grind
  all_goals grind

/-- The last shared pointer is reset: its thread comes to delete the object. -/
theorem resetLastShared
    (h : Numbers refCount ctrlRefCount lockState weakCtrl sharedObj shared weak destroyed freed n)
    (hs : 0 < shared)
    (hc : refCount = 1) :
    Numbers (refCount - 1) ctrlRefCount lockState weakCtrl sharedObj (shared - 1) weak destroyed
      freed (shift n .idle .loadWeakCtrl) := by
  obtain ⟨refs, once, dead, alive, clearing, unpublished, creator, block, freed⟩ := h
  constructor
  case refs => grind
  all_goals simp only [shift, reduceCtorEq, if_true, if_false]
  all_goals grind

theorem loadNone
    (h : Numbers refCount ctrlRefCount lockState weakCtrl sharedObj shared weak destroyed freed n)
    (hn : 0 < n .loadWeakCtrl)
    (hw : weakCtrl = false) :
    Numbers refCount ctrlRefCount lockState weakCtrl sharedObj shared weak destroyed
      freed (shift n .loadWeakCtrl .destroy) := by
  obtain ⟨refs, once, dead, alive, clearing, unpublished, creator, block, freed⟩ := h
  constructor
  case refs => exact refs
  all_goals simp only [shift, reduceCtorEq, if_true, if_false]
  all_goals grind

theorem loadWeakCtrl
    (h : Numbers refCount ctrlRefCount lockState weakCtrl sharedObj shared weak destroyed freed n)
    (hw : weakCtrl = true) :
    Numbers refCount ctrlRefCount lockState weakCtrl sharedObj shared weak destroyed
      freed (shift n .loadWeakCtrl .lockForDelete) := by
  obtain ⟨refs, once, dead, alive, clearing, unpublished, creator, block, freed⟩ := h
  constructor
  case refs => exact refs
  all_goals simp only [shift, reduceCtorEq, if_true, if_false]
  all_goals grind

/-- **The object is locked for deletion**, with no pointer to it and nobody who makes one. -/
theorem lockForDelete
    (h : Numbers refCount ctrlRefCount lockState weakCtrl sharedObj shared weak destroyed freed n)
    (hn : 0 < n .lockForDelete)
    (hl : lockState = 0)
    (hr : refCount = 0)
    (hd : destroyed = 0)
    (hx : n .clearSharedPtr + n .resetCtrl + n .deallocateCtrl + n .destroy = 0) :
    Numbers refCount ctrlRefCount (-2 ^ 31) weakCtrl sharedObj shared weak destroyed
      freed (shift n .lockForDelete .clearSharedPtr) := by
  obtain ⟨refs, once, dead, alive, clearing, unpublished, creator, block, freed⟩ := h
  constructor
  case refs => exact refs
  all_goals simp only [shift, reduceCtorEq, if_true, if_false]
  all_goals grind

/-- A weak pointer is being locked: its thread has a shared pointer already, or makes one. -/
theorem notLocked
    (h : Numbers refCount ctrlRefCount lockState weakCtrl sharedObj shared weak destroyed freed n)
    (hn : 0 < n .lockForDelete)
    (hl : lockState ≠ 0)
    (hu : 0 < n (.unlockForClone true) → 0 < shared) :
    Numbers refCount ctrlRefCount lockState weakCtrl sharedObj shared weak destroyed
      freed (shift n .lockForDelete .idle) := by
  obtain ⟨refs, once, dead, alive, clearing, unpublished, creator, block, freed⟩ := h
  constructor
  case refs => exact refs
  all_goals simp only [shift, reduceCtorEq, if_true, if_false]
  all_goals grind

theorem clearSharedPtr
    (h : Numbers refCount ctrlRefCount lockState weakCtrl sharedObj shared weak destroyed freed n)
    (hn : 0 < n .clearSharedPtr) :
    Numbers refCount ctrlRefCount lockState weakCtrl false shared weak destroyed
      freed (shift n .clearSharedPtr .resetCtrl) := by
  obtain ⟨refs, once, dead, alive, clearing, unpublished, creator, block, freed⟩ := h
  constructor
  case refs => exact refs
  all_goals simp only [shift, reduceCtorEq, if_true, if_false]
  all_goals grind

theorem resetCtrl
    (h : Numbers refCount ctrlRefCount lockState weakCtrl sharedObj shared weak destroyed freed n)
    (hn : 0 < n .resetCtrl)
    (hc : ctrlRefCount ≠ 1) :
    Numbers refCount (ctrlRefCount - 1) lockState weakCtrl sharedObj shared weak destroyed
      freed (shift n .resetCtrl .destroy) := by
  obtain ⟨refs, once, dead, alive, clearing, unpublished, creator, block, freed⟩ := h
  constructor
  case refs => exact refs
  all_goals simp only [shift, reduceCtorEq, if_true, if_false]
  all_goals grind

/-- The control block is not used by weak pointers any more. -/
theorem resetLastCtrl
    (h : Numbers refCount ctrlRefCount lockState weakCtrl sharedObj shared weak destroyed freed n)
    (hn : 0 < n .resetCtrl)
    (ha : 0 < n .addRefShared → 0 < shared)
    (hc : ctrlRefCount = 1) :
    Numbers refCount (ctrlRefCount - 1) lockState weakCtrl sharedObj shared weak destroyed
      freed (shift n .resetCtrl .deallocateCtrl) := by
  obtain ⟨refs, once, dead, alive, clearing, unpublished, creator, block, freed⟩ := h
  constructor
  case refs => exact refs
  all_goals simp only [shift, reduceCtorEq, if_true, if_false]
  all_goals grind

theorem deallocateCtrl
    (h : Numbers refCount ctrlRefCount lockState weakCtrl sharedObj shared weak destroyed freed n)
    (hn : 0 < n .deallocateCtrl) :
    Numbers refCount ctrlRefCount lockState weakCtrl sharedObj shared weak destroyed
      (freed + 1) (shift n .deallocateCtrl .destroy) := by
  obtain ⟨refs, once, dead, alive, clearing, unpublished, creator, block, freed⟩ := h
  constructor
  case refs => exact refs
  all_goals simp only [shift, reduceCtorEq, if_true, if_false]
  all_goals grind

theorem destroy
    (h : Numbers refCount ctrlRefCount lockState weakCtrl sharedObj shared weak destroyed freed n)
    (hn : 0 < n .destroy) :
    Numbers refCount ctrlRefCount lockState weakCtrl sharedObj shared weak (destroyed + 1)
      freed (shift n .destroy .idle) := by
  obtain ⟨refs, once, dead, alive, clearing, unpublished, creator, block, freed⟩ := h
  constructor
  case refs => exact refs
  all_goals simp only [shift, reduceCtorEq, if_true, if_false]
  all_goals grind

theorem createWeak
    (h : Numbers refCount ctrlRefCount lockState weakCtrl sharedObj shared weak destroyed freed n) :
    Numbers refCount ctrlRefCount lockState weakCtrl sharedObj shared weak destroyed
      freed (shift n .idle .findWeakCtrl) := by
  obtain ⟨refs, once, dead, alive, clearing, unpublished, creator, block, freed⟩ := h
  constructor
  case refs => exact refs
  all_goals simp only [shift, reduceCtorEq, if_false]
  all_goals grind

theorem foundCtrl
    (h : Numbers refCount ctrlRefCount lockState weakCtrl sharedObj shared weak destroyed freed n)
    (hw : weakCtrl = true) :
    Numbers refCount ctrlRefCount lockState weakCtrl sharedObj shared weak destroyed
      freed (shift n .findWeakCtrl .addRefWeak) := by
  obtain ⟨refs, once, dead, alive, clearing, unpublished, creator, block, freed⟩ := h
  constructor
  case refs => exact refs
  all_goals simp only [shift, reduceCtorEq, if_true, if_false]
  all_goals grind

theorem foundNone
    (h : Numbers refCount ctrlRefCount lockState weakCtrl sharedObj shared weak destroyed freed n) :
    Numbers refCount ctrlRefCount lockState weakCtrl sharedObj shared weak destroyed
      freed (shift n .findWeakCtrl .setWeakCtrl) := by
  obtain ⟨refs, once, dead, alive, clearing, unpublished, creator, block, freed⟩ := h
  constructor
  case refs => exact refs
  all_goals simp only [shift, reduceCtorEq, if_false]
  all_goals grind

/-- **The control block is published**, and not counted for the object yet. -/
theorem setWeakCtrl
    (h : Numbers refCount ctrlRefCount lockState weakCtrl sharedObj shared weak destroyed freed n)
    (hs : 0 < shared)
    (hw : weakCtrl = false) :
    Numbers refCount ctrlRefCount lockState true sharedObj shared weak destroyed
      freed (shift n .setWeakCtrl .addRefShared) := by
  obtain ⟨refs, once, dead, alive, clearing, unpublished, creator, block, freed⟩ := h
  constructor
  case refs => exact refs
  all_goals simp only [shift, reduceCtorEq, if_true, if_false]
  all_goals grind

theorem addRefShared
    (h : Numbers refCount ctrlRefCount lockState weakCtrl sharedObj shared weak destroyed freed n)
    (hn : 0 < n .addRefShared)
    (hs : 0 < shared) :
    Numbers refCount (ctrlRefCount + 1) lockState weakCtrl sharedObj shared weak destroyed
      freed (shift n .addRefShared .addRefWeak) := by
  obtain ⟨refs, once, dead, alive, clearing, unpublished, creator, block, freed⟩ := h
  constructor
  case refs => exact refs
  all_goals simp only [shift, reduceCtorEq, if_true, if_false]
  all_goals grind

theorem addRefWeak
    (h : Numbers refCount ctrlRefCount lockState weakCtrl sharedObj shared weak destroyed freed n)
    (hn : 0 < n .addRefWeak)
    (hs : 0 < shared) :
    Numbers refCount (ctrlRefCount + 1) lockState weakCtrl sharedObj shared (weak + 1) destroyed
      freed (shift n .addRefWeak .idle) := by
  obtain ⟨refs, once, dead, alive, clearing, unpublished, creator, block, freed⟩ := h
  constructor
  case refs => exact refs
  all_goals simp only [shift, reduceCtorEq, if_true, if_false]
  all_goals grind

theorem copyWeak
    (h : Numbers refCount ctrlRefCount lockState weakCtrl sharedObj shared weak destroyed freed n)
    (hw : 0 < weak) :
    Numbers refCount (ctrlRefCount + 1) lockState weakCtrl sharedObj shared (weak + 1) destroyed
      freed n := by
  obtain ⟨refs, once, dead, alive, clearing, unpublished, creator, block, freed⟩ := h
  constructor
  case refs => exact refs
  all_goals grind

theorem resetWeak
    (h : Numbers refCount ctrlRefCount lockState weakCtrl sharedObj shared weak destroyed freed n)
    (hw : 0 < weak)
    (hc : ctrlRefCount ≠ 1) :
    Numbers refCount (ctrlRefCount - 1) lockState weakCtrl sharedObj shared (weak - 1) destroyed
      freed n := by
  obtain ⟨refs, once, dead, alive, clearing, unpublished, creator, block, freed⟩ := h
  constructor
  case refs => exact refs
  all_goals grind

/-- The last weak pointer is reset, behind the last use of the control block by the object. -/
theorem resetLastWeak
    (h : Numbers refCount ctrlRefCount lockState weakCtrl sharedObj shared weak destroyed freed n)
    (hw : 0 < weak)
    (hc : ctrlRefCount = 1)
    (ha : n .addRefShared = 0) :
    Numbers refCount (ctrlRefCount - 1) lockState weakCtrl sharedObj shared (weak - 1) destroyed
      freed (shift n .idle .deallocateWeak) := by
  obtain ⟨refs, once, dead, alive, clearing, unpublished, creator, block, freed⟩ := h
  constructor
  case refs => exact refs
  all_goals simp only [shift, reduceCtorEq, if_true, if_false]
  all_goals grind

theorem deallocateWeak
    (h : Numbers refCount ctrlRefCount lockState weakCtrl sharedObj shared weak destroyed freed n)
    (hn : 0 < n .deallocateWeak) :
    Numbers refCount ctrlRefCount lockState weakCtrl sharedObj shared weak destroyed
      (freed + 1) (shift n .deallocateWeak .idle) := by
  obtain ⟨refs, once, dead, alive, clearing, unpublished, creator, block, freed⟩ := h
  constructor
  case refs => exact refs
  all_goals simp only [shift, reduceCtorEq, if_true, if_false]
  all_goals grind

theorem lock
    (h : Numbers refCount ctrlRefCount lockState weakCtrl sharedObj shared weak destroyed freed n)
    (hw : 0 < weak)
    (hl : 0 ≤ lockState)
    (hc : 0 < n .clearSharedPtr → lockState < 0) :
    Numbers refCount ctrlRefCount (lockState + 1) weakCtrl sharedObj shared weak destroyed
      freed (shift n .idle .sharedObject) := by
  obtain ⟨refs, once, dead, alive, clearing, unpublished, creator, block, freed⟩ := h
  have hpublished : weakCtrl = true := by
    by_contra hw'
    have := (unpublished (by simpa using hw')).2.1
    omega
  have hgone := clearing hpublished
  constructor
  case refs => exact refs
  all_goals simp only [shift, reduceCtorEq, if_true, if_false]
  all_goals grind

theorem lockRefused
    (h : Numbers refCount ctrlRefCount lockState weakCtrl sharedObj shared weak destroyed freed n)
    (hl : lockState < 0) :
    Numbers refCount ctrlRefCount (lockState + 1) weakCtrl sharedObj shared weak destroyed
      freed n := by
  obtain ⟨refs, once, dead, alive, clearing, unpublished, creator, block, freed⟩ := h
  constructor
  case refs => exact refs
  all_goals grind

theorem sharedObject
    (h : Numbers refCount ctrlRefCount lockState weakCtrl sharedObj shared weak destroyed freed n)
    (hn : 0 < n .sharedObject)
    (ho : sharedObj = true) :
    Numbers refCount ctrlRefCount lockState weakCtrl sharedObj shared weak destroyed
      freed (shift n .sharedObject .resetResult) := by
  obtain ⟨refs, once, dead, alive, clearing, unpublished, creator, block, freed⟩ := h
  constructor
  case refs => exact refs
  all_goals simp only [shift, reduceCtorEq, if_true, if_false]
  all_goals grind

theorem sharedObjectNull
    (h : Numbers refCount ctrlRefCount lockState weakCtrl sharedObj shared weak destroyed freed n)
    (hn : 0 < n .sharedObject)
    (ho : sharedObj = false) :
    Numbers refCount ctrlRefCount lockState weakCtrl sharedObj shared weak destroyed
      freed (shift n .sharedObject (.unlockForClone false)) := by
  obtain ⟨refs, once, dead, alive, clearing, unpublished, creator, block, freed⟩ := h
  constructor
  case refs => exact refs
  all_goals simp only [shift, reduceCtorEq, if_true, if_false]
  all_goals grind

/-- **A weak pointer makes a shared one**, also when there is no other one. -/
theorem resetResult
    (h : Numbers refCount ctrlRefCount lockState weakCtrl sharedObj shared weak destroyed freed n)
    (hn : 0 < n .resetResult) :
    Numbers (refCount + 1) ctrlRefCount lockState weakCtrl sharedObj (shared + 1) weak destroyed
      freed (shift n .resetResult (.unlockForClone true)) := by
  obtain ⟨refs, once, dead, alive, clearing, unpublished, creator, block, freed⟩ := h
  constructor
  case refs => grind
  all_goals simp only [shift, reduceCtorEq, if_true, if_false]
  all_goals grind

theorem unlockForClone
    (h : Numbers refCount ctrlRefCount lockState weakCtrl sharedObj shared weak destroyed freed n)
    {b : Bool}
    (hn : 0 < n (.unlockForClone b)) :
    Numbers refCount ctrlRefCount (lockState - 1) weakCtrl sharedObj shared weak destroyed
      freed (shift n (.unlockForClone b) .idle) := by
  obtain ⟨refs, once, dead, alive, clearing, unpublished, creator, block, freed⟩ := h
  cases b with
  | false =>
    constructor
    case refs => exact refs
    all_goals simp only [shift, reduceCtorEq, Position.unlockForClone.injEq, if_true, if_false]
    all_goals grind
  | true =>
    constructor
    case refs => exact refs
    all_goals simp only [shift, reduceCtorEq, Position.unlockForClone.injEq, if_true, if_false]
    all_goals grind

end Numbers

/-! ### The threads -/

/-- A shared pointer of the thread is in use. -/
def Position.usesShared : Position → Bool
  | .findWeakCtrl | .setWeakCtrl | .addRefShared | .addRefWeak | .unlockForClone true => true
  | _ => false

/-- A weak pointer of the thread is in use. -/
def Position.usesWeak : Position → Bool
  | .sharedObject | .resetResult | .unlockForClone _ => true
  | _ => false

variable {T : Type} [Fintype T]

/-- The threads have the pointers that they use, and the numbers are in balance. -/
structure Inv (s : State T) : Prop where
  shared : ∀ t, (s.position t).usesShared = true → 0 < s.shared t
  weak : ∀ t, (s.position t).usesWeak = true → 0 < s.weak t
  numbers : Numbers s.refCount s.ctrlRefCount s.lockState s.weakCtrl s.sharedObj (∑ t, s.shared t)
    (∑ t, s.weak t) s.destroyed s.freed (countAt s.position)

namespace Inv

variable {s : State T} {t : T}

theorem sum_pos (f : T → Nat) (h : 0 < f t) : 0 < ∑ u, f u :=
  h.trans_le (le_sum f t)

/-- A thread that uses a shared pointer keeps the object alive. -/
theorem shared_pos (h : Inv s) {x : Position} (hx : x.usesShared = true)
    (hn : 0 < countAt s.position x) : 0 < ∑ t, s.shared t := by
  obtain ⟨t, rfl⟩ := exists_of_countAt_pos hn
  exact sum_pos s.shared (h.shared t hx)

variable [DecidableEq T]

/-- A thread takes a step, and may have other pointers then. -/
theorem change (h : Inv s) {x y : Position} (hp : s.position t = x) (hne : x ≠ y)
    {refCount ctrlRefCount lockState : Int} {weakCtrl sharedObj : Bool} {destroyed freed : Nat}
    {shared weak : T → Nat} (hshared : ∀ u, u ≠ t → shared u = s.shared u)
    (hweak : ∀ u, u ≠ t → weak u = s.weak u) (hs : y.usesShared = true → 0 < shared t)
    (hw : y.usesWeak = true → 0 < weak t)
    (hn : Numbers refCount ctrlRefCount lockState weakCtrl sharedObj (∑ t, shared t)
      (∑ t, weak t) destroyed freed (shift (countAt s.position) x y)) :
    Inv (State.move ⟨refCount, weakCtrl, ctrlRefCount, sharedObj, lockState, shared, weak,
      s.position, destroyed, freed⟩ t y) where
  shared := held_update h.shared hshared hs
  weak := held_update h.weak hweak hw
  numbers := by
    rw [State.move]
    dsimp only
    rw [countAt_update hp hne]
    exact hn

/-- A thread takes a step, and the pointers stay. -/
theorem move (h : Inv s) {x y : Position} (hp : s.position t = x) (hne : x ≠ y)
    {refCount ctrlRefCount lockState : Int} {weakCtrl sharedObj : Bool} {destroyed freed : Nat}
    (hs : y.usesShared = true → 0 < s.shared t) (hw : y.usesWeak = true → 0 < s.weak t)
    (hn : Numbers refCount ctrlRefCount lockState weakCtrl sharedObj (∑ t, s.shared t)
      (∑ t, s.weak t) destroyed freed (shift (countAt s.position) x y)) :
    Inv (State.move ⟨refCount, weakCtrl, ctrlRefCount, sharedObj, lockState, s.shared, s.weak,
      s.position, destroyed, freed⟩ t y) :=
  h.change hp hne (fun _ _ => rfl) (fun _ _ => rfl) hs hw hn

omit [DecidableEq T] in
/-- A thread that does nothing has other pointers, and goes on to do nothing. -/
theorem stay (h : Inv s) (hp : s.position t = .idle)
    {refCount ctrlRefCount lockState : Int} {shared weak : T → Nat}
    (hshared : ∀ u, u ≠ t → shared u = s.shared u) (hweak : ∀ u, u ≠ t → weak u = s.weak u)
    (hn : Numbers refCount ctrlRefCount lockState s.weakCtrl s.sharedObj (∑ t, shared t)
      (∑ t, weak t) s.destroyed s.freed (countAt s.position)) :
    Inv ⟨refCount, s.weakCtrl, ctrlRefCount, s.sharedObj, lockState, shared, weak, s.position,
      s.destroyed, s.freed⟩ where
  shared u hu := by
    have hne : u ≠ t := by
      rintro rfl
      dsimp only at hu
      rw [hp] at hu
      cases hu
    exact (h.shared u hu).trans_eq (hshared u hne).symm
  weak u hu := by
    have hne : u ≠ t := by
      rintro rfl
      dsimp only at hu
      rw [hp] at hu
      cases hu
    exact (h.weak u hu).trans_eq (hweak u hne).symm
  numbers := hn

theorem move_idle (h : Inv s) (hp : s.position t = .idle) : Inv (s.move t .idle) := by
  have hsame : s.move t .idle = s := by
    rw [State.move, ← hp, Function.update_eq_self]
  rw [hsame]
  exact h

/-- The steps of an operation, one case for each position. -/
theorem stepAt (h : Inv s) {s' : State T} (hs : s.stepAt t (s.position t) = some s')
    (hr : Regular s (.step t)) : Inv s' := by
  have hshared := h.shared t
  have hweak := h.weak t
  have hcreator : 0 < countAt s.position .addRefShared → 0 < ∑ t, s.shared t :=
    h.shared_pos rfl
  rw [Regular] at hr
  cases hp : s.position t with
  | idle =>
    rw [hp] at hs
    cases hs
  | loadWeakCtrl =>
    rw [hp] at hs
    cases hs
    split
    next hw => exact h.move hp (by nofun) nofun nofun (h.numbers.loadWeakCtrl hw)
    next hw =>
      exact h.move hp (by nofun) nofun nofun
        (h.numbers.loadNone (countAt_pos hp) (Bool.eq_false_iff.mpr hw))
  | lockForDelete =>
    rw [hp] at hr
    rw [hp, State.stepAt] at hs
    split at hs
    next hl =>
      cases hs
      obtain ⟨hcount, hdestroyed, hdeletes⟩ := hr.2 hl
      have hnone : ∀ x : Position, x.deletes = true → countAt s.position x = 0 := by
        refine fun x hx => countAt_eq_zero fun u hu => ?_
        rw [← hu, hdeletes u] at hx
        cases hx
      refine h.move hp (by nofun) nofun nofun
        (h.numbers.lockForDelete (countAt_pos hp) hl hcount hdestroyed ?_)
      rw [hnone _ rfl, hnone _ rfl, hnone _ rfl, hnone _ rfl]
    next hl =>
      cases hs
      exact h.move hp (by nofun) nofun nofun
        (h.numbers.notLocked (countAt_pos hp) hl (h.shared_pos rfl))
  | clearSharedPtr =>
    rw [hp] at hs
    cases hs
    exact h.move hp (by nofun) nofun nofun (h.numbers.clearSharedPtr (countAt_pos hp))
  | resetCtrl =>
    rw [hp] at hs
    cases hs
    split
    next hc =>
      exact h.move hp (by nofun) nofun nofun (h.numbers.resetLastCtrl (countAt_pos hp) hcreator hc)
    next hc => exact h.move hp (by nofun) nofun nofun (h.numbers.resetCtrl (countAt_pos hp) hc)
  | deallocateCtrl =>
    rw [hp] at hs
    cases hs
    exact h.move hp (by nofun) nofun nofun (h.numbers.deallocateCtrl (countAt_pos hp))
  | destroy =>
    rw [hp] at hs
    cases hs
    exact h.move hp (by nofun) nofun nofun (h.numbers.destroy (countAt_pos hp))
  | findWeakCtrl =>
    rw [hp] at hs hshared
    cases hs
    split
    next hw => exact h.move hp (by nofun) (fun _ => hshared rfl) nofun (h.numbers.foundCtrl hw)
    · exact h.move hp (by nofun) (fun _ => hshared rfl) nofun h.numbers.foundNone
  | setWeakCtrl =>
    rw [hp] at hs hshared hr
    cases hs
    exact h.move hp (by nofun) (fun _ => hshared rfl) nofun
      (h.numbers.setWeakCtrl (sum_pos s.shared (hshared rfl)) hr)
  | addRefShared =>
    rw [hp] at hs hshared
    cases hs
    exact h.move hp (by nofun) (fun _ => hshared rfl) nofun
      (h.numbers.addRefShared (countAt_pos hp) (sum_pos s.shared (hshared rfl)))
  | addRefWeak =>
    rw [hp] at hs hshared
    cases hs
    refine h.change hp (by nofun) (fun _ _ => rfl) (fun u hu => Function.update_of_ne hu _ _)
      nofun nofun ?_
    rw [sum_update_succ]
    exact h.numbers.addRefWeak (countAt_pos hp) (sum_pos s.shared (hshared rfl))
  | deallocateWeak =>
    rw [hp] at hs
    cases hs
    exact h.move hp (by nofun) nofun nofun (h.numbers.deallocateWeak (countAt_pos hp))
  | sharedObject =>
    rw [hp] at hs hweak
    cases hs
    split
    next ho =>
      exact h.move hp (by nofun) nofun (fun _ => hweak rfl) (h.numbers.sharedObject (countAt_pos hp) ho)
    next ho =>
      exact h.move hp (by nofun) nofun (fun _ => hweak rfl)
        (h.numbers.sharedObjectNull (countAt_pos hp) (Bool.eq_false_iff.mpr ho))
  | resetResult =>
    rw [hp] at hs hweak
    cases hs
    refine h.change hp (by nofun) (fun u hu => Function.update_of_ne hu _ _) (fun _ _ => rfl)
      (fun _ => ?_) (fun _ => hweak rfl) ?_
    · rw [Function.update_self]
      exact Nat.succ_pos _
    · rw [sum_update_succ]
      exact h.numbers.resetResult (countAt_pos hp)
  | unlockForClone b =>
    rw [hp] at hs
    cases hs
    exact h.move hp (by nofun) nofun nofun (h.numbers.unlockForClone (countAt_pos hp))

theorem step (s : State T) (e : Event T) (s' : State T) (h : Inv s) (hs : s.step e = some s')
    (hr : Regular s e) : Inv s' := by
  cases e with
  | copyShared t =>
    rw [State.step] at hs
    split at hs
    next hu =>
      cases hs
      obtain ⟨hp, hpos⟩ := of_decide_eq_true hu
      refine h.stay hp (fun u hu => Function.update_of_ne hu _ _) (fun _ _ => rfl) ?_
      rw [sum_update_succ]
      exact h.numbers.copyShared (sum_pos s.shared hpos)
    · cases hs
  | resetShared t =>
    rw [State.step] at hs
    split at hs
    next hu =>
      cases hs
      obtain ⟨hp, hpos⟩ := of_decide_eq_true hu
      split
      next hc =>
        refine h.change hp (by nofun) (fun u hu => Function.update_of_ne hu _ _) (fun _ _ => rfl)
          nofun nofun ?_
        rw [sum_update_pred s.shared t hpos]
        exact h.numbers.resetLastShared (sum_pos s.shared hpos) hc
      next hc =>
        refine (h.stay hp (fun u hu => Function.update_of_ne hu _ _) (fun _ _ => rfl) ?_).move_idle
          hp
        rw [sum_update_pred s.shared t hpos]
        exact h.numbers.resetShared (sum_pos s.shared hpos) hc
    · cases hs
  | createWeak t =>
    rw [State.step] at hs
    split at hs
    next hu =>
      cases hs
      obtain ⟨hp, hpos⟩ := of_decide_eq_true hu
      exact h.move hp (by nofun) (fun _ => hpos) nofun h.numbers.createWeak
    · cases hs
  | copyWeak t =>
    rw [State.step] at hs
    split at hs
    next hu =>
      cases hs
      obtain ⟨hp, hpos⟩ := of_decide_eq_true hu
      refine h.stay hp (fun _ _ => rfl) (fun u hu => Function.update_of_ne hu _ _) ?_
      rw [sum_update_succ]
      exact h.numbers.copyWeak (sum_pos s.weak hpos)
    · cases hs
  | resetWeak t =>
    rw [State.step] at hs
    split at hs
    next hu =>
      cases hs
      obtain ⟨hp, hpos⟩ := of_decide_eq_true hu
      split
      next hc =>
        refine h.change hp (by nofun) (fun _ _ => rfl) (fun u hu => Function.update_of_ne hu _ _)
          nofun nofun ?_
        rw [sum_update_pred s.weak t hpos]
        exact h.numbers.resetLastWeak (sum_pos s.weak hpos) hc (countAt_eq_zero (hr hc))
      next hc =>
        refine (h.stay hp (fun _ _ => rfl) (fun u hu => Function.update_of_ne hu _ _) ?_).move_idle
          hp
        rw [sum_update_pred s.weak t hpos]
        exact h.numbers.resetWeak (sum_pos s.weak hpos) hc
    · cases hs
  | lock t =>
    rw [State.step] at hs
    split at hs
    next hu =>
      cases hs
      obtain ⟨hp, hpos⟩ := of_decide_eq_true hu
      have hclear : 0 < countAt s.position .clearSharedPtr → s.lockState < 0 :=
        fun hn => hr (exists_of_countAt_pos hn)
      split
      next hl =>
        exact h.move hp (by nofun) nofun (fun _ => hpos)
          (h.numbers.lock (sum_pos s.weak hpos) hl hclear)
      next hl =>
        refine (h.stay hp (fun _ _ => rfl) (fun _ _ => rfl) ?_).move_idle hp
        exact h.numbers.lockRefused (by omega)
    · cases hs
  | step t => exact h.stepAt hs hr

omit [DecidableEq T] in
/-- **The promise** from the numbers. -/
theorem kept (h : Inv s) : Kept s := by
  obtain ⟨-, -, -, once, dead, alive, -, unpublished, -, block, freed⟩ := h
  have hidle : (∀ t, s.position t = .idle) → ∀ x, x ≠ .idle → countAt s.position x = 0 :=
    fun hall x hx => countAt_eq_zero fun t ht => hx (ht.symm.trans (hall t))
  have hfreed : 0 < s.freed → s.weakCtrl = true := by
    intro hf
    by_contra hw
    have := (unpublished (Bool.eq_false_iff.mpr hw)).2.2.1
    omega
  have hgone : (∀ t, s.position t = .idle) → (∀ t, s.shared t = 0) → s.destroyed = 1 := by
    intro hall hs
    by_contra hd
    have hzero : ∑ t, s.shared t = 0 := Finset.sum_eq_zero fun t _ => hs t
    have hnone := hidle hall
    have hdelete := hnone .clearSharedPtr nofun
    have hreset := hnone .resetCtrl nofun
    have hdeallocate := hnone .deallocateCtrl nofun
    have hdestroy := hnone .destroy nofun
    have hpending := hnone .loadWeakCtrl nofun
    have hlock := hnone .lockForDelete nofun
    have hread := hnone .sharedObject nofun
    have hmake := hnone .resetResult nofun
    have hlive := (alive (by omega)).2.2.2 (by omega) (by omega)
    omega
  constructor
  case destroyedOnce => omega
  case alive =>
    intro hd t
    exact eq_zero_of_sum (dead (by omega)).1 t
  case freedOnce =>
    by_cases hf : 0 < s.freed
    · have := (freed (hfreed hf)).1
      omega
    · omega
  case unused =>
    intro hf t
    have hw := hfreed hf
    obtain ⟨hc, ha⟩ := (freed hw).2.mp (by have := (freed hw).1; omega)
    have hblock := block hw
    have hdead := dead (by omega)
    exact ⟨eq_zero_of_sum hdead.1 t, eq_zero_of_sum (by omega) t⟩
  case gone => exact hgone
  case released =>
    intro hall hw hs hweak
    have hd := hgone hall hs
    have hzero : ∑ t, s.weak t = 0 := Finset.sum_eq_zero fun t _ => hweak t
    have hnone := hidle hall
    have hcreator := hnone .addRefShared nofun
    have hdeallocate := hnone .deallocateCtrl nofun
    have hdestroy := hnone .destroy nofun
    have hlast := hnone .deallocateWeak nofun
    have hblock := block hw
    have := (freed hw).2.mpr ⟨by omega, hcreator⟩
    omega

end Inv

/-! ### The order of the destruction and the release -/

/-- The control block is about to be given back. -/
def Position.frees : Position → Bool
  | .deallocateCtrl | .deallocateWeak => true
  | _ => false

/-- The object was destroyed before the control block is given back. -/
structure Later (s : State T) : Prop where
  frees : ∀ t, (s.position t).frees = true → s.destroyed = 1
  freed : 0 < s.freed → s.destroyed = 1

namespace Later

variable {s : State T} {t : T} [DecidableEq T]

omit [Fintype T] in
theorem move (h : Later s) {y : Position} {refCount ctrlRefCount lockState : Int}
    {weakCtrl sharedObj : Bool} {shared weak : T → Nat}
    (hy : y.frees = true → s.destroyed = 1) :
    Later (State.move ⟨refCount, weakCtrl, ctrlRefCount, sharedObj, lockState, shared, weak,
      s.position, s.destroyed, s.freed⟩ t y) where
  frees u hu := by
    rw [State.move] at hu ⊢
    dsimp only at hu ⊢
    by_cases hut : u = t
    · rw [hut, Function.update_self] at hu
      exact hy hu
    · rw [Function.update_of_ne hut] at hu
      exact h.frees u hu
  freed := h.freed

theorem stepAt (h : Later s) (hi : Inv s) {s' : State T}
    (hs : s.stepAt t (s.position t) = some s') (hr : WeakLast s (.step t)) : Later s' := by
  rw [WeakLast] at hr
  cases hp : s.position t with
  | idle =>
    rw [hp] at hs
    cases hs
  | deallocateCtrl | deallocateWeak =>
    rw [hp] at hs
    cases hs
    have hd := h.frees t (by rw [hp]; rfl)
    exact ⟨fun _ _ => hd, fun _ => hd⟩
  | destroy =>
    -- the object is not destroyed yet, so the control block is in use
    rw [hp] at hs
    cases hs
    have hpos := countAt_pos hp
    have hnot : s.destroyed ≠ 1 := by
      have := hi.numbers.once
      omega
    refine ⟨fun u hu => ?_, fun hf => absurd (h.freed hf) hnot⟩
    rw [State.move] at hu
    dsimp only at hu
    by_cases hut : u = t
    · rw [hut, Function.update_self] at hu
      cases hu
    · rw [Function.update_of_ne hut] at hu
      exact absurd (h.frees u hu) hnot
  | resetCtrl =>
    rw [hp] at hs
    cases hs
    rw [if_neg (hr hp)]
    exact h.move nofun
  | loadWeakCtrl | findWeakCtrl | sharedObject =>
    rw [hp] at hs
    cases hs
    split
    · exact h.move nofun
    · exact h.move nofun
  | lockForDelete =>
    rw [hp, State.stepAt] at hs
    split at hs
    · cases hs
      exact h.move nofun
    · cases hs
      exact h.move nofun
  | clearSharedPtr | setWeakCtrl | addRefShared | addRefWeak | resetResult | unlockForClone =>
    rw [hp] at hs
    cases hs
    exact h.move nofun

theorem step (h : Later s) (hi : Inv s) {e : Event T} {s' : State T} (hs : s.step e = some s')
    (hr : Regular s e) (hl : WeakLast s e) : Later s' := by
  cases e with
  | copyShared t | copyWeak t =>
    rw [State.step] at hs
    split at hs
    · cases hs
      exact ⟨h.frees, h.freed⟩
    · cases hs
  | resetShared t =>
    rw [State.step] at hs
    split at hs
    · cases hs
      split
      · exact h.move nofun
      · exact h.move nofun
    · cases hs
  | createWeak t =>
    rw [State.step] at hs
    split at hs
    · cases hs
      exact h.move nofun
    · cases hs
  | resetWeak t =>
    rw [State.step] at hs
    split at hs
    next hu =>
      cases hs
      obtain ⟨hp, hpos⟩ := of_decide_eq_true hu
      refine h.move fun hy => ?_
      split at hy
      next hc =>
        have hweak := Inv.sum_pos s.weak hpos
        obtain ⟨-, -, -, once, dead, alive, -, unpublished, -, block, freed⟩ := hi
        have hw : s.weakCtrl = true := by
          by_contra hw
          have := (unpublished (Bool.eq_false_iff.mpr hw)).2.1
          omega
        have hcreator := countAt_eq_zero (hr hc)
        have hdestroy := countAt_eq_zero (hl hc)
        have hblock := block hw
        have hfreed := freed hw
        omega
      · cases hy
    · cases hs
  | lock t =>
    rw [State.step] at hs
    split at hs
    · cases hs
      refine h.move fun hy => ?_
      split at hy
      · cases hy
      · cases hy
    · cases hs
  | step t => exact h.stepAt hi hs hl

end Later

variable [DecidableEq T]

/-! ### Runs -/

omit [DecidableEq T] in
theorem Inv.initial {shared : T → Nat} (h : ∃ t, 0 < shared t) : Inv (State.initial shared) where
  shared := nofun
  weak := nofun
  numbers := by
    obtain ⟨t, ht⟩ := h
    have hpos := Inv.sum_pos shared ht
    have hnone : ∀ x, x ≠ .idle → countAt (fun _ : T => Position.idle) x = 0 :=
      fun x hx => countAt_eq_zero fun t ht => hx ht.symm
    have hload := hnone .loadWeakCtrl nofun
    have hlock := hnone .lockForDelete nofun
    have hclear := hnone .clearSharedPtr nofun
    have hreset := hnone .resetCtrl nofun
    have hdeallocate := hnone .deallocateCtrl nofun
    have hdestroy := hnone .destroy nofun
    have hshared := hnone .addRefShared nofun
    have hweak := hnone .addRefWeak nofun
    have hlast := hnone .deallocateWeak nofun
    have hobject := hnone .sharedObject nofun
    have hresult := hnone .resetResult nofun
    have hunlock := hnone (.unlockForClone true) nofun
    have hunlock' := hnone (.unlockForClone false) nofun
    rw [State.initial]
    dsimp only
    constructor
    case refs => exact (Nat.cast_sum _ _).symm
    case once => omega
    case dead => omega
    case alive => exact fun _ => ⟨rfl, hunlock', by omega, fun _ _ => hpos⟩
    case clearing => exact fun h => absurd h Bool.false_ne_true
    case unpublished =>
      exact fun _ => ⟨rfl, Finset.sum_const_zero, rfl, by omega, by omega, by omega⟩
    case creator => omega
    case block => exact fun h => absurd h Bool.false_ne_true
    case freed => exact fun h => absurd h Bool.false_ne_true

/-- A weak pointer is created and locked, and all pointers are reset, the weak one at the end. -/
def sampleRun : List (Event (Fin 2)) :=
  [.createWeak 1, .step 1, .step 1, .step 1, .step 1, .resetShared 1, .lock 1, .step 1, .step 1,
    .step 1, .resetShared 0, .resetShared 1, .step 1, .step 1, .step 1, .step 1, .step 1,
    .resetWeak 1, .step 1]

/-- A weak pointer is locked between the reset of the last shared pointer and the deletion. -/
def raceRun : List (Event (Fin 2)) :=
  [.createWeak 1, .step 1, .step 1, .step 1, .step 1, .resetShared 1, .resetShared 0, .lock 1,
    .step 1, .step 1, .step 1, .step 0, .step 0, .step 0, .step 0, .step 0]

end Hatn.Common.MempoolPointers
