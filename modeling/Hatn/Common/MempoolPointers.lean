import Hatn.Order.Runs
import Mathlib.Data.Fintype.BigOperators
import Mathlib.Logic.Function.Basic

/-!
# Shared and weak pointers of the memory pool

An object has a count of the shared pointers to it and, from the first weak pointer on, a control
block.  The block counts the weak pointers and one more for the object, and has a state that is
positive while weak pointers are being locked, and negative once the object is being deleted.

Each thread uses its own pointers, any number of them, and does one operation at a time.  A step is
one atomic operation of it, or one access to `m_sharedObj`.  A control block whose publication
fails is given back by its thread at once, so there is one control block at most.
-/

namespace Hatn.Common.MempoolPointers

/-- The next step of a thread. -/
inductive Position
  | idle
  /-- `SharedPtrBase::reset` for the last pointer: `mm->weakCtrl()` -/
  | loadWeakCtrl
  | lockForDelete
  | clearSharedPtr
  /-- `weak->reset()` -/
  | resetCtrl
  | deallocateCtrl
  | destroy
  /-- `loadFromShared`: `sharedPtr.weakCtrl()` -/
  | findWeakCtrl
  /-- `WeakPool::allocate`: `obj->setWeakCtrl(ctrl)` -/
  | setWeakCtrl
  /-- `addRef(); // this one is for shared pointer` -/
  | addRefShared
  /-- `addRef(); // this one is for weak pointer` -/
  | addRefWeak
  /-- `WeakPtr::reset` for the last pointer -/
  | deallocateWeak
  /-- `WeakPtr::lock`: `d->sharedObject()` -/
  | sharedObject
  /-- `result.reset(obj,m)` -/
  | resetResult
  /-- The result is a pointer to the object, or a null pointer. -/
  | unlockForClone (locked : Bool)
  deriving DecidableEq

structure State (T : Type) where
  refCount : Int
  /-- The control block is published. -/
  weakCtrl : Bool
  ctrlRefCount : Int
  /-- `m_sharedObj` is not null. -/
  sharedObj : Bool
  lockState : Int
  /-- the pointers that each thread has -/
  shared : T → Nat
  weak : T → Nat
  position : T → Position
  /-- how often the object was destroyed -/
  destroyed : Nat
  /-- how often the control block was given back -/
  freed : Nat

/-- A thread begins an operation, or takes the next step of it. -/
inductive Event (T : Type)
  | copyShared (t : T)
  | resetShared (t : T)
  | createWeak (t : T)
  | copyWeak (t : T)
  | resetWeak (t : T)
  | lock (t : T)
  | step (t : T)

namespace State

variable {T : Type} [DecidableEq T]

/-- An object and pointers to it in the threads, and no weak pointers yet. -/
def initial [Fintype T] (shared : T → Nat) : State T :=
  ⟨∑ t, (shared t : Int), false, 0, true, 0, shared, fun _ => 0, fun _ => .idle, 0, 0⟩

def move (s : State T) (t : T) (x : Position) : State T :=
  { s with position := Function.update s.position t x }

def setShared (s : State T) (t : T) (n : Nat) : State T :=
  { s with shared := Function.update s.shared t n }

def setWeak (s : State T) (t : T) (n : Nat) : State T :=
  { s with weak := Function.update s.weak t n }

/-- The step of a thread at a position. -/
def stepAt (s : State T) (t : T) : Position → Option (State T)
  | .idle => none
  | .loadWeakCtrl => some (s.move t (if s.weakCtrl then .lockForDelete else .destroy))
  | .lockForDelete =>
    if s.lockState = 0 then some ({ s with lockState := -2 ^ 31 }.move t .clearSharedPtr)
    else some (s.move t .idle)
  | .clearSharedPtr => some ({ s with sharedObj := false }.move t .resetCtrl)
  | .resetCtrl =>
    some ({ s with ctrlRefCount := s.ctrlRefCount - 1 }.move t
      (if s.ctrlRefCount = 1 then .deallocateCtrl else .destroy))
  | .deallocateCtrl => some ({ s with freed := s.freed + 1 }.move t .destroy)
  | .destroy => some ({ s with destroyed := s.destroyed + 1 }.move t .idle)
  | .findWeakCtrl => some (s.move t (if s.weakCtrl then .addRefWeak else .setWeakCtrl))
  | .setWeakCtrl => some ({ s with weakCtrl := true }.move t .addRefShared)
  | .addRefShared => some ({ s with ctrlRefCount := s.ctrlRefCount + 1 }.move t .addRefWeak)
  | .addRefWeak =>
    some (({ s with ctrlRefCount := s.ctrlRefCount + 1 }.setWeak t (s.weak t + 1)).move t .idle)
  | .deallocateWeak => some ({ s with freed := s.freed + 1 }.move t .idle)
  | .sharedObject => some (s.move t (if s.sharedObj then .resetResult else .unlockForClone false))
  | .resetResult =>
    some (({ s with refCount := s.refCount + 1 }.setShared t (s.shared t + 1)).move t
      (.unlockForClone true))
  | .unlockForClone _ => some ({ s with lockState := s.lockState - 1 }.move t .idle)

/-- A thread that does nothing begins an operation on one of its shared pointers. -/
def usesShared (s : State T) (t : T) : Bool := decide (s.position t = .idle ∧ 0 < s.shared t)

def usesWeak (s : State T) (t : T) : Bool := decide (s.position t = .idle ∧ 0 < s.weak t)

def step (s : State T) : Event T → Option (State T)
  | .copyShared t =>
    if s.usesShared t then
      some ({ s with refCount := s.refCount + 1 }.setShared t (s.shared t + 1))
    else none
  | .resetShared t =>
    if s.usesShared t then
      some (({ s with refCount := s.refCount - 1 }.setShared t (s.shared t - 1)).move t
        (if s.refCount = 1 then .loadWeakCtrl else .idle))
    else none
  | .createWeak t => if s.usesShared t then some (s.move t .findWeakCtrl) else none
  | .copyWeak t =>
    if s.usesWeak t then
      some ({ s with ctrlRefCount := s.ctrlRefCount + 1 }.setWeak t (s.weak t + 1))
    else none
  | .resetWeak t =>
    if s.usesWeak t then
      some (({ s with ctrlRefCount := s.ctrlRefCount - 1 }.setWeak t (s.weak t - 1)).move t
        (if s.ctrlRefCount = 1 then .deallocateWeak else .idle))
    else none
  | .lock t =>
    if s.usesWeak t then
      some ({ s with lockState := s.lockState + 1 }.move t
        (if 0 ≤ s.lockState then .sharedObject else .idle))
    else none
  | .step t => s.stepAt t (s.position t)

end State

variable {T : Type}

/-- **What is promised of the object and its control block**, but for the order in which both are
given back. -/
structure Kept (s : State T) : Prop where
  destroyedOnce : s.destroyed ≤ 1
  alive : 0 < s.destroyed → ∀ t, s.shared t = 0
  freedOnce : s.freed ≤ 1
  unused : 0 < s.freed → ∀ t, s.shared t = 0 ∧ s.weak t = 0
  gone : (∀ t, s.position t = .idle) → (∀ t, s.shared t = 0) → s.destroyed = 1
  released : (∀ t, s.position t = .idle) → s.weakCtrl = true → (∀ t, s.shared t = 0) →
    (∀ t, s.weak t = 0) → s.freed = 1

/-- The control block is given back behind the object. -/
def FreedLater (s : State T) : Prop := 0 < s.freed → s.destroyed = 1

/-- `SharedPtrBase::reset` has begun to delete the object. -/
def Position.deletes : Position → Bool
  | .clearSharedPtr | .resetCtrl | .deallocateCtrl | .destroy => true
  | _ => false

/-- **The steps that keep the promise.**  The last shared pointer is reset with nobody locking a
weak pointer in between; the first weak pointer is created by one thread, and is not left behind by
one that finds its control block before it is counted for the object. -/
def Regular (s : State T) : Event T → Prop
  -- the state does not become zero again by refused calls while the object is being deleted
  | .lock _ => (∃ t, s.position t = .clearSharedPtr) → s.lockState < 0
  | .resetWeak _ => s.ctrlRefCount = 1 → ∀ t, s.position t ≠ .addRefShared
  | .step t =>
    match s.position t with
    | .loadWeakCtrl => s.destroyed = 0
    | .lockForDelete => s.freed = 0 ∧ (s.lockState = 0 →
        s.refCount = 0 ∧ s.destroyed = 0 ∧ ∀ u, (s.position u).deletes = false)
    | .setWeakCtrl => s.weakCtrl = false
    | _ => True
  | _ => True

/-- The last weak pointer is reset behind the destruction of the object. -/
def WeakLast (s : State T) : Event T → Prop
  | .resetWeak _ => s.ctrlRefCount = 1 → ∀ t, s.position t ≠ .destroy
  | .step t => s.position t = .resetCtrl → s.ctrlRefCount ≠ 1
  | _ => True

end Hatn.Common.MempoolPointers
