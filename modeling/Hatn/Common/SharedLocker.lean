import Hatn.Common.MachineInt
import Hatn.Order.Runs
import Hatn.Threads.Positions

/-!
# The shared locker

A thread gets shared access when it finds the counter non-negative, and adds one to it; exclusive
access sets the counter to the least number of its type.  A thread that comes for shared access
meanwhile leaves its increment in the counter, where the exclusive one overwrites it, waits for
the mutex, and tries once more with the mutex locked.

The steps of a thread are the atomic operations of its program, and its position is the next
one.  The positions of `acquireShared` say in how many calls of itself it is.
-/

namespace Hatn.Common.SharedLocker

open Hatn.Order Hatn.Threads

/-- `COUNTER_LOCK_NEGATIVE_VAL` -/
def counterLockNegativeVal : Int := -2 ^ 31

inductive Position
  | idle
  /-- `m_sharedCounter.fetch_add(1)` -/
  | addCounter (depth : Nat)
  /-- the assertion that this thread has not locked the mutex -/
  | checkShared (depth : Nat)
  | lockShared (depth : Nat)
  /-- `m_lockThread.store(currentThread)` in front of the inner call -/
  | setShared (depth : Nat)
  | clearShared (depth : Nat)
  | unlockShared (depth : Nat)
  /-- The thread has got shared access. -/
  | shared
  | subtractCounter
  | checkExclusive
  | lockExclusive
  | exchangeCounter
  | setExclusive
  /-- The thread has got exclusive access. -/
  | exclusive
  | clearExclusive
  | storeCounter
  | unlockExclusive
  /-- An assertion fired. -/
  | asserted
  deriving DecidableEq

namespace Position

/-- Where a call of `acquireShared` returns to. -/
def returned : Nat → Position
  | 0 => .shared
  | depth + 1 => .clearShared depth

/-- The calls of `acquireShared` inside another one. -/
def depth : Position → Nat
  | addCounter d | checkShared d | lockShared d | setShared d | clearShared d | unlockShared d => d
  | _ => 0

/-- Shared access is taken, and not given back. -/
@[simp] def holdsShared : Position → Bool
  | clearShared _ | unlockShared _ | shared | subtractCounter => true
  | _ => false

/-- Exclusive access is taken, and not given back. -/
@[simp] def holdsExclusive : Position → Bool
  | setExclusive | exclusive | clearExclusive | storeCounter => true
  | _ => false

end Position

structure Locker (T : Type) where
  sharedCounter : Int
  /-- the owner of `m_exclusiveMutex` -/
  mutex : Option T
  lockThread : Option T
  position : T → Position

/-- A thread calls a method, or takes the next step of the method that it has called. -/
inductive Event (T : Type)
  | acquireShared (t : T)
  | releaseShared (t : T)
  | acquireExclusive (t : T)
  | releaseExclusive (t : T)
  | step (t : T)
  /-- `compare_exchange_weak` fails, also when the counter is as expected. -/
  | failExchange (t : T)

namespace Locker

variable {T : Type} [DecidableEq T]

def initial : Locker T := ⟨0, none, none, fun _ => .idle⟩

def move (l : Locker T) (t : T) (x : Position) : Locker T :=
  { l with position := Function.update l.position t x }

/-- A method is called. -/
def call (l : Locker T) (t : T) (src dst : Position) : Option (Locker T) :=
  if l.position t = src then some (l.move t dst) else none

/-- The step of a thread at a position. -/
def stepAt (l : Locker T) (t : T) : Position → Option (Locker T)
  | .addCounter depth =>
    some ({ l with sharedCounter := toInt (l.sharedCounter + 1) }.move t
      (if 0 ≤ l.sharedCounter then .returned depth else .checkShared depth))
  | .checkShared depth =>
    some (l.move t (if l.lockThread = some t then .asserted else .lockShared depth))
  | .lockShared depth =>
    if l.mutex = none then some ({ l with mutex := some t }.move t (.setShared depth)) else none
  | .setShared depth => some ({ l with lockThread := some t }.move t (.addCounter (depth + 1)))
  | .clearShared depth => some ({ l with lockThread := none }.move t (.unlockShared depth))
  | .unlockShared depth => some ({ l with mutex := none }.move t (.returned depth))
  | .subtractCounter =>
    some ({ l with sharedCounter := toInt (l.sharedCounter - 1) }.move t .idle)
  | .checkExclusive =>
    some (l.move t (if l.lockThread = some t then .asserted else .lockExclusive))
  | .lockExclusive =>
    if l.mutex = none then some ({ l with mutex := some t }.move t .exchangeCounter) else none
  | .exchangeCounter =>
    if l.sharedCounter = 0 then
      some ({ l with sharedCounter := counterLockNegativeVal }.move t .setExclusive)
    else some l
  | .setExclusive => some ({ l with lockThread := some t }.move t .exclusive)
  | .clearExclusive => some ({ l with lockThread := none }.move t .storeCounter)
  | .storeCounter => some ({ l with sharedCounter := 0 }.move t .unlockExclusive)
  | .unlockExclusive => some ({ l with mutex := none }.move t .idle)
  | .idle | .shared | .exclusive | .asserted => none

def step (l : Locker T) : Event T → Option (Locker T)
  | .acquireShared t => l.call t .idle (.addCounter 0)
  | .releaseShared t => l.call t .shared .subtractCounter
  | .acquireExclusive t => l.call t .idle .checkExclusive
  | .releaseExclusive t => l.call t .exclusive .clearExclusive
  | .step t => l.stepAt t (l.position t)
  | .failExchange t => if l.position t = .exchangeCounter then some l else none

end Locker

/-- **What the locker promises.** -/
structure Excludes {T : Type} (l : Locker T) : Prop where
  exclusive : ∀ t u, t ≠ u → (l.position t).holdsExclusive = true →
    (l.position u).holdsShared = false ∧ (l.position u).holdsExclusive = false
  asserted : ∀ t, l.position t ≠ .asserted
  depth : ∀ t, (l.position t).depth ≤ 1
  free : (∀ t, l.position t = .idle) → l.sharedCounter = 0 ∧ l.mutex = none

/-! ### What the fields say of the positions -/

namespace Position

/-- The mutex is locked by this thread. -/
def ownsMutex : Position → Bool
  | setShared _ | addCounter (_ + 1) | clearShared _ | unlockShared _ => true
  | exchangeCounter | setExclusive | exclusive | clearExclusive | storeCounter => true
  | unlockExclusive => true
  | _ => false

/-- `m_lockThread` is this thread. -/
def isLockThread : Position → Bool
  | addCounter (_ + 1) | clearShared _ | exclusive | clearExclusive => true
  | _ => false

/-- The thread was refused shared access, and does not own the mutex yet. -/
def refused : Position → Bool
  | checkShared _ | lockShared _ => true
  | _ => false

/-- The positions that are reached. -/
def reached : Position → Bool
  | addCounter d => decide (d ≤ 1)
  | checkShared d | lockShared d | setShared d | clearShared d | unlockShared d => decide (d = 0)
  | asserted => false
  | _ => true

theorem ownsMutex_of_holdsExclusive {x : Position} (h : x.holdsExclusive = true) :
    x.ownsMutex = true := by
  cases x with
  | setExclusive | exclusive | clearExclusive | storeCounter => rfl
  | _ => cases h

end Position

variable {T : Type} [Fintype T] {l : Locker T} {t : T}

/-- The counter is the number of threads with shared access, or counts from the least number on
some of those that were refused. -/
structure Inv (l : Locker T) : Prop where
  reached : ∀ t, (l.position t).reached = true
  mutex : ∀ t, l.mutex = some t ↔ (l.position t).ownsMutex = true
  lockThread : ∀ t, l.lockThread = some t ↔ (l.position t).isLockThread = true
  counter : (count l.position Position.holdsExclusive = 0 ∧
      l.sharedCounter = count l.position Position.holdsShared) ∨
    (count l.position Position.holdsExclusive = 1 ∧ count l.position Position.holdsShared = 0 ∧
      ∃ k ≤ count l.position Position.refused, l.sharedCounter = counterLockNegativeVal + k)

namespace Inv

/-- There is exclusive access only for the owner of the mutex. -/
theorem noExclusive (h : Inv l)
    (hx : ∀ u, l.mutex = some u → (l.position u).holdsExclusive = false) :
    count l.position Position.holdsExclusive = 0 := by
  rw [count_eq_zero_iff]
  intro u
  by_contra hu
  have hu : (l.position u).holdsExclusive = true := by simpa using hu
  have hm := (h.mutex u).mpr (Position.ownsMutex_of_holdsExclusive hu)
  exact Bool.false_ne_true ((hx u hm).symm.trans hu)

theorem noExclusive_of_owner (h : Inv l) (ho : (l.position t).ownsMutex = true)
    (hx : (l.position t).holdsExclusive = false) :
    count l.position Position.holdsExclusive = 0 := by
  refine h.noExclusive fun u hu => ?_
  have ht := (h.mutex t).mpr ho
  rw [ht] at hu
  rw [← Option.some.inj hu]
  exact hx

theorem shared_of_noExclusive (h : Inv l) (hx : count l.position Position.holdsExclusive = 0) :
    l.sharedCounter = count l.position Position.holdsShared := by
  obtain ⟨-, hc⟩ | ⟨h1, -⟩ := h.counter
  · exact hc
  · omega

/-- The owner of the mutex is the only one that may be in `m_lockThread`. -/
theorem lockThread_of_owner (h : Inv l) (ho : (l.position t).ownsMutex = true) :
    l.lockThread = none ∨ l.lockThread = some t := by
  cases hl : l.lockThread with
  | none => exact .inl rfl
  | some u =>
    have hu := (h.lockThread u).mp hl
    have howns : (l.position u).ownsMutex = true := by
      cases hp : l.position u with
      | addCounter d =>
        rw [hp] at hu
        cases d with
        | zero => cases hu
        | succ d => rfl
      | clearShared | exclusive | clearExclusive => rfl
      | _ => rw [hp] at hu; cases hu
    have := ((h.mutex u).mpr howns).symm.trans ((h.mutex t).mpr ho)
    rw [Option.some.inj this]
    exact .inr rfl

variable [DecidableEq T] {x : Position}

/-- A thread moves, and the fields follow. -/
theorem move (h : Inv l) {c : Int} {m lt : Option T} (hr : x.reached = true)
    (hm : ∀ u, u ≠ t → (m = some u ↔ l.mutex = some u)) (hmt : m = some t ↔ x.ownsMutex = true)
    (hl : ∀ u, u ≠ t → (lt = some u ↔ l.lockThread = some u))
    (hlt : lt = some t ↔ x.isLockThread = true)
    (hc : (count (Function.update l.position t x) Position.holdsExclusive = 0 ∧
        c = count (Function.update l.position t x) Position.holdsShared) ∨
      (count (Function.update l.position t x) Position.holdsExclusive = 1 ∧
        count (Function.update l.position t x) Position.holdsShared = 0 ∧
        ∃ k ≤ count (Function.update l.position t x) Position.refused,
          c = counterLockNegativeVal + k)) :
    Inv (Locker.move ⟨c, m, lt, l.position⟩ t x) where
  reached u := by
    rw [Locker.move]
    dsimp only
    by_cases hu : u = t
    · rwa [hu, Function.update_self]
    · rw [Function.update_of_ne hu]
      exact h.reached u
  mutex := named_update h.mutex hm hmt
  lockThread := named_update h.lockThread hl hlt
  counter := hc

/-- A thread moves between positions that count the same. -/
theorem move_same (h : Inv l) {m lt : Option T} (hr : x.reached = true)
    (hm : ∀ u, u ≠ t → (m = some u ↔ l.mutex = some u)) (hmt : m = some t ↔ x.ownsMutex = true)
    (hl : ∀ u, u ≠ t → (lt = some u ↔ l.lockThread = some u))
    (hlt : lt = some t ↔ x.isLockThread = true)
    (hshared : x.holdsShared = (l.position t).holdsShared)
    (hexclusive : x.holdsExclusive = (l.position t).holdsExclusive)
    (hrefused : x.refused = (l.position t).refused) :
    Inv (Locker.move ⟨l.sharedCounter, m, lt, l.position⟩ t x) := by
  refine h.move hr hm hmt hl hlt ?_
  rw [count_update_of_eq hshared, count_update_of_eq hexclusive, count_update_of_eq hrefused]
  exact h.counter

/-- A thread moves, and nothing else changes. -/
theorem move_only (h : Inv l) (hr : x.reached = true)
    (howns : x.ownsMutex = (l.position t).ownsMutex)
    (hthread : x.isLockThread = (l.position t).isLockThread)
    (hshared : x.holdsShared = (l.position t).holdsShared)
    (hexclusive : x.holdsExclusive = (l.position t).holdsExclusive)
    (hrefused : x.refused = (l.position t).refused) : Inv (l.move t x) :=
  h.move_same hr (fun _ _ => Iff.rfl) (by rw [howns]; exact h.mutex t) (fun _ _ => Iff.rfl)
    (by rw [hthread]; exact h.lockThread t) hshared hexclusive hrefused

theorem call (h : Inv l) {src dst : Position} {l' : Locker T}
    (hl : l.call t src dst = some l') (hr : dst.reached = true)
    (howns : dst.ownsMutex = src.ownsMutex) (hthread : dst.isLockThread = src.isLockThread)
    (hshared : dst.holdsShared = src.holdsShared)
    (hexclusive : dst.holdsExclusive = src.holdsExclusive) (hrefused : dst.refused = src.refused) :
    Inv l' := by
  rw [Locker.call] at hl
  split at hl
  next hp =>
    cases hl
    rw [← hp] at howns hthread hshared hexclusive hrefused
    exact h.move_only hr howns hthread hshared hexclusive hrefused
  · cases hl

/-- **Shared access is asked for.**  The counter is below its bounds, because each thread is
counted once. -/
theorem addCounter (h : Inv l) (hT : Fintype.card T < 2 ^ 31) {depth : Nat}
    (hp : l.position t = .addCounter depth) :
    Inv ({ l with sharedCounter := toInt (l.sharedCounter + 1) }.move t
      (if 0 ≤ l.sharedCounter then .returned depth else .checkShared depth)) := by
  have hreached := h.reached t
  have hm := h.mutex t
  have hl := h.lockThread t
  rw [hp] at hreached hm hl
  have hdepth : depth ≤ 1 := of_decide_eq_true hreached
  obtain ⟨hx, hc⟩ | ⟨hx, hs, k, hk, hc⟩ := h.counter
  · -- no exclusive access: the access is given
    have hlt : count l.position Position.holdsShared < Fintype.card T :=
      count_lt_card (t := t) (by rw [hp]; rfl)
    have hadd : toInt (l.sharedCounter + 1) = l.sharedCounter + 1 :=
      toInt_of_lt (by omega) (by omega)
    rw [if_pos (by omega), hadd]
    have hshared := count_update l.position Position.holdsShared t (.returned depth)
    have hexclusive := count_update l.position Position.holdsExclusive t (.returned depth)
    rw [hp] at hshared hexclusive
    refine h.move ?_ (fun _ _ => Iff.rfl) ?_ (fun _ _ => Iff.rfl) ?_ (.inl ?_)
    all_goals
      obtain rfl | rfl : depth = 0 ∨ depth = 1 := by omega
    · rfl
    · rfl
    · exact hm
    · exact hm
    · exact hl
    · exact hl
    · simp only [Position.returned, Position.holdsShared, Position.holdsExclusive, Bool.toNat_true,
        Bool.toNat_false] at hshared hexclusive ⊢
      omega
    · simp only [Position.returned, Position.holdsShared, Position.holdsExclusive, Bool.toNat_true,
        Bool.toNat_false] at hshared hexclusive ⊢
      omega
  · -- the increment stays behind
    obtain rfl : depth = 0 := by
      obtain rfl | rfl : depth = 0 ∨ depth = 1 := by omega
      · rfl
      · have hno := h.noExclusive_of_owner (t := t) (by rw [hp]; rfl) (by rw [hp]; rfl)
        omega
    have hlt : count l.position Position.refused < Fintype.card T :=
      count_lt_card (t := t) (by rw [hp]; rfl)
    rw [counterLockNegativeVal] at hc
    have hadd : toInt (l.sharedCounter + 1) = l.sharedCounter + 1 :=
      Int.bmod_eq_of_le (by norm_num; omega) (by norm_num; omega)
    rw [if_neg (by omega), hadd]
    have hshared := count_update l.position Position.holdsShared t (.checkShared 0)
    have hexclusive := count_update l.position Position.holdsExclusive t (.checkShared 0)
    have hrefused := count_update l.position Position.refused t (.checkShared 0)
    rw [hp] at hshared hexclusive hrefused
    refine h.move rfl (fun _ _ => Iff.rfl) hm (fun _ _ => Iff.rfl) hl (.inr ?_)
    simp only [Position.holdsShared, Position.holdsExclusive, Position.refused, Bool.toNat_true,
      Bool.toNat_false] at hshared hexclusive hrefused ⊢
    refine ⟨by omega, by omega, k + 1, by omega, ?_⟩
    rw [hc, counterLockNegativeVal]
    push_cast
    omega

theorem subtractCounter (h : Inv l) (hT : Fintype.card T < 2 ^ 31)
    (hp : l.position t = .subtractCounter) :
    Inv ({ l with sharedCounter := toInt (l.sharedCounter - 1) }.move t .idle) := by
  have hm := h.mutex t
  have hl := h.lockThread t
  rw [hp] at hm hl
  have hpos : 0 < count l.position Position.holdsShared := count_pos (t := t) (by rw [hp]; rfl)
  have hle := count_le_card l.position Position.holdsShared
  obtain ⟨hx, hc⟩ | ⟨hx, hs, -⟩ := h.counter
  · have hsub : toInt (l.sharedCounter - 1) = l.sharedCounter - 1 :=
      toInt_of_lt (by omega) (by omega)
    rw [hsub]
    have hshared := count_update l.position Position.holdsShared t .idle
    have hexclusive := count_update l.position Position.holdsExclusive t .idle
    rw [hp] at hshared hexclusive
    refine h.move rfl (fun _ _ => Iff.rfl) hm (fun _ _ => Iff.rfl) hl (.inl ?_)
    simp only [Position.holdsShared, Position.holdsExclusive, Bool.toNat_true,
      Bool.toNat_false] at hshared hexclusive ⊢
    omega
  · omega

/-- The mutex is locked for shared access: what is left in the counter is of no account now. -/
theorem lockShared (h : Inv l) (hp : l.position t = .lockShared 0) (hfree : l.mutex = none) :
    Inv ({ l with mutex := some t }.move t (.setShared 0)) := by
  have hl := h.lockThread t
  rw [hp] at hl
  have hx := h.noExclusive fun u hu => by rw [hfree] at hu; cases hu
  have hc := h.shared_of_noExclusive hx
  have hshared := count_update l.position Position.holdsShared t (.setShared 0)
  have hexclusive := count_update l.position Position.holdsExclusive t (.setShared 0)
  rw [hp] at hshared hexclusive
  refine h.move rfl (named_iff_of_ne (.inl hfree) (.inr rfl)) (iff_of_true rfl rfl)
    (fun _ _ => Iff.rfl) hl (.inl ?_)
  simp only [Position.holdsShared, Position.holdsExclusive, Bool.toNat_false]
    at hshared hexclusive ⊢
  omega

/-- **Exclusive access is taken** when nobody has shared access. -/
theorem exchangeCounter (h : Inv l) (hp : l.position t = .exchangeCounter)
    (hzero : l.sharedCounter = 0) :
    Inv ({ l with sharedCounter := counterLockNegativeVal }.move t .setExclusive) := by
  have hm := h.mutex t
  have hl := h.lockThread t
  rw [hp] at hm hl
  have hx := h.noExclusive_of_owner (t := t) (by rw [hp]; rfl) (by rw [hp]; rfl)
  have hc := h.shared_of_noExclusive hx
  have hshared := count_update l.position Position.holdsShared t .setExclusive
  have hexclusive := count_update l.position Position.holdsExclusive t .setExclusive
  rw [hp] at hshared hexclusive
  refine h.move rfl (fun _ _ => Iff.rfl) hm (fun _ _ => Iff.rfl) hl (.inr ?_)
  simp only [Position.holdsShared, Position.holdsExclusive, Bool.toNat_true,
    Bool.toNat_false] at hshared hexclusive ⊢
  exact ⟨by omega, by omega, 0, Nat.zero_le _, by simp⟩

/-- **Exclusive access is given back**, and the increments of the threads that were refused are
overwritten. -/
theorem storeCounter (h : Inv l) (hp : l.position t = .storeCounter) :
    Inv ({ l with sharedCounter := 0 }.move t .unlockExclusive) := by
  have hm := h.mutex t
  have hl := h.lockThread t
  rw [hp] at hm hl
  have hpos : 0 < count l.position Position.holdsExclusive :=
    count_pos (t := t) (by rw [hp]; rfl)
  obtain ⟨hx, -⟩ | ⟨hx, hs, -⟩ := h.counter
  · omega
  have hshared := count_update l.position Position.holdsShared t .unlockExclusive
  have hexclusive := count_update l.position Position.holdsExclusive t .unlockExclusive
  rw [hp] at hshared hexclusive
  refine h.move rfl (fun _ _ => Iff.rfl) hm (fun _ _ => Iff.rfl) hl (.inl ?_)
  simp only [Position.holdsShared, Position.holdsExclusive, Bool.toNat_true,
    Bool.toNat_false] at hshared hexclusive ⊢
  omega

/-- The next step of a thread: one case for each position. -/
theorem stepAt (h : Inv l) (hT : Fintype.card T < 2 ^ 31) {x : Position} {l' : Locker T}
    (hp : l.position t = x) (hs : l.stepAt t x = some l') : Inv l' := by
  have hr := h.reached t
  have hm := h.mutex t
  have hl := h.lockThread t
  rw [hp] at hr hm hl
  cases x with
  | addCounter depth =>
    cases hs
    exact h.addCounter hT hp
  | checkShared depth =>
    cases hs
    obtain rfl : depth = 0 := of_decide_eq_true hr
    rw [if_neg fun hlt => Bool.false_ne_true (hl.mp hlt)]
    exact h.move_only rfl (by rw [hp]; rfl) (by rw [hp]; rfl) (by rw [hp]; rfl) (by rw [hp]; rfl)
      (by rw [hp]; rfl)
  | lockShared depth =>
    rw [Locker.stepAt] at hs
    split at hs
    next hfree =>
      cases hs
      obtain rfl : depth = 0 := of_decide_eq_true hr
      exact h.lockShared hp hfree
    · cases hs
  | setShared depth =>
    cases hs
    obtain rfl : depth = 0 := of_decide_eq_true hr
    have hnamed := h.lockThread_of_owner (t := t) (by rw [hp]; rfl)
    exact h.move_same rfl (fun _ _ => Iff.rfl) hm (named_iff_of_ne hnamed (.inr rfl))
      (iff_of_true rfl rfl) (by rw [hp]; rfl) (by rw [hp]; rfl) (by rw [hp]; rfl)
  | clearShared depth =>
    cases hs
    have hnamed := h.lockThread_of_owner (t := t) (by rw [hp]; rfl)
    exact h.move_same hr (fun _ _ => Iff.rfl) hm (named_iff_of_ne hnamed (.inl rfl))
      (iff_of_false nofun nofun) (by rw [hp]; rfl) (by rw [hp]; rfl) (by rw [hp]; rfl)
  | unlockShared depth =>
    cases hs
    obtain rfl : depth = 0 := of_decide_eq_true hr
    exact h.move_same rfl (named_iff_of_ne (.inr (hm.mpr rfl)) (.inl rfl))
      (iff_of_false nofun nofun) (fun _ _ => Iff.rfl) hl (by rw [hp]; rfl) (by rw [hp]; rfl)
      (by rw [hp]; rfl)
  | subtractCounter =>
    cases hs
    exact h.subtractCounter hT hp
  | checkExclusive =>
    cases hs
    rw [if_neg fun hlt => Bool.false_ne_true (hl.mp hlt)]
    exact h.move_only rfl (by rw [hp]; rfl) (by rw [hp]; rfl) (by rw [hp]; rfl) (by rw [hp]; rfl)
      (by rw [hp]; rfl)
  | lockExclusive =>
    rw [Locker.stepAt] at hs
    split at hs
    next hfree =>
      cases hs
      exact h.move_same rfl (named_iff_of_ne (.inl hfree) (.inr rfl)) (iff_of_true rfl rfl)
        (fun _ _ => Iff.rfl) hl (by rw [hp]; rfl) (by rw [hp]; rfl) (by rw [hp]; rfl)
    · cases hs
  | exchangeCounter =>
    rw [Locker.stepAt] at hs
    split at hs
    next hzero =>
      cases hs
      exact h.exchangeCounter hp hzero
    · cases hs
      exact h
  | setExclusive =>
    cases hs
    have hnamed := h.lockThread_of_owner (t := t) (by rw [hp]; rfl)
    exact h.move_same rfl (fun _ _ => Iff.rfl) hm (named_iff_of_ne hnamed (.inr rfl))
      (iff_of_true rfl rfl) (by rw [hp]; rfl) (by rw [hp]; rfl) (by rw [hp]; rfl)
  | clearExclusive =>
    cases hs
    have hnamed := h.lockThread_of_owner (t := t) (by rw [hp]; rfl)
    exact h.move_same rfl (fun _ _ => Iff.rfl) hm (named_iff_of_ne hnamed (.inl rfl))
      (iff_of_false nofun nofun) (by rw [hp]; rfl) (by rw [hp]; rfl) (by rw [hp]; rfl)
  | storeCounter =>
    cases hs
    exact h.storeCounter hp
  | unlockExclusive =>
    cases hs
    exact h.move_same rfl (named_iff_of_ne (.inr (hm.mpr rfl)) (.inl rfl))
      (iff_of_false nofun nofun) (fun _ _ => Iff.rfl) hl (by rw [hp]; rfl) (by rw [hp]; rfl)
      (by rw [hp]; rfl)
  | idle | shared | exclusive | asserted => cases hs

theorem step (hT : Fintype.card T < 2 ^ 31) (l : Locker T) (e : Event T) (l' : Locker T)
    (h : Inv l) (hs : l.step e = some l') : Inv l' := by
  cases e with
  | acquireShared t => exact h.call hs rfl rfl rfl rfl rfl rfl
  | releaseShared t => exact h.call hs rfl rfl rfl rfl rfl rfl
  | acquireExclusive t => exact h.call hs rfl rfl rfl rfl rfl rfl
  | releaseExclusive t => exact h.call hs rfl rfl rfl rfl rfl rfl
  | step t => exact h.stepAt hT rfl hs
  | failExchange t =>
    rw [Locker.step] at hs
    split at hs
    · cases hs
      exact h
    · cases hs

omit [DecidableEq T] in
theorem initial : Inv (Locker.initial : Locker T) where
  reached _ := rfl
  mutex _ := iff_of_false nofun nofun
  lockThread _ := iff_of_false nofun nofun
  counter := by
    refine .inl ⟨count_eq_zero_iff.mpr fun _ => rfl, ?_⟩
    rw [show count (Locker.initial : Locker T).position Position.holdsShared = 0 from
      count_eq_zero_iff.mpr fun _ => rfl]
    rfl

omit [DecidableEq T] in
theorem excludes (h : Inv l) : Excludes l where
  exclusive t u hne ht := by
    have hpos := count_pos ht
    obtain ⟨hx, -⟩ | ⟨-, hs, -⟩ := h.counter
    · omega
    refine ⟨count_eq_zero_iff.mp hs u, ?_⟩
    by_contra hu
    have hmt := (h.mutex t).mpr (Position.ownsMutex_of_holdsExclusive ht)
    have hmu := (h.mutex u).mpr (Position.ownsMutex_of_holdsExclusive (by simpa using hu))
    exact hne (Option.some.inj (hmt.symm.trans hmu))
  asserted t ht := by
    have hr := h.reached t
    rw [ht] at hr
    cases hr
  depth t := by
    have hr := h.reached t
    cases hp : l.position t with
    | addCounter d =>
      rw [hp] at hr
      exact of_decide_eq_true hr
    | checkShared d | lockShared d | setShared d | clearShared d | unlockShared d =>
      rw [hp] at hr
      exact (of_decide_eq_true hr : d = 0).le.trans (Nat.zero_le 1)
    | _ => exact Nat.zero_le 1
  free hidle := by
    have hm : l.mutex = none := by
      cases hm : l.mutex with
      | none => rfl
      | some u =>
        have := (h.mutex u).mp hm
        rw [hidle u] at this
        cases this
    have hc := h.shared_of_noExclusive (h.noExclusive fun u hu => by rw [hm] at hu; cases hu)
    rw [count_eq_zero_iff.mpr fun t => by rw [hidle t]; rfl] at hc
    exact ⟨hc, hm⟩

end Inv

/-- **The locker excludes**, whatever the threads call and whatever the order of their steps. -/
theorem excludes_of_runTo (hT : Fintype.card T < 2 ^ 31) [DecidableEq T] (es : List (Event T))
    (l : Locker T) (hr : runTo Locker.step Locker.initial es = some l) : Excludes l :=
  (runTo_keeps (Inv.step hT) es Inv.initial hr).excludes

/-- A thread is refused shared access, and gets it behind the exclusive one. -/
def sampleRun : List (Event (Fin 2)) :=
  let a : Fin 2 := ⟨0, Nat.two_pos⟩
  let b : Fin 2 := ⟨1, Nat.one_lt_two⟩
  [.acquireExclusive a, .step a, .step a, .step a, .step a, .acquireShared b, .step b, .step b,
    .releaseExclusive a, .step a, .step a, .step a, .step b, .step b, .step b, .step b, .step b]

theorem excludes_sampleRun : ∃ l, runTo Locker.step Locker.initial sampleRun = some l ∧
    l.sharedCounter = 1 ∧ l.position 1 = .shared ∧ Excludes l :=
  ⟨_, rfl, rfl, rfl, excludes_of_runTo (by decide) sampleRun _ rfl⟩

end Hatn.Common.SharedLocker
