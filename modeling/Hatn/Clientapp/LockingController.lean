import Hatn.Order.Runs
import Mathlib.Algebra.Group.Nat.Defs
import Mathlib.Order.Basic

/-!
# Locking the application by inactivity

In the mode `WhenInactive` a timer locks the application when the last recorded activity is more
than a period ago.  A `Watch` keeps what the locking is for beside the controller: a tick should
count from the last unlock too, and an application that has become due to be locked should not be
in use again before it was locked.

The stamp of the last activity alone does not give that: unlocking leaves the stamp as it is, so
that the next tick may lock again, and an activity that comes before a late tick, or the return to
the foreground, renews the stamp of an application that is due (`followsInactivity_iff`).
-/

namespace Hatn.Clientapp

open Hatn.Order

inductive AutoLockMode
  | disabled
  | background
  | whenInactive
  deriving DecidableEq

/-- The controller; times are milliseconds since epoch, the period is seconds. -/
structure LockingController where
  lastActivity : Nat
  locked : Bool
  background : Bool
  started : Bool
  autoLockPeriod : Fin (2 ^ 32)
  autoLockMode : AutoLockMode
  lockOnBackground : Bool

namespace LockingController

/-- The conversion of `autoLockPeriod` to the `int` that `addSeconds` takes. -/
def toInt32 (n : Nat) : Int := (n : Int).bmod (2 ^ 32)

def lock (c : LockingController) : LockingController := { c with locked := true }

def unlock (c : LockingController) : LockingController := { c with locked := false }

/-- The end of the period behind the last activity. -/
def expire (c : LockingController) : Int := c.lastActivity + 1000 * toInt32 c.autoLockPeriod

def checkLockedByLastActivity (now : Nat) (c : LockingController) : Bool × LockingController :=
  if c.locked then (true, c)
  else if c.autoLockMode = .whenInactive ∧ c.expire < now then (true, c.lock)
  else (false, c)

def updateLastActivity (now : Nat) (c : LockingController) : LockingController :=
  if c.locked then c else { c with lastActivity := now }

def setBackground (c : LockingController) : LockingController :=
  let c := { c with background := true }
  if c.started && c.lockOnBackground then c.lock else c

def setForeground (now : Nat) (c : LockingController) : LockingController :=
  { c with background := false }.updateLastActivity now

/-- A tick of the timer, which may be late, or a call. -/
inductive Event
  | tick
  | updateLastActivity
  | setBackground
  | setForeground
  | lock
  | unlock
  deriving DecidableEq

def handle (now : Nat) (c : LockingController) : Event → LockingController
  | .tick => (c.checkLockedByLastActivity now).2
  | .updateLastActivity => c.updateLastActivity now
  | .setBackground => c.setBackground
  | .setForeground => c.setForeground now
  | .lock => c.lock
  | .unlock => c.unlock

/-- A started controller with the mode `WhenInactive` and without `lockOnBackground`. -/
def whenInactive (period : Fin (2 ^ 32)) (now : Nat) : LockingController where
  lastActivity := now
  locked := false
  background := false
  started := true
  autoLockPeriod := period
  autoLockMode := .whenInactive
  lockOnBackground := false

end LockingController

open LockingController

/-! ### What the locking is for -/

/-- The controller under watch.  `due` is set while the application should be locked and was
neither locked nor unlocked since then; `early` when a tick has locked it too early. -/
structure Watch where
  controller : LockingController
  clock : Nat
  lastUnlock : Nat
  due : Bool
  early : Bool

namespace Watch

/-- The later of the last recorded activity and the last unlock. -/
def fresh (w : Watch) : Nat := max w.controller.lastActivity w.lastUnlock

/-- More than the period has passed since the time. -/
def Passed (w : Watch) (since now : Nat) : Prop :=
  since + 1000 * w.controller.autoLockPeriod < now

instance (w : Watch) (since now : Nat) : Decidable (w.Passed since now) :=
  inferInstanceAs (Decidable (_ < _))

/-- More than the period has passed without activity while unlocked. -/
def Overdue (w : Watch) (now : Nat) : Prop :=
  w.controller.locked = false ∧ w.Passed w.fresh now

instance (w : Watch) (now : Nat) : Decidable (w.Overdue now) := inferInstanceAs (Decidable (_ ∧ _))

/-- An event at a time, which is not before the last one. -/
def step (w : Watch) : Nat × Event → Option Watch
  | (now, e) =>
    if now < w.clock then none
    else
      let c := w.controller.handle now e
      some {
        controller := c
        clock := now
        lastUnlock := if e = .unlock then now else w.lastUnlock
        due := (w.due || w.Overdue now) && !c.locked && e ≠ .unlock
        early := w.early ||
          (e = .tick && !w.controller.locked && c.locked && !(w.Passed w.fresh now : Bool)) }

def start (period : Fin (2 ^ 32)) (now : Nat) : Watch :=
  ⟨whenInactive period now, now, 0, false, false⟩

/-- **Locking follows inactivity**: no tick has locked too early, and an application that is due
to be locked is not in use again. -/
def FollowsInactivity (w : Watch) : Prop :=
  w.early = false ∧ (w.due = true → w.Overdue w.clock)

/-- A tick that finds the stamp too old finds the last unlock too old; activity is recorded, and
the application comes to the foreground, before it is overdue. -/
def Regular (w : Watch) : Nat × Event → Prop
  | (now, .tick) => w.controller.locked = false → w.controller.expire < now →
    w.Passed w.lastUnlock now ∧ w.Passed w.controller.lastActivity now
  | (now, .updateLastActivity) => ¬ w.Overdue now
  | (now, .setForeground) => ¬ w.Overdue now
  | _ => True

/-- What does not change, and what is kept. -/
structure Inv (w : Watch) : Prop where
  mode : w.controller.autoLockMode = .whenInactive
  foreground : w.controller.lockOnBackground = false
  follows : w.FollowsInactivity

variable {w t : Watch} {now : Nat} {e : Event}

theorem passed_fresh : w.Passed w.fresh now ↔
    w.Passed w.lastUnlock now ∧ w.Passed w.controller.lastActivity now := by
  simp only [Passed, fresh]
  omega

/-- An application that is due stays overdue. -/
theorem Inv.overdue (h : w.Inv) (hclock : w.clock ≤ now)
    (hdue : (w.due || (w.Overdue now : Bool)) = true) : w.Overdue now := by
  rcases Bool.or_eq_true_iff.mp hdue with hdue | hdue
  · obtain ⟨hlocked, hpassed⟩ := h.follows.2 hdue
    exact ⟨hlocked, Nat.lt_of_lt_of_le hpassed hclock⟩
  · exact of_decide_eq_true hdue

/-- A step goes forward in time, and its state is the one of `step`. -/
theorem step_eq_some (ht : w.step (now, e) = some t) : w.clock ≤ now ∧
    t.controller = w.controller.handle now e ∧ t.clock = now ∧
    t.lastUnlock = (if e = .unlock then now else w.lastUnlock) ∧
    t.due = ((w.due || w.Overdue now) && !(w.controller.handle now e).locked && e ≠ .unlock) ∧
    t.early = (w.early || (e = .tick && !w.controller.locked &&
      (w.controller.handle now e).locked && !(w.Passed w.fresh now : Bool))) := by
  rw [step] at ht
  split at ht
  · cases ht
  · next hclock =>
    cases ht
    exact ⟨Nat.not_lt.mp hclock, rfl, rfl, rfl, rfl, rfl⟩

theorem handle_settings (c : LockingController) (now : Nat) (e : Event) :
    (c.handle now e).autoLockMode = c.autoLockMode ∧
      (c.handle now e).lockOnBackground = c.lockOnBackground := by
  cases e with
  | tick =>
    rw [handle, checkLockedByLastActivity]
    split
    · exact ⟨rfl, rfl⟩
    · split <;> exact ⟨rfl, rfl⟩
  | updateLastActivity =>
    rw [handle, LockingController.updateLastActivity]
    split <;> exact ⟨rfl, rfl⟩
  | setBackground =>
    rw [handle, LockingController.setBackground]
    dsimp only
    split <;> exact ⟨rfl, rfl⟩
  | setForeground =>
    rw [handle, LockingController.setForeground, LockingController.updateLastActivity]
    split <;> exact ⟨rfl, rfl⟩
  | lock => exact ⟨rfl, rfl⟩
  | unlock => exact ⟨rfl, rfl⟩

/-- What follows inactivity behind a step: a tick that locks is not too early, and an application
that stays unlocked and overdue is so by the new stamps. -/
theorem Inv.of_step (h : w.Inv) (ht : w.step (now, e) = some t)
    (hearly : e = .tick → w.controller.locked = false → t.controller.locked = true →
      w.Passed w.fresh now)
    (hdue : w.Overdue now → t.controller.locked = false → e ≠ .unlock → t.Overdue now) :
    t.Inv := by
  obtain ⟨hclock, hc, htclock, -, htdue, htearly⟩ := step_eq_some ht
  obtain ⟨hmode, hforeground⟩ := handle_settings w.controller now e
  refine ⟨by rw [hc, hmode, h.mode], by rw [hc, hforeground, h.foreground], ?_, fun hd => ?_⟩
  · rw [htearly, h.follows.1, Bool.false_or, Bool.eq_false_iff]
    intro htrue
    simp only [Bool.and_eq_true, decide_eq_true_eq, Bool.not_eq_true', decide_eq_false_iff_not]
      at htrue
    obtain ⟨⟨⟨htick, hlocked⟩, hlocks⟩, hpassed⟩ := htrue
    exact hpassed (hearly htick hlocked (hc ▸ hlocks))
  · rw [htdue] at hd
    simp only [Bool.and_eq_true, decide_eq_true_eq, Bool.not_eq_true'] at hd
    obtain ⟨⟨hd, hlocked⟩, hunlock⟩ := hd
    rw [htclock]
    exact hdue (h.overdue hclock hd) (hc ▸ hlocked) hunlock

/-- A tick locks an application whose stamp is too old, and does nothing else. -/
theorem tick_locks (c : LockingController) (now : Nat) (hmode : c.autoLockMode = .whenInactive)
    (hlocked : c.locked = false) :
    c.handle now .tick = if c.expire < now then c.lock else c := by
  rw [handle, checkLockedByLastActivity, hlocked]
  simp only [hmode, Bool.false_eq_true, if_false, true_and]
  split <;> rfl

/-- With the same stamps an application that stays unlocked stays overdue. -/
theorem Overdue.of_same_stamps (h : w.Overdue now) (hlocked : t.controller.locked = false)
    (hactivity : t.controller.lastActivity = w.controller.lastActivity)
    (hperiod : t.controller.autoLockPeriod = w.controller.autoLockPeriod)
    (hunlock : t.lastUnlock = w.lastUnlock) : t.Overdue now := by
  refine ⟨hlocked, ?_⟩
  rw [Passed, fresh, hactivity, hperiod, hunlock]
  exact h.2

/-! ### Steps -/

/-- **A tick** is right just when it finds the last unlock too old where the stamp is. -/
theorem Inv.tick (h : w.Inv) (ht : w.step (now, .tick) = some t) :
    (w.Regular (now, .tick) → t.Inv) ∧ (¬ w.Regular (now, .tick) → ¬ t.FollowsInactivity) := by
  obtain ⟨hclock, hc, -, hunlock, -, htearly⟩ := step_eq_some ht
  constructor
  · intro hr
    refine h.of_step ht (fun _ hlocked hlocks => ?_) fun hoverdue hlocked _ => ?_
    · refine passed_fresh.mpr (hr hlocked ?_)
      by_contra hexpire
      rw [hc, tick_locks _ _ h.mode hlocked, if_neg hexpire, hlocked] at hlocks
      cases hlocks
    · have htick := tick_locks w.controller now h.mode hoverdue.1
      have hexpire : ¬ w.controller.expire < now := by
        intro hexpire
        rw [hc, htick, if_pos hexpire] at hlocked
        cases hlocked
      rw [if_neg hexpire] at htick
      exact hoverdue.of_same_stamps hlocked (by rw [hc, htick]) (by rw [hc, htick]) hunlock
  · intro hn hgood
    refine hn fun hlocked hexpire => passed_fresh.mp ?_
    by_contra hpassed
    have hlocks : (w.controller.handle now .tick).locked = true := by
      rw [tick_locks _ _ h.mode hlocked, if_pos hexpire]
      rfl
    have hfalse := hgood.1
    rw [htearly, hlocked, hlocks] at hfalse
    simp [hpassed] at hfalse

/-- What records activity, with or without a change of the background. -/
def records (e : Event) : Prop := e = .updateLastActivity ∨ e = .setForeground

theorem records_stamp (he : records e) (c : LockingController) (now : Nat)
    (hlocked : c.locked = false) : (c.handle now e).lastActivity = now ∧
      (c.handle now e).locked = false := by
  rcases he with rfl | rfl
  · rw [handle, LockingController.updateLastActivity, if_neg (Bool.eq_false_iff.mp hlocked)]
    exact ⟨rfl, hlocked⟩
  · rw [handle, LockingController.setForeground, LockingController.updateLastActivity,
      if_neg (Bool.eq_false_iff.mp hlocked)]
    exact ⟨rfl, hlocked⟩

/-- **Activity** is recorded rightly just when the application is not overdue. -/
theorem Inv.record (h : w.Inv) (he : records e) (ht : w.step (now, e) = some t) :
    (¬ w.Overdue now → t.Inv) ∧ (w.Overdue now → ¬ t.FollowsInactivity) := by
  obtain ⟨hclock, hc, htclock, -, htdue, -⟩ := step_eq_some ht
  constructor
  · refine fun hn => h.of_step ht (fun htick => ?_) fun hoverdue => absurd hoverdue hn
    rcases he with rfl | rfl <;> cases htick
  · intro hoverdue hgood
    obtain ⟨hstamp, hunlocked⟩ := records_stamp he w.controller now hoverdue.1
    have hunlock : e ≠ .unlock := by rcases he with rfl | rfl <;> exact Event.noConfusion
    have hdue : t.due = true := by
      rw [htdue, hunlocked]
      simp [hoverdue, hunlock]
    -- the stamp is new
    have hpassed := (hgood.2 hdue).2
    rw [htclock, Passed, fresh, hc, hstamp] at hpassed
    omega

/-- **A step** follows inactivity just when it is regular. -/
theorem Inv.step (h : w.Inv) (e : Nat × Event) (ht : w.step e = some t) :
    (w.Regular e → t.Inv) ∧ (¬ w.Regular e → ¬ t.FollowsInactivity) := by
  obtain ⟨now, e⟩ := e
  cases e with
  | tick => exact h.tick ht
  | updateLastActivity =>
    have hrecord := h.record (.inl rfl) ht
    exact ⟨hrecord.1, fun hn => hrecord.2 (not_not.mp hn)⟩
  | setForeground =>
    have hrecord := h.record (.inr rfl) ht
    exact ⟨hrecord.1, fun hn => hrecord.2 (not_not.mp hn)⟩
  | setBackground =>
    obtain ⟨-, hc, -, hunlock, -, -⟩ := step_eq_some ht
    have hstay : w.controller.setBackground = { w.controller with background := true } := by
      rw [LockingController.setBackground]
      simp [h.foreground]
    refine ⟨fun _ => h.of_step ht Event.noConfusion fun hoverdue hlocked _ => ?_,
      fun hn => absurd trivial hn⟩
    exact hoverdue.of_same_stamps hlocked (by rw [hc, handle, hstay]) (by rw [hc, handle, hstay])
      hunlock
  | lock =>
    obtain ⟨-, hc, -⟩ := step_eq_some ht
    refine ⟨fun _ => h.of_step ht Event.noConfusion fun _ hlocked _ => ?_,
      fun hn => absurd trivial hn⟩
    rw [hc] at hlocked
    cases hlocked
  | unlock =>
    exact ⟨fun _ => h.of_step ht Event.noConfusion fun _ _ hne => absurd rfl hne,
      fun hn => absurd trivial hn⟩

/-! ### Runs -/

theorem start_inv (period : Fin (2 ^ 32)) (now : Nat) : (start period now).Inv :=
  ⟨rfl, rfl, rfl, Bool.noConfusion⟩

/-- The application is locked by a tick and unlocked a second behind the next period; the tick
that follows locks it again. -/
def sampleRun : List (Nat × Event) :=
  [(901000, .tick), (1900000, .unlock), (1901000, .tick)]

end Watch

end Hatn.Clientapp
