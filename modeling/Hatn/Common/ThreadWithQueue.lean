import Hatn.Order.Runs
import Hatn.Threads.Positions
import Mathlib.Data.Fintype.Option

/-!
# Threads with a queue of tasks

A task is pushed to the queue, and a loop over the queue is scheduled in the thread only if the
queue was empty.  The loop ends only when it has found no task, then nobody posting, and then
the queue empty still.  A task that runs may post tasks as well.

The queue is an atomic list.  The logs `pushed` and `ran` are not of the code: they say which
tasks were pushed and were run, in this order.
-/

namespace Hatn.Common.ThreadWithQueue

open Hatn.Order Hatn.Threads

/-- How far `doPost` has come. -/
inductive Posting (τ : Type)
  | idle
  /-- The posting count is raised. -/
  | testEmpty (task : τ)
  | push (task : τ) (scheduleAsync : Bool)
  | lower (scheduleAsync : Bool)
  | schedule
  deriving DecidableEq

/-- How far `taskLoop` has come. -/
inductive Loop (τ : Type)
  /-- No loop is running. -/
  | idle
  | pop (processedCount : Int)
  | call (task : τ) (processedCount : Int)
  /-- A task is running. -/
  | running (processedCount : Int)
  | reschedule
  /-- There was no task. -/
  | readCount (processedCount : Int)
  /-- Nobody was posting. -/
  | testEmpty (processedCount : Int)
  deriving DecidableEq

/-- The threads that post are `T` and, while a task is running, the thread of the queue itself,
which is `none`. -/
structure State (T τ : Type) where
  queue : List τ
  postingRefCount : Int
  /-- the loops that are scheduled and have not begun -/
  scheduled : Nat
  posting : Option T → Posting τ
  loop : Loop τ
  pushed : List τ
  ran : List τ

inductive Event (T τ : Type)
  /-- `post`, up to the raise of the posting count -/
  | post (t : Option T) (task : τ)
  /-- the next step of `post` -/
  | step (t : Option T)
  /-- A scheduled loop begins. -/
  | startLoop
  /-- the next step of the loop -/
  | loop

namespace State

variable {T τ : Type} [DecidableEq T]

def initial : State T τ := ⟨[], 0, 0, fun _ => .idle, .idle, [], []⟩

def setPosting (s : State T τ) (t : Option T) (x : Posting τ) : State T τ :=
  { s with posting := Function.update s.posting t x }

/-- The steps of `doPost`. -/
def postStep (s : State T τ) (t : Option T) : Posting τ → Option (State T τ)
  | .idle => none
  | .testEmpty task => some (s.setPosting t (.push task s.queue.isEmpty))
  | .push task scheduleAsync =>
    some ({ s with
      queue := s.queue ++ [task], pushed := s.pushed ++ [task] }.setPosting t
        (.lower scheduleAsync))
  | .lower scheduleAsync =>
    some ({ s with postingRefCount := s.postingRefCount - 1 }.setPosting t
      (if scheduleAsync then .schedule else .idle))
  | .schedule => some ({ s with scheduled := s.scheduled + 1 }.setPosting t .idle)

/-- A task has ended: `maxHandlersPerLoop!=0 && ++processedCount>=maxHandlersPerLoop` -/
def ended (maxHandlersPerLoop processedCount : Int) : Loop τ :=
  if maxHandlersPerLoop ≠ 0 then
    if maxHandlersPerLoop ≤ processedCount + 1 then .reschedule else .pop (processedCount + 1)
  else .pop processedCount

variable (maxHandlersPerLoop : Int)

/-- The steps of `taskLoop`. -/
def loopStep (s : State T τ) : Loop τ → Option (State T τ)
  | .idle => none
  | .pop n =>
    match s.queue with
    | [] => some { s with loop := .readCount n }
    | task :: tasks => some { s with queue := tasks, loop := .call task n }
  | .call task n => some { s with ran := s.ran ++ [task], loop := .running n }
  | .running n =>
    -- the task ends behind its own calls of `post`
    if s.posting none matches .idle then some { s with loop := ended maxHandlersPerLoop n }
    else none
  | .reschedule => some { s with scheduled := s.scheduled + 1, loop := .idle }
  | .readCount n =>
    some { s with loop := if s.postingRefCount = 0 then .testEmpty n else .pop n }
  | .testEmpty n => some { s with loop := if s.queue.isEmpty then .idle else .pop n }

/-- A thread posts one task at a time, and the thread of the queue posts in a task. -/
def canPost (s : State T τ) (t : Option T) : Bool :=
  (s.posting t matches .idle) && (t.isSome || s.loop matches .running _)

def step (s : State T τ) : Event T τ → Option (State T τ)
  | .post t task =>
    if s.canPost t then
      some ({ s with postingRefCount := s.postingRefCount + 1 }.setPosting t (.testEmpty task))
    else none
  | .step t => s.postStep t (s.posting t)
  | .startLoop =>
    if s.loop matches .idle then
      match s.scheduled with
      | 0 => none
      | n + 1 => some { s with scheduled := n, loop := .pop 0 }
    else none
  | .loop => s.loopStep maxHandlersPerLoop s.loop

end State

/-- Nobody is posting, and no loop is running or scheduled. -/
structure Quiescent {T τ : Type} (s : State T τ) : Prop where
  posting : ∀ t, s.posting t = .idle
  loop : s.loop = .idle
  scheduled : s.scheduled = 0

/-- **No task is lost.** -/
def AllRun {T τ : Type} (s : State T τ) : Prop := Quiescent s → s.queue = [] ∧ s.ran = s.pushed

/-! ### Why a loop is left for each task -/

/-- The posting count is raised. -/
def Posting.counted {τ : Type} : Posting τ → Bool
  | .testEmpty _ | .push _ _ | .lower _ => true
  | _ => false

/-- A loop is going to be scheduled. -/
def Posting.schedules {τ : Type} : Posting τ → Bool
  | .push _ scheduleAsync | .lower scheduleAsync => scheduleAsync
  | .schedule => true
  | _ => false

/-- A task is going to be pushed, and no loop scheduled for it. -/
def Posting.relies {τ : Type} : Posting τ → Bool
  | .push _ scheduleAsync => !scheduleAsync
  | _ => false

/-- The task that is taken out of the queue. -/
def Loop.current {τ : Type} : Loop τ → List τ
  | .call task _ => [task]
  | _ => []

variable {T τ : Type}

/-- Some loop comes behind this state. -/
def Served (s : State T τ) : Prop :=
  s.loop ≠ .idle ∨ 0 < s.scheduled ∨ ∃ t, (s.posting t).schedules = true

section

variable [DecidableEq T] {s : State T τ} {t : Option T} {x : Posting τ}

theorem served_setPosting (h : Served s) (hx : (s.posting t).schedules = true →
    x.schedules = true) : Served (s.setPosting t x) := by
  obtain hl | hn | ⟨u, hu⟩ := h
  · exact .inl hl
  · exact .inr (.inl hn)
  · refine .inr (.inr ⟨u, ?_⟩)
    rw [State.setPosting]
    dsimp only
    by_cases hut : u = t
    · subst hut
      rw [Function.update_self]
      exact hx hu
    · rwa [Function.update_of_ne hut]

theorem relies_setPosting (h : ∀ u, (s.posting u).relies = false) (hx : x.relies = false) :
    ∀ u, ((s.setPosting t x).posting u).relies = false := by
  intro u
  rw [State.setPosting]
  dsimp only
  by_cases hut : u = t
  · rw [hut, Function.update_self]
    exact hx
  · rw [Function.update_of_ne hut]
    exact h u

theorem schedules_setPosting (hx : x.schedules = true) :
    Served (s.setPosting t x) := by
  refine .inr (.inr ⟨t, ?_⟩)
  rw [State.setPosting]
  dsimp only
  rwa [Function.update_self]

end

variable [Fintype T]

structure Inv (s : State T τ) : Prop where
  log : s.pushed = s.ran ++ (s.loop.current ++ s.queue)
  count : s.postingRefCount = count s.posting Posting.counted
  served : Served s ∨ s.queue = [] ∧ ∀ t, (s.posting t).relies = false
  testEmpty : ∀ n, s.loop = .testEmpty n → s.queue = [] → ∀ t, (s.posting t).relies = false

namespace Inv

variable {s : State T τ} {t : Option T}

theorem initial : Inv (State.initial : State T τ) where
  log := rfl
  count := by
    rw [show Threads.count (State.initial : State T τ).posting Posting.counted = 0 from
      count_eq_zero_iff.mpr fun _ => rfl]
    rfl
  served := .inr ⟨rfl, fun _ => rfl⟩
  testEmpty := nofun

/-- With a task in the queue, or one that is to be pushed to it, some loop comes. -/
theorem served_of (h : Inv s) (hs : s.queue ≠ [] ∨ ∃ t, (s.posting t).relies = true) :
    Served s := by
  obtain hserved | ⟨hq, hnone⟩ := h.served
  · exact hserved
  · obtain hne | ⟨t, ht⟩ := hs
    · exact absurd hq hne
    · exact absurd ((hnone t).symm.trans ht) Bool.false_ne_true

variable [DecidableEq T]

/-- `post` begins. -/
theorem post (h : Inv s) (ht : s.posting t = .idle) (task : τ) :
    Inv ({ s with postingRefCount := s.postingRefCount + 1 }.setPosting t (.testEmpty task)) where
  log := h.log
  count := by
    have hcount := count_update s.posting Posting.counted t (.testEmpty task)
    rw [ht] at hcount
    simp only [Posting.counted, Bool.toNat_true, Bool.toNat_false] at hcount
    have := h.count
    rw [State.setPosting]
    dsimp only
    omega
  served := by
    refine h.served.imp (fun hs => ?_) fun ⟨hq, hr⟩ => ⟨hq, relies_setPosting hr rfl⟩
    exact served_setPosting hs fun hx => by rw [ht] at hx; cases hx
  testEmpty n hn hq := relies_setPosting (h.testEmpty n hn hq) rfl

/-- **The queue is tested.**  When it is not empty, some loop comes for what is in it. -/
theorem test (h : Inv s) {task : τ} (ht : s.posting t = .testEmpty task) :
    Inv (s.setPosting t (.push task s.queue.isEmpty)) where
  log := h.log
  count := by
    rw [State.setPosting]
    dsimp only
    rw [count_update_of_eq (by rw [ht]; rfl)]
    exact h.count
  served := by
    cases hq : s.queue with
    | nil => exact .inl (schedules_setPosting rfl)
    | cons head tail =>
      have hs := h.served_of (.inl (by rw [hq]; exact List.cons_ne_nil _ _))
      exact .inl (served_setPosting hs fun hx => by rw [ht] at hx; cases hx)
  testEmpty n hn hq := by
    refine relies_setPosting (h.testEmpty n hn hq) ?_
    rw [show s.queue = [] from hq]
    rfl

theorem push (h : Inv s) {task : τ} {scheduleAsync : Bool}
    (ht : s.posting t = .push task scheduleAsync) :
    Inv ({ s with queue := s.queue ++ [task], pushed := s.pushed ++ [task] }.setPosting t
      (.lower scheduleAsync)) where
  log := by
    rw [State.setPosting]
    dsimp only
    rw [h.log, List.append_assoc, List.append_assoc]
  count := by
    rw [State.setPosting]
    dsimp only
    rw [count_update_of_eq (by rw [ht]; rfl)]
    exact h.count
  served := by
    cases scheduleAsync with
    | true => exact .inl (schedules_setPosting rfl)
    | false =>
      have hs := h.served_of (.inr ⟨t, by rw [ht]; rfl⟩)
      exact .inl (served_setPosting hs fun hx => by rw [ht] at hx; cases hx)
  testEmpty n hn hq := by simp [State.setPosting] at hq

theorem lower (h : Inv s) {scheduleAsync : Bool} (ht : s.posting t = .lower scheduleAsync) :
    Inv ({ s with postingRefCount := s.postingRefCount - 1 }.setPosting t
      (if scheduleAsync then .schedule else .idle)) := by
  have hcount := count_update s.posting Posting.counted t
    (if scheduleAsync then .schedule else .idle)
  have hold := h.count
  rw [ht] at hcount
  constructor
  case log => exact h.log
  case count =>
    rw [State.setPosting]
    dsimp only
    cases scheduleAsync with
    | true =>
      simp only [if_true, Posting.counted, Bool.toNat_true, Bool.toNat_false] at hcount ⊢
      omega
    | false =>
      simp only [Bool.false_eq_true, if_false, Posting.counted, Bool.toNat_true,
        Bool.toNat_false] at hcount ⊢
      omega
  case served =>
    cases scheduleAsync with
    | true => exact .inl (schedules_setPosting rfl)
    | false =>
      refine h.served.imp (fun hs => ?_) fun ⟨hq, hr⟩ => ⟨hq, relies_setPosting hr rfl⟩
      exact served_setPosting hs fun hx => by rw [ht] at hx; cases hx
  case testEmpty =>
    intro n hn hq
    refine relies_setPosting (h.testEmpty n hn hq) ?_
    cases scheduleAsync <;> rfl

theorem schedule (h : Inv s) (ht : s.posting t = .schedule) :
    Inv ({ s with scheduled := s.scheduled + 1 }.setPosting t .idle) where
  log := h.log
  count := by
    rw [State.setPosting]
    dsimp only
    rw [count_update_of_eq (by rw [ht]; rfl)]
    exact h.count
  served := .inl (.inr (.inl (Nat.succ_pos _)))
  testEmpty n hn hq := relies_setPosting (h.testEmpty n hn hq) rfl

theorem postStep (h : Inv s) {s' : State T τ} (hs : s.postStep t (s.posting t) = some s') :
    Inv s' := by
  cases hp : s.posting t with
  | idle =>
    rw [hp] at hs
    cases hs
  | testEmpty task =>
    rw [hp] at hs
    cases hs
    exact h.test hp
  | push task scheduleAsync =>
    rw [hp] at hs
    cases hs
    exact h.push hp
  | lower scheduleAsync =>
    rw [hp] at hs
    cases hs
    exact h.lower hp
  | schedule =>
    rw [hp] at hs
    cases hs
    exact h.schedule hp

omit [DecidableEq T] in
/-- The loop goes on, and is not about to end. -/
theorem goOn (h : Inv s) {l : Loop τ} (hidle : l ≠ .idle) (htest : ∀ n, l ≠ .testEmpty n)
    (hcurrent : l.current = s.loop.current) : Inv { s with loop := l } where
  log := by
    dsimp only
    rw [hcurrent]
    exact h.log
  count := h.count
  served := .inl (.inl hidle)
  testEmpty n hn := absurd hn (htest n)

omit [DecidableEq T] in
/-- **Nobody is posting**, so nobody relies on the loop that has found no task. -/
theorem readCount (h : Inv s) {n : Int} (hl : s.loop = .readCount n)
    (hzero : s.postingRefCount = 0) : Inv { s with loop := .testEmpty n } where
  log := by
    have := h.log
    rw [hl] at this
    exact this
  count := h.count
  served := .inl (.inl nofun)
  testEmpty _ _ _ t := by
    have hcount : Threads.count s.posting Posting.counted = 0 := by
      have := h.count
      omega
    have ht := count_eq_zero_iff.mp hcount t
    cases hp : s.posting t with
    | testEmpty _ | push _ _ | lower _ =>
      rw [hp] at ht
      cases ht
    | idle | schedule => rfl

omit [DecidableEq T] in
/-- **The loop ends**, and is not needed. -/
theorem loopEnd (h : Inv s) {n : Int} (hl : s.loop = .testEmpty n) (hq : s.queue = []) :
    Inv { s with loop := .idle } where
  log := by
    have := h.log
    rw [hl] at this
    exact this
  count := h.count
  served := .inr ⟨hq, h.testEmpty n hl hq⟩
  testEmpty := nofun

omit [DecidableEq T] in
theorem loopStep (h : Inv s) {maxHandlersPerLoop : Int} {s' : State T τ}
    (hs : s.loopStep maxHandlersPerLoop s.loop = some s') : Inv s' := by
  cases hl : s.loop with
  | idle =>
    rw [hl] at hs
    cases hs
  | pop n =>
    rw [hl, State.loopStep] at hs
    have hlog := h.log
    rw [hl] at hlog
    split at hs
    next hq =>
      cases hs
      exact h.goOn nofun nofun (by rw [hl]; rfl)
    next task tasks hq =>
      cases hs
      refine ⟨?_, h.count, .inl (.inl nofun), nofun⟩
      rw [hlog, hq]
      rfl
  | call task n =>
    rw [hl] at hs
    cases hs
    have hlog := h.log
    rw [hl] at hlog
    refine ⟨?_, h.count, .inl (.inl nofun), nofun⟩
    dsimp only
    rw [hlog, List.append_assoc]
    rfl
  | running n =>
    rw [hl, State.loopStep] at hs
    split at hs
    · cases hs
      rw [State.ended]
      split
      · split
        · exact h.goOn nofun nofun (by rw [hl]; rfl)
        · exact h.goOn nofun nofun (by rw [hl]; rfl)
      · exact h.goOn nofun nofun (by rw [hl]; rfl)
    · cases hs
  | reschedule =>
    rw [hl] at hs
    cases hs
    have hlog := h.log
    rw [hl] at hlog
    exact ⟨hlog, h.count, .inl (.inr (.inl (Nat.succ_pos _))), nofun⟩
  | readCount n =>
    rw [hl] at hs
    cases hs
    split
    next hzero => exact h.readCount hl hzero
    · exact h.goOn nofun nofun (by rw [hl]; rfl)
  | testEmpty n =>
    rw [hl] at hs
    cases hs
    split
    next hq => exact h.loopEnd hl (List.isEmpty_iff.mp hq)
    · exact h.goOn nofun nofun (by rw [hl]; rfl)

theorem step (maxHandlersPerLoop : Int) (s : State T τ) (e : Event T τ) (s' : State T τ)
    (h : Inv s) (hs : s.step maxHandlersPerLoop e = some s') : Inv s' := by
  cases e with
  | post t task =>
    rw [State.step] at hs
    split at hs
    next hc =>
      cases hs
      refine h.post ?_ task
      rw [State.canPost, Bool.and_eq_true] at hc
      cases hp : s.posting t with
      | idle => rfl
      | _ => rw [hp] at hc; cases hc.1
    · cases hs
  | step t => exact h.postStep hs
  | startLoop =>
    rw [State.step] at hs
    split at hs
    next hl =>
      have hidle : s.loop = .idle := by
        cases hp : s.loop with
        | idle => rfl
        | _ => rw [hp] at hl; cases hl
      have hlog := h.log
      rw [hidle] at hlog
      cases hn : s.scheduled with
      | zero =>
        rw [hn] at hs
        cases hs
      | succ n =>
        rw [hn] at hs
        cases hs
        exact ⟨hlog, h.count, .inl (.inl nofun), nofun⟩
    · cases hs
  | loop => exact h.loopStep hs

omit [DecidableEq T] in
theorem allRun (h : Inv s) : AllRun s := by
  intro hq
  obtain (hl | hn | ⟨t, ht⟩) | ⟨hempty, -⟩ := h.served
  · exact absurd hq.loop hl
  · rw [hq.scheduled] at hn
    exact absurd hn (lt_irrefl 0)
  · rw [hq.posting t] at ht
    cases ht
  · have hlog := h.log
    rw [hq.loop, hempty] at hlog
    exact ⟨hempty, by rw [hlog]; exact (List.append_nil _).symm⟩

end Inv

/-- **Each task is run exactly once, in the order of the pushes**, when everything has come to
its end. -/
theorem allRun_of_runTo [DecidableEq T] (maxHandlersPerLoop : Int) (es : List (Event T τ))
    (s : State T τ) (hr : runTo (State.step maxHandlersPerLoop) State.initial es = some s) :
    AllRun s :=
  (runTo_keeps (Inv.step maxHandlersPerLoop) es Inv.initial hr).allRun

/-- A task is posted that posts one more. -/
def sampleRun : List (Event (Fin 1) Nat) :=
  [.post (some 0) 7, .step (some 0), .step (some 0), .step (some 0), .step (some 0), .startLoop,
    .loop, .loop, .post none 8, .step none, .step none, .step none, .step none, .loop, .loop,
    .loop, .loop, .loop, .loop, .loop, .startLoop, .loop, .loop, .loop]

theorem allRun_sampleRun : ∃ s, runTo (State.step 0) State.initial sampleRun = some s ∧
    (∀ t, s.posting t = .idle) ∧ s.loop = .idle ∧ s.scheduled = 0 ∧ s.ran = [7, 8] ∧ AllRun s :=
  ⟨_, rfl, by decide, rfl, rfl, rfl, allRun_of_runTo 0 sampleRun _ rfl⟩

end Hatn.Common.ThreadWithQueue
