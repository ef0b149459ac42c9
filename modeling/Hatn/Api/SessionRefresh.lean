import Hatn.Order.Runs
import Mathlib.Data.List.Count

/-!
# Refreshing a session

All calls of `Session::refresh` share one refresh of the session's traits: the callbacks are kept in
a list, and the completion of the refresh walks over the list and clears it behind the walk.  Each
callback should be invoked once, with the result of a refresh that completes behind the call.

A callback may call `refresh` itself.  It then adds to the list that is walked: its callback lies
behind the end of the walk and is cleared with the others, or the list has moved and the walk goes
on in memory that is gone.  All is well in the runs without such a call (`refresh_answered_iff`).
-/

namespace Hatn.Api

open Hatn.Order

/-- The walk of a completion over the callbacks: the number of the completion, the place of the next
callback, the end of the list when the walk began, and whether the list has not moved since. -/
structure RefreshWalk where
  completion : Nat
  next : Nat
  stop : Nat
  inPlace : Bool

/-- The list has moved, or its elements are gone. -/
def RefreshWalk.lose (w : RefreshWalk) : RefreshWalk := { w with inPlace := false }

/-- An invocation of a callback with the result of a completion. -/
structure Invocation where
  callback : Nat
  completion : Nat
  deriving DecidableEq

/-- `Session`.  Callbacks are numbered as they are passed, completions as they come; `passed` has
for each callback how many completions there were before it.  `failed` is an access to a list that
has moved. -/
structure Session where
  callbacks : List Nat
  refreshing : Bool
  valid : Bool
  inProgress : Nat
  walks : List RefreshWalk
  passed : List Nat
  completions : List Bool
  invoked : List Invocation
  failed : Bool

namespace Session

/-- A new session; `noAuth` is the parameter `NoAuth`. -/
def start (noAuth : Bool) : Session where
  callbacks := []
  refreshing := false
  valid := noAuth
  inProgress := 0
  walks := []
  passed := []
  completions := []
  invoked := []
  failed := false

/-- Code of the callers runs: outside of the walks, or in a callback of the innermost one. -/
def callable (s : Session) : Bool :=
  match s.walks with
  | [] => true
  | w :: _ => 0 < w.next

/-- `m_callbacks.emplace_back`; `moves` says whether the list has to move for it. -/
def emplaceBack (moves : Bool) (s : Session) : Session :=
  { s with
    callbacks := s.callbacks ++ [s.passed.length]
    passed := s.passed ++ [s.completions.length]
    walks := if moves then s.walks.map RefreshWalk.lose else s.walks }

/-- `refresh`, up to the refresh of the traits. -/
def refresh (moves : Bool) (s : Session) : Session :=
  let s := s.emplaceBack moves
  if s.refreshing then s
  else { s with refreshing := true, inProgress := s.inProgress + 1 }

/-- The completion of the traits' refresh, up to the walk. -/
def complete (ok : Bool) (s : Session) : Session :=
  { s with
    inProgress := s.inProgress - 1
    refreshing := false
    valid := ok
    completions := s.completions ++ [ok]
    walks := ⟨s.completions.length, 0, s.callbacks.length, true⟩ :: s.walks }

/-- A step of the innermost walk: the next callback, or the end with `m_callbacks.clear`. -/
def walk (s : Session) : Option Session :=
  match s.walks with
  | [] => none
  | w :: walks =>
    if w.next < w.stop then
      match w.inPlace, s.callbacks[w.next]? with
      | true, some callback =>
        some { s with
          invoked := s.invoked ++ [⟨callback, w.completion⟩]
          walks := { w with next := w.next + 1 } :: walks }
      | _, _ => some { s with failed := true }
    else some { s with callbacks := [], walks := walks.map RefreshWalk.lose }

/-- What happens: a call of `refresh`, the completion of the traits' refresh, inside that call or
later, with success or an error, and the walks. -/
inductive Event
  | refresh (moves : Bool)
  | complete (ok : Bool)
  | walk
  deriving DecidableEq

def step (s : Session) : Event → Option Session
  | .refresh moves => if s.callable then some (s.refresh moves) else none
  | .complete ok => if s.callable && 0 < s.inProgress then some (s.complete ok) else none
  | .walk => s.walk

/-! ### What a refresh is for -/

/-- The callbacks that will be invoked: those that the innermost walk has still to come to, or all
where there is no walk.  What is behind the end of a walk is cleared with the list. -/
def waiting (s : Session) : List Nat :=
  match s.walks with
  | [] => s.callbacks
  | w :: _ => (s.callbacks.take w.stop).drop w.next

/-- How often the callback was invoked or will be. -/
def tally (s : Session) (callback : Nat) : Nat :=
  (s.invoked.map Invocation.callback).count callback + s.waiting.count callback

/-- **Each callback is answered once**, by a completion that comes behind the call. -/
structure Answered (s : Session) : Prop where
  works : s.failed = false
  single : s.inProgress ≤ 1
  once : ∀ callback < s.passed.length, s.tally callback = 1
  served : s.waiting ≠ [] → s.inProgress = 1 ∨ s.walks ≠ []
  later : ∀ i ∈ s.invoked, s.passed.getD i.callback 0 ≤ i.completion ∧
    i.completion < s.completions.length
  valid : ∀ ok, s.completions.getLast? = some ok → s.valid = ok

/-- No call of `refresh` comes from inside a walk. -/
def Regular (s : Session) : Event → Prop
  | .refresh _ => s.walks = []
  | _ => True

variable {s t : Session}

/-- Outside of the walks: who waits has a refresh in progress. -/
structure Idle (s : Session) : Prop where
  walks : s.walks = []
  inProgress : s.inProgress = if s.refreshing then 1 else 0
  served : s.callbacks ≠ [] → s.refreshing = true
  passed : ∀ callback ∈ s.callbacks, s.passed.getD callback 0 ≤ s.completions.length

/-- In a walk over the whole list, which nothing has been added to. -/
structure Walking (w : RefreshWalk) (s : Session) : Prop where
  walks : s.walks = [w]
  inProgress : s.inProgress = 0
  refreshing : s.refreshing = false
  inPlace : w.inPlace = true
  stop : w.stop = s.callbacks.length
  next : w.next ≤ w.stop
  completion : w.completion < s.completions.length
  passed : ∀ callback ∈ s.callbacks, s.passed.getD callback 0 ≤ w.completion

/-- What regular steps keep. -/
structure Inv (s : Session) : Prop where
  works : s.failed = false
  once : ∀ callback, s.tally callback = if callback < s.passed.length then 1 else 0
  known : ∀ i ∈ s.invoked, i.callback < s.passed.length
  later : ∀ i ∈ s.invoked, s.passed.getD i.callback 0 ≤ i.completion ∧
    i.completion < s.completions.length
  valid : ∀ ok, s.completions.getLast? = some ok → s.valid = ok
  phase : s.Idle ∨ ∃ w, s.Walking w

theorem Inv.answered (h : s.Inv) : s.Answered where
  works := h.works
  single := by
    rcases h.phase with hidle | ⟨w, hwalking⟩
    · rw [hidle.inProgress]
      split <;> omega
    · rw [hwalking.inProgress]
      exact Nat.zero_le 1
  once := fun callback hc => (h.once callback).trans (if_pos hc)
  served := by
    intro hwaiting
    rcases h.phase with hidle | ⟨w, hwalking⟩
    · left
      rw [waiting, hidle.walks] at hwaiting
      rw [hidle.inProgress, if_pos (hidle.served hwaiting)]
    · right
      rw [hwalking.walks]
      exact List.cons_ne_nil w []
  later := h.later
  valid := h.valid

/-! ### Steps -/

/-- What a call does besides the traits' refresh. -/
theorem refresh_eq (s : Session) (moves : Bool) :
    (s.refresh moves).callbacks = s.callbacks ++ [s.passed.length] ∧
      (s.refresh moves).passed = s.passed ++ [s.completions.length] ∧
      (s.refresh moves).walks = (if moves then s.walks.map RefreshWalk.lose else s.walks) ∧
      (s.refresh moves).invoked = s.invoked := by
  rw [Session.refresh]
  split <;> exact ⟨rfl, rfl, rfl, rfl⟩

theorem Idle.waiting_eq (h : s.Idle) : s.waiting = s.callbacks := by
  rw [waiting, h.walks]

theorem Walking.waiting_eq {w : RefreshWalk} (h : s.Walking w) :
    s.waiting = s.callbacks.drop w.next := by
  rw [waiting, h.walks]
  dsimp only
  rw [h.stop, List.take_length]

/-- A callback that was passed before has its number of completions still. -/
theorem getD_snoc_of_lt {l : List Nat} {i n : Nat} (h : i < l.length) :
    (l ++ [n]).getD i 0 = l.getD i 0 := by
  rw [List.getD_eq_getElem?_getD, List.getD_eq_getElem?_getD, List.getElem?_append_left h]

theorem getD_snoc_length (l : List Nat) (n : Nat) : (l ++ [n]).getD l.length 0 = n := by
  simp

/-- The callbacks that wait were passed. -/
theorem Inv.lt_of_waiting (h : s.Inv) {callback : Nat} (hc : callback ∈ s.waiting) :
    callback < s.passed.length := by
  by_contra hle
  have htally := h.once callback
  rw [if_neg hle, tally] at htally
  have hcount : 0 < s.waiting.count callback := List.count_pos_iff.mpr hc
  omega

/-- **A call outside of the walks** waits for the refresh that is in progress. -/
theorem Inv.refresh (h : s.Inv) (hwalks : s.walks = []) (moves : Bool) :
    (s.refresh moves).Inv := by
  obtain hidle | ⟨w, hwalking⟩ := h.phase
  swap
  · rw [hwalking.walks] at hwalks
    cases hwalks
  obtain ⟨t, ht⟩ : ∃ t, s.refresh moves = t := ⟨_, rfl⟩
  obtain ⟨hcallbacks, hpassed, hmoved, hinvoked⟩ := s.refresh_eq moves
  rw [ht] at hcallbacks hpassed hmoved hinvoked
  have hwalks' : t.walks = [] := by
    rw [hmoved, hwalks]
    cases moves <;> rfl
  obtain ⟨hcompletions, hvalid, hfailed, hrefreshing, hprogress⟩ :
      t.completions = s.completions ∧ t.valid = s.valid ∧ t.failed = s.failed ∧
        t.refreshing = true ∧ t.inProgress = 1 := by
    have hprogress := hidle.inProgress
    rw [← ht, Session.refresh, emplaceBack]
    dsimp only
    split
    next hrefreshing =>
      rw [if_pos hrefreshing] at hprogress
      exact ⟨rfl, rfl, rfl, hrefreshing, hprogress⟩
    next hrefreshing =>
      rw [if_neg hrefreshing] at hprogress
      exact ⟨rfl, rfl, rfl, rfl, congrArg (· + 1) hprogress⟩
  have hlength : t.passed.length = s.passed.length + 1 := by rw [hpassed, List.length_append]; rfl
  have hwaiting : t.waiting = s.waiting ++ [s.passed.length] := by
    rw [waiting, hwalks', hidle.waiting_eq]
    exact hcallbacks
  rw [ht]
  refine ⟨hfailed.trans h.works, fun callback => ?_, fun i hi => ?_, fun i hi => ?_, ?_, .inl ?_⟩
  · have htally := h.once callback
    rw [tally] at htally
    rw [tally, hinvoked, hwaiting, List.count_append, ← Nat.add_assoc, htally, hlength,
      List.count_singleton]
    simp only [beq_iff_eq]
    split_ifs <;> omega
  · rw [hinvoked] at hi
    rw [hlength]
    exact Nat.lt_succ_of_lt (h.known i hi)
  · rw [hinvoked] at hi
    rw [hpassed, hcompletions, getD_snoc_of_lt (h.known i hi)]
    exact h.later i hi
  · rw [hcompletions, hvalid]
    exact h.valid
  · refine ⟨hwalks', ?_, fun _ => hrefreshing, fun callback hc => ?_⟩
    · rw [hprogress, hrefreshing]
      rfl
    · rw [hcallbacks, List.mem_append, List.mem_singleton] at hc
      rw [hpassed, hcompletions]
      rcases hc with hc | rfl
      · rw [getD_snoc_of_lt (h.lt_of_waiting (hidle.waiting_eq ▸ hc))]
        exact hidle.passed callback hc
      · exact Nat.le_of_eq (by rw [getD_snoc_length])

/-- **The completion of a refresh** begins a walk over all that wait for it. -/
theorem Inv.complete (h : s.Inv) (hprogress : 0 < s.inProgress) (ok : Bool) :
    (s.complete ok).Inv := by
  obtain hidle | ⟨w, hwalking⟩ := h.phase
  swap
  · exact absurd (hwalking.inProgress ▸ hprogress) (Nat.lt_irrefl 0)
  have hone : s.inProgress = 1 := by
    have hcount := hidle.inProgress
    split at hcount <;> omega
  have hlength : (s.completions ++ [ok]).length = s.completions.length + 1 := by
    rw [List.length_append]
    rfl
  have hwalking : (s.complete ok).Walking ⟨s.completions.length, 0, s.callbacks.length, true⟩ :=
    { walks := by rw [Session.complete, hidle.walks]
      inProgress := by rw [Session.complete, hone]
      refreshing := rfl
      inPlace := rfl
      stop := rfl
      next := Nat.zero_le _
      completion := hlength ▸ Nat.lt_succ_self _
      passed := hidle.passed }
  refine ⟨h.works, fun callback => ?_, h.known, fun i hi => ?_, fun r hr => ?_, .inr ⟨_, hwalking⟩⟩
  · rw [tally, hwalking.waiting_eq]
    have htally := h.once callback
    rwa [tally, hidle.waiting_eq] at htally
  · refine ⟨(h.later i hi).1, ?_⟩
    show i.completion < (s.completions ++ [ok]).length
    rw [hlength]
    exact Nat.lt_succ_of_lt (h.later i hi).2
  · rw [Session.complete, List.getLast?_concat] at hr
    exact Option.some.inj hr

/-- **A step of a walk** invokes the next callback with the result of its completion; at the end
the list is cleared, which all were invoked of. -/
theorem Inv.walk (h : s.Inv) (ht : s.walk = some t) : t.Inv := by
  obtain hidle | ⟨w, hwalking⟩ := h.phase
  · rw [Session.walk, hidle.walks] at ht
    cases ht
  have hwaiting := hwalking.waiting_eq
  rw [Session.walk, hwalking.walks] at ht
  dsimp only at ht
  split at ht
  next hlt =>
    have hnext : w.next < s.callbacks.length := hwalking.stop ▸ hlt
    rw [hwalking.inPlace, List.getElem?_eq_getElem hnext] at ht
    cases ht
    have hdrop := List.drop_eq_getElem_cons hnext
    have hmem : s.callbacks[w.next] ∈ s.waiting := by
      rw [hwaiting, hdrop]
      exact List.mem_cons_self
    refine ⟨h.works, fun callback => ?_, fun i hi => ?_, fun i hi => ?_, h.valid,
      .inr ⟨⟨w.completion, w.next + 1, w.stop, true⟩, ?_⟩⟩
    · have htally := h.once callback
      rw [tally, hwaiting, hdrop, List.count_cons] at htally
      rw [← htally, tally, List.map_append, List.count_append, waiting]
      dsimp only
      rw [hwalking.stop, List.take_length, List.map_singleton, List.count_singleton,
        Nat.add_assoc]
      exact congrArg (_ + ·) (Nat.add_comm _ _)
    · rcases List.mem_append.mp hi with hi | hi
      · exact h.known i hi
      · rw [List.mem_singleton.mp hi]
        exact h.lt_of_waiting hmem
    · rcases List.mem_append.mp hi with hi | hi
      · exact h.later i hi
      · rw [List.mem_singleton.mp hi]
        exact ⟨hwalking.passed _ (List.getElem_mem hnext), hwalking.completion⟩
    · exact
        { walks := rfl
          inProgress := hwalking.inProgress
          refreshing := hwalking.refreshing
          inPlace := rfl
          stop := hwalking.stop
          next := hlt
          completion := hwalking.completion
          passed := hwalking.passed }
  next hend =>
    cases ht
    have hempty : s.waiting = [] := by
      rw [hwaiting]
      exact List.drop_of_length_le (hwalking.stop ▸ Nat.le_of_not_lt hend)
    refine ⟨h.works, fun callback => ?_, h.known, h.later, h.valid, .inl ⟨rfl, ?_, ?_, nofun⟩⟩
    · have htally := h.once callback
      rwa [tally, hempty] at htally
    · show s.inProgress = if s.refreshing then 1 else 0
      rw [hwalking.inProgress, hwalking.refreshing]
      rfl
    · exact fun hne => absurd rfl hne

/-- **A call from inside a walk** is not answered: its callback is behind the end of the walk. -/
theorem Inv.not_answered_refresh (h : s.Inv) (hwalks : s.walks ≠ []) (moves : Bool) :
    ¬ (s.refresh moves).Answered := by
  obtain hidle | ⟨w, hwalking⟩ := h.phase
  · exact absurd hidle.walks hwalks
  intro hanswered
  obtain ⟨hcallbacks, hpassed, hmoved, hinvoked⟩ := s.refresh_eq moves
  have hwaiting : (s.refresh moves).waiting = s.waiting := by
    have htake : (s.callbacks ++ [s.passed.length]).take w.stop = s.callbacks.take w.stop :=
      List.take_append_of_le_length (Nat.le_of_eq hwalking.stop)
    rw [waiting, waiting, hmoved, hwalking.walks, hcallbacks]
    -- whether the list moves or not, the walk has the end that it had
    cases moves with
    | true => exact congrArg (List.drop w.next) htake
    | false => exact congrArg (List.drop w.next) htake
  have hone := hanswered.once s.passed.length (by rw [hpassed, List.length_append]; simp)
  have hnone := h.once s.passed.length
  rw [if_neg (Nat.lt_irrefl _), tally] at hnone
  rw [tally, hinvoked, hwaiting, hnone] at hone
  exact absurd hone Nat.zero_ne_one

/-- **A step** keeps the answers just when it is regular. -/
theorem Inv.step (h : s.Inv) {e : Event} (ht : s.step e = some t) :
    (s.Regular e → t.Inv) ∧ (¬ s.Regular e → ¬ t.Answered) := by
  cases e with
  | refresh moves =>
    rw [Session.step] at ht
    split at ht
    · cases ht
      exact ⟨fun hr => h.refresh hr moves, fun hn => h.not_answered_refresh hn moves⟩
    · cases ht
  | complete ok =>
    rw [Session.step] at ht
    split at ht
    next hprogress =>
      cases ht
      rw [Bool.and_eq_true, decide_eq_true_eq] at hprogress
      exact ⟨fun _ => h.complete hprogress.2 ok, fun hn => absurd trivial hn⟩
    next => cases ht
  | walk => exact ⟨fun _ => h.walk ht, fun hn => absurd trivial hn⟩

/-! ### Runs -/

theorem start_inv (noAuth : Bool) : (start noAuth).Inv where
  works := rfl
  once := fun _ => (if_neg (Nat.not_lt_zero _)).symm
  known := nofun
  later := nofun
  valid := nofun
  phase := .inl ⟨rfl, rfl, fun h => absurd rfl h, nofun⟩

/-- **Where nothing is in progress**, each callback was invoked once. -/
theorem Answered.count (h : s.Answered) (hwalks : s.walks = []) (hprogress : s.inProgress = 0) :
    ∀ callback < s.passed.length,
      (s.invoked.map Invocation.callback).count callback = 1 := by
  intro callback hc
  have hempty : s.waiting = [] := by
    by_contra hne
    rcases h.served hne with hone | hne
    · rw [hprogress] at hone
      exact absurd hone Nat.zero_ne_one
    · exact hne hwalks
  have hone := h.once callback hc
  rwa [tally, hempty, List.count_nil, Nat.add_zero] at hone

/-- **Each callback is invoked once** in the runs where none is passed from inside a walk, and in
no others. -/
theorem refresh_answered_iff (noAuth : Bool) (es : List Event) :
    GoodRun step Answered (start noAuth) es ↔ RegularRun step Regular (start noAuth) es :=
  goodRun_iff (fun _ => Inv.answered) (fun _ _ _ h ht hr => (h.step ht).1 hr)
    (fun _ _ _ h ht hn => (h.step ht).2 hn) es (start_inv noAuth)

section Sample

/-- A callback that refreshes again, when the list has the capacity for it. -/
def sampleRun : List Event :=
  [.refresh true, .refresh true, .complete true, .walk, .walk, .walk,
    .refresh false, .complete true, .walk, .refresh false, .walk]

/-- **A refresh in a callback** is never answered: the list is cleared behind the walk. -/
theorem sampleRun_unanswered : ¬ GoodRun step Answered (start false) sampleRun := by
  intro h
  obtain ⟨t, ht⟩ : ∃ t, runTo step (start false) sampleRun = some t := ⟨_, rfl⟩
  have hanswered := h.runTo sampleRun ht
  cases ht
  exact absurd (hanswered.once 3 (by decide)) (by decide)

end Sample

end Session

end Hatn.Api
