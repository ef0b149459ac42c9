import Hatn.Api.ClientQueues
import Mathlib.Data.List.Count
import Mathlib.Data.List.Nodup

/-!
# Completion of the requests of clients

Each request that was executed is in one place: with a holder, among those that were called back,
or among those that were let go.  The invariant says so, with a list of requests in hand for the
middle of a step, and what keeps the queues from being left behind: a dequeue or a close is posted
or something is being sent, and a session that is waited for is being refreshed and has the
callback of the client.
-/

namespace Hatn.Api.ClientQueues

open Hatn.Order

variable (p : Setup)

/-- **The steps that leave no request behind.**  A request is not pushed behind the task of
`close`; a task with a request does not find its client closed; when a session is refreshed that
a request comes to wait for, the client has its callback there; and the transport refuses only
while something is being sent. -/
def Regular (s : State) : Event → Prop
  | .push c r => s.sessionReady p r = true → (s.clients c).closed = true → .close c ∈ s.tasks
  | .endDequeue c => (s.clients c).closed = true ∨ (∀ q, s.heldBy c (.queue q) = []) ∨
      ∃ r, ⟨c, .sending, r⟩ ∈ s.held
  | .refreshTask c id r => ((s.clients c).closed = true → s.cancelled r = true) ∧
      ((s.clients c).closed = false → (s.sessions id).valid = false →
        (s.sessions id).refreshing = true → c ∈ (s.sessions id).callbacks)
  | .pushTask c _ r => (s.clients c).closed = true → s.cancelled r = true
  | _ => True

/-- The invariant in a step: the requests `hand` are on their way, the sessions `stale` of
clients are to be drained, and a dequeue of the clients `idle` is to be posted. -/
structure Inv (hand : List Nat) (stale : Nat → Nat → Prop) (idle : Nat → Prop) (s : State) :
    Prop where
  nodup : s.executed.Nodup
  conserved : ∀ r, s.executed.count r = hand.count r + s.held.countP (fun e => e.request = r) +
    s.calledBack.count r + s.dropped.count r
  dropped : ∀ r ∈ s.dropped, s.cancelled r = true
  counts : ∀ c q, (s.clients c).sessionWaitingReqCount q = s.waitingCount p c q
  waiting : ∀ c id r, ⟨c, .waiting id, r⟩ ∈ s.held → id ∈ (s.clients c).waitingQueues
  refreshing : ∀ c id, id ∈ (s.clients c).waitingQueues → (s.clients c).closed = true ∨
    ((s.sessions id).refreshing = true ∧ c ∈ (s.sessions id).callbacks) ∨ stale c id
  cleared : ∀ c, (s.clients c).closed = true → .close c ∉ s.tasks →
    (s.clients c).waitingQueues = [] ∧ ∀ q r, ⟨c, .queue q, r⟩ ∉ s.held
  dequeued : ∀ c q r, ⟨c, .queue q, r⟩ ∈ s.held → .dequeue c ∈ s.tasks ∨ .close c ∈ s.tasks ∨
    (∃ r', ⟨c, .sending, r'⟩ ∈ s.held) ∨ idle c

variable {p} {hand : List Nat} {stale : Nat → Nat → Prop} {idle : Nat → Prop} {s : State}
  {c r id : Nat}

/-! ### Holders -/

theorem mem_heldBy {holder : Holder} : r ∈ s.heldBy c holder ↔ ⟨c, holder, r⟩ ∈ s.held := by
  rw [State.heldBy, List.mem_map]
  constructor
  · rintro ⟨⟨c', h', r'⟩, hm, rfl⟩
    obtain ⟨hmem, he⟩ := List.mem_filter.mp hm
    obtain ⟨rfl, rfl⟩ := of_decide_eq_true he
    exact hmem
  · exact fun hm => ⟨_, List.mem_filter.mpr ⟨hm, by simp⟩, rfl⟩

theorem heldBy_release (s : State) (c : Nat) (holder : Holder) (r : Nat) :
    (s.release c holder r).heldBy c holder = (s.heldBy c holder).erase r := by
  rw [State.heldBy, State.heldBy, State.release]
  dsimp only
  induction s.held with
  | nil => rfl
  | cons e l ih =>
    by_cases he : e = ⟨c, holder, r⟩
    · subst he
      rw [List.erase_cons_head, List.filter_cons_of_pos (by simp), List.map_cons,
        List.erase_cons_head]
    · rw [List.erase_cons_tail (by simpa using he)]
      by_cases hm : e.client = c ∧ e.holder = holder
      · have hr : e.request ≠ r := fun hr => he (by
          obtain ⟨c', h', r'⟩ := e
          obtain ⟨rfl, rfl⟩ := hm
          exact congrArg _ hr)
        rw [List.filter_cons_of_pos (by simpa using hm),
          List.filter_cons_of_pos (by simpa using hm), List.map_cons, List.map_cons,
          List.erase_cons_tail (by simpa using hr), ih]
      · rw [List.filter_cons_of_neg (by simpa using hm),
          List.filter_cons_of_neg (by simpa using hm), ih]

theorem heldBy_hold (s : State) (c r c' : Nat) {h h' : Holder} (hne : h' ≠ h) :
    (s.hold c h r).heldBy c' h' = s.heldBy c' h' := by
  have hnot : ¬ (c = c' ∧ h = h') := fun he => hne he.2.symm
  rw [State.heldBy, State.hold, List.filter_append, List.filter_cons_of_neg (by simpa using hnot),
    List.filter_nil, List.append_nil]
  rfl

/-- The waiting queues and the sessions are as they were. -/
structure SameQueues (s t : State) : Prop where
  closed : ∀ c, (t.clients c).closed = (s.clients c).closed
  queues : ∀ c, (t.clients c).waitingQueues = (s.clients c).waitingQueues
  sessions : t.sessions = s.sessions

theorem SameQueues.trans {s t u : State} (h : SameQueues s t) (h' : SameQueues t u) :
    SameQueues s u where
  closed c := (h'.closed c).trans (h.closed c)
  queues c := (h'.queues c).trans (h.queues c)
  sessions := h'.sessions.trans h.sessions

theorem sameQueues_leave (s : State) (c id r : Nat) : SameQueues s (s.leave p c id r) where
  closed c' := by
    by_cases hne : c' = c
    · subst hne
      rw [show (s.leave p c' id r).clients c' = _ from Function.update_self _ _ _]
    · rw [show (s.leave p c id r).clients c' = _ from Function.update_of_ne hne _ _]
  queues c' := by
    by_cases hne : c' = c
    · subst hne
      rw [show (s.leave p c' id r).clients c' = _ from Function.update_self _ _ _]
    · rw [show (s.leave p c id r).clients c' = _ from Function.update_of_ne hne _ _]
  sessions := rfl

theorem sameQueues_doExec (s : State) (c r : Nat) : SameQueues s (s.doExec p c r) ∧
    ∀ c' id, (s.doExec p c r).heldBy c' (.waiting id) = s.heldBy c' (.waiting id) := by
  rw [State.doExec]
  split
  · exact ⟨⟨fun _ => rfl, fun _ => rfl, rfl⟩, fun _ _ => rfl⟩
  · rw [State.accept]
    split
    · exact ⟨⟨fun _ => rfl, fun _ => rfl, rfl⟩, fun c' _ => heldBy_hold s c r c' (by simp)⟩
    · split
      · exact ⟨⟨fun _ => rfl, fun _ => rfl, rfl⟩, fun c' _ => heldBy_hold s c r c' (by simp)⟩
      · exact ⟨⟨fun _ => rfl, fun _ => rfl, rfl⟩, fun c' _ => heldBy_hold s c r c' (by simp)⟩

/-! ### Queues that are cleared -/

/-- The requests of a client with these holders were called back, or let go when cancelled. -/
structure Aborted (c : Nat) (hs : List Holder) (s t : State) : Prop where
  held : ∀ e, e ∈ t.held ↔ e ∈ s.held ∧ ¬ (e.client = c ∧ e.holder ∈ hs)
  balance : ∀ r, t.held.countP (fun e => e.request = r) + t.calledBack.count r +
    t.dropped.count r = s.held.countP (fun e => e.request = r) + s.calledBack.count r +
      s.dropped.count r
  dropped : ∀ r ∈ t.dropped, r ∈ s.dropped ∨ s.cancelled r = true
  others : ∀ f : Held → Bool, (∀ e, f e = true → e.client ≠ c) →
    t.held.countP f = s.held.countP f
  cancelled : t.cancelled = s.cancelled
  tasks : t.tasks = s.tasks
  executed : t.executed = s.executed
  sessions : t.sessions = s.sessions

namespace Aborted

theorem refl (c : Nat) (s : State) : Aborted c [] s s where
  held e := by simp
  balance _ := rfl
  dropped r hr := .inl hr
  others _ _ := rfl
  cancelled := rfl
  tasks := rfl
  executed := rfl
  sessions := rfl

theorem trans {hs hs' : List Holder} {s t u : State} (h : Aborted c hs s t)
    (h' : Aborted c hs' t u) : Aborted c (hs ++ hs') s u where
  held e := by
    rw [h'.held, h.held, List.mem_append]
    tauto
  balance r := (h'.balance r).trans (h.balance r)
  dropped r hr := by
    obtain hr | hr := h'.dropped r hr
    · exact h.dropped r hr
    · exact .inr (h.cancelled ▸ hr)
  others f hf := (h'.others f hf).trans (h.others f hf)
  cancelled := h'.cancelled.trans h.cancelled
  tasks := h'.tasks.trans h.tasks
  executed := h'.executed.trans h.executed
  sessions := h'.sessions.trans h.sessions

end Aborted

theorem count_heldBy (s : State) (c : Nat) (h : Holder) (r : Nat) :
    (s.heldBy c h).count r =
      (s.held.filter fun e => e.client = c ∧ e.holder = h).countP (fun e => e.request = r) := by
  rw [State.heldBy, List.count, List.countP_map]
  rfl

theorem aborted_abort (s : State) (c : Nat) (h : Holder) : Aborted c [h] s (s.abort c h) where
  held e := by
    rw [State.abort, List.mem_filter, List.mem_singleton, decide_eq_true_iff]
  balance r := by
    have hsplit := List.countP_eq_countP_filter_add s.held (fun e => e.request = r)
      fun e => e.client = c ∧ e.holder = h
    have hlive := List.countP_eq_countP_filter_add (s.heldBy c h) (· == r) s.cancelled
    have hby := count_heldBy s c h r
    simp only [State.abort, List.count_append, decide_not]
    simp only [List.count] at hby hlive ⊢
    omega
  dropped r hr := by
    obtain hr | hr := List.mem_append.mp hr
    · exact .inl hr
    · exact .inr (List.mem_filter.mp hr).2
  others f hf := by
    rw [State.abort, List.countP_filter]
    refine List.countP_congr fun e _ => ?_
    rw [Bool.and_eq_true, decide_eq_true_iff]
    exact ⟨fun he => he.1, fun he => ⟨he, fun hm => hf e he hm.1⟩⟩
  cancelled := rfl
  tasks := rfl
  executed := rfl
  sessions := rfl

theorem aborted_abortAll (c : Nat) : ∀ (hs : List Holder) (s : State),
    Aborted c hs s (s.abortAll c hs) ∧ (s.abortAll c hs).clients = s.clients := by
  intro hs
  induction hs with
  | nil => exact fun s => ⟨.refl c s, rfl⟩
  | cons h hs ih =>
    intro s
    obtain ⟨ha, hclients⟩ := ih (s.abort c h)
    exact ⟨(aborted_abort s c h).trans ha, hclients⟩

/-- The holders whose requests `clearQueues` aborts. -/
def cleared (s : State) (c : Nat) : List Holder :=
  priorities.map .queue ++ (s.clients c).waitingQueues.map .waiting

theorem aborted_clearQueues (s : State) (c : Nat) :
    Aborted c (cleared s c) s (s.clearQueues c) ∧ (s.clearQueues c).clients =
      Function.update s.clients c
        { s.clients c with sessionWaitingReqCount := fun _ => 0, waitingQueues := [] } := by
  obtain ⟨ha₁, hc₁⟩ := aborted_abortAll c (priorities.map .queue) s
  generalize hs₁ : s.abortAll c (priorities.map .queue) = s₁ at ha₁ hc₁
  generalize hs₂ : s₁.setClient c { s₁.clients c with sessionWaitingReqCount := fun _ => 0 } = s₂
  have hcl : s₂.clients c = { s.clients c with sessionWaitingReqCount := fun _ => 0 } := by
    rw [← hs₂, State.setClient, ← hc₁]
    exact Function.update_self _ _ _
  have hids : (s₂.clients c).waitingQueues = (s.clients c).waitingQueues := by rw [hcl]
  have ha₂ : Aborted c [] s₁ s₂ := hs₂ ▸ { Aborted.refl c s₁ with }
  obtain ⟨ha₃, hc₃⟩ := aborted_abortAll c ((s₂.clients c).waitingQueues.map .waiting) s₂
  generalize hs₃ : s₂.abortAll c ((s₂.clients c).waitingQueues.map .waiting) = s₃ at ha₃ hc₃
  have hfinal : s.clearQueues c = s₃.setClient c { s₃.clients c with waitingQueues := [] } := by
    rw [State.clearQueues]
    dsimp only
    rw [hs₁, hs₂, hs₃]
  rw [hfinal]
  constructor
  · have h := (ha₁.trans ha₂).trans ha₃
    rw [hids, List.append_nil] at h
    exact { h with }
  · rw [State.setClient]
    dsimp only
    rw [hc₃, hcl, ← hs₂, State.setClient]
    dsimp only
    rw [Function.update_idem, hc₁]

theorem mem_priorities (q : Priority) : q ∈ priorities := by
  cases q <;> decide

namespace Inv

/-! ### Requests in hand -/

theorem callback (h : Inv p (r :: hand) stale idle s) : Inv p hand stale idle (s.callback r) := by
  refine { h with conserved := fun r' => ?_ }
  have := h.conserved r'
  simp only [State.callback, List.count_append, List.count_cons, List.count_nil] at this ⊢
  omega

theorem drop (h : Inv p (r :: hand) stale idle s) (hr : s.cancelled r = true) :
    Inv p hand stale idle (s.drop r) := by
  refine { h with conserved := fun r' => ?_, dropped := fun r' hd => ?_ }
  · have := h.conserved r'
    simp only [State.drop, List.count_append, List.count_cons, List.count_nil] at this ⊢
    omega
  · obtain hd | hd := List.mem_append.mp hd
    · exact h.dropped r' hd
    · obtain rfl := List.mem_singleton.mp hd
      exact hr

theorem callbackUnlessCancelled (h : Inv p (r :: hand) stale idle s) :
    Inv p hand stale idle (s.callbackUnlessCancelled r) := by
  rw [State.callbackUnlessCancelled]
  split
  next hr => exact h.drop hr
  · exact h.callback

theorem conserved_hold (h : Inv p (r :: hand) stale idle s) (c : Nat) (holder : Holder) (r' : Nat) :
    s.executed.count r' = hand.count r' +
      (s.hold c holder r).held.countP (fun e => e.request = r') + s.calledBack.count r' +
      s.dropped.count r' := by
  have := h.conserved r'
  simp only [State.hold, List.countP_append, List.countP_cons, List.countP_nil, List.count_cons,
    decide_eq_true_eq, beq_iff_eq] at this ⊢
  omega

theorem counts_hold (h : Inv p hand stale idle s) (r : Nat) {holder : Holder}
    (hw : holder.isWaiting = false) (c' : Nat) (q : Priority) :
    (s.clients c').sessionWaitingReqCount q = (s.hold c holder r).waitingCount p c' q := by
  have hnot : ¬ (c = c' ∧ holder.isWaiting = true ∧ p.priority r = q) := by simp [hw]
  rw [h.counts c' q, State.waitingCount, State.waitingCount, State.hold, List.countP_append,
    List.countP_cons, List.countP_nil, if_neg (by simpa using hnot)]
  rfl

/-- A request comes to a holder that is no queue. -/
theorem hold (h : Inv p (r :: hand) stale idle s) {holder : Holder}
    (hq : ∀ q, holder ≠ .queue q) (hw : holder.isWaiting = false) :
    Inv p hand stale idle (s.hold c holder r) := by
  refine { h with
    conserved := h.conserved_hold c holder
    counts := h.counts_hold r hw
    waiting := fun c' id r' hm => ?_
    cleared := fun c' hc ht => ⟨(h.cleared c' hc ht).1, fun q r' hm => ?_⟩
    dequeued := fun c' q r' hm => ?_ }
  · obtain hm | hm := List.mem_append.mp hm
    · exact h.waiting c' id r' hm
    · cases List.mem_singleton.mp hm
      cases hw
  · obtain hm | hm := List.mem_append.mp hm
    · exact (h.cleared c' hc ht).2 q r' hm
    · cases List.mem_singleton.mp hm
      exact hq q rfl
  · obtain hm | hm := List.mem_append.mp hm
    · refine (h.dequeued c' q r' hm).imp_right (.imp_right (.imp_left ?_))
      rintro ⟨r'', hs⟩
      exact ⟨r'', List.mem_append_left _ hs⟩
    · cases List.mem_singleton.mp hm
      exact absurd rfl (hq q)

/-- A request comes to the queue of its priority, and a dequeue is posted. -/
theorem enqueue (h : Inv p (r :: hand) stale idle s) {q : Priority}
    (hc : (s.clients c).closed = true → .close c ∈ s.tasks) :
    Inv p hand stale idle ((s.hold c (.queue q) r).post (.dequeue c)) := by
  refine { h with
    conserved := h.conserved_hold c _
    counts := h.counts_hold r rfl
    waiting := fun c' id r' hm => ?_
    cleared := fun c' hc' ht => ?_
    dequeued := fun c' q' r' hm => ?_ }
  · obtain hm | hm := List.mem_append.mp hm
    · exact h.waiting c' id r' hm
    · cases List.mem_singleton.mp hm
  · have ht' : .close c' ∉ s.tasks := fun hm => ht (List.mem_append_left _ hm)
    refine ⟨(h.cleared c' hc' ht').1, fun q r' hm => ?_⟩
    obtain hm | hm := List.mem_append.mp hm
    · exact (h.cleared c' hc' ht').2 q r' hm
    · cases List.mem_singleton.mp hm
      exact ht' (hc hc')
  · obtain hm | hm := List.mem_append.mp hm
    · obtain hd | hd | ⟨r'', hs⟩ | hi := h.dequeued c' q' r' hm
      · exact .inl (List.mem_append_left _ hd)
      · exact .inr (.inl (List.mem_append_left _ hd))
      · exact .inr (.inr (.inl ⟨r'', List.mem_append_left _ hs⟩))
      · exact .inr (.inr (.inr hi))
    · cases List.mem_singleton.mp hm
      exact .inl (List.mem_append_right _ (List.mem_singleton.mpr rfl))

theorem conserved_release (h : Inv p hand stale idle s) {holder : Holder}
    (hm : ⟨c, holder, r⟩ ∈ s.held) (r' : Nat) :
    s.executed.count r' = (r :: hand).count r' +
      (s.release c holder r).held.countP (fun e => e.request = r') + s.calledBack.count r' +
      s.dropped.count r' := by
  have := h.conserved r'
  rw [State.release, List.countP_erase, List.count_cons]
  by_cases hr : r = r'
  · have hpos : 0 < s.held.countP (fun e => e.request = r') :=
      List.countP_pos_iff.mpr ⟨_, hm, by simpa using hr⟩
    rw [if_pos (by simpa using hr), if_pos ⟨hm, by simpa using hr⟩]
    omega
  · rw [if_neg (by simpa using hr), if_neg (by simp [hr])]
    omega

/-- A request is taken from a holder that is no session queue. -/
theorem release (h : Inv p hand stale idle s) {holder : Holder}
    (hm : ⟨c, holder, r⟩ ∈ s.held) (hw : holder.isWaiting = false) :
    Inv p (r :: hand) stale (fun c' => idle c' ∨ c' = c ∧ holder = .sending)
      (s.release c holder r) := by
  refine { h with
    conserved := h.conserved_release hm
    counts := fun c' q => ?_
    waiting := fun c' id r' hm' => h.waiting c' id r' (List.mem_of_mem_erase hm')
    cleared := fun c' hc ht => ⟨(h.cleared c' hc ht).1, fun q r' hm' =>
      (h.cleared c' hc ht).2 q r' (List.mem_of_mem_erase hm')⟩
    dequeued := fun c' q r' hm' => ?_ }
  · rw [State.waitingCount, State.release, List.countP_erase, if_neg (by simp [hw]), Nat.sub_zero]
    exact h.counts c' q
  · obtain hd | hd | ⟨r'', hs⟩ | hi := h.dequeued c' q r' (List.mem_of_mem_erase hm')
    · exact .inl hd
    · exact .inr (.inl hd)
    · by_cases he : (⟨c', .sending, r''⟩ : Held) = ⟨c, holder, r⟩
      · cases he
        exact .inr (.inr (.inr (.inr ⟨rfl, rfl⟩)))
      · exact .inr (.inr (.inl ⟨r'', (List.mem_erase_of_ne he).mpr hs⟩))
    · exact .inr (.inr (.inr (.inl hi)))

/-- What is stale or idle may be so for less reasons. -/
theorem mono (h : Inv p hand stale idle s) {stale' : Nat → Nat → Prop} {idle' : Nat → Prop}
    (hs : ∀ c id, id ∈ (s.clients c).waitingQueues → stale c id → (s.clients c).closed = true ∨
      ((s.sessions id).refreshing = true ∧ c ∈ (s.sessions id).callbacks) ∨ stale' c id)
    (hi : ∀ c q r, ⟨c, .queue q, r⟩ ∈ s.held → idle c →
      .dequeue c ∈ s.tasks ∨ .close c ∈ s.tasks ∨ idle' c) : Inv p hand stale' idle' s := by
  refine { h with refreshing := fun c id hm => ?_, dequeued := fun c q r hm => ?_ }
  · obtain hc | hr | hst := h.refreshing c id hm
    · exact .inl hc
    · exact .inr (.inl hr)
    · exact hs c id hm hst
  · obtain hd | hd | hr | hid := h.dequeued c q r hm
    · exact .inl hd
    · exact .inr (.inl hd)
    · exact .inr (.inr (.inl hr))
    · exact (hi c q r hm hid).imp_right (.imp_right .inr)

/-! ### Posted tasks -/

theorem post (h : Inv p hand stale idle s) (t : Task) :
    Inv p hand stale (fun c => idle c ∧ t ≠ .dequeue c) (s.post t) := by
  have hmem : ∀ {u : Task}, u ∈ s.tasks → u ∈ (s.post t).tasks :=
    fun hu => List.mem_append_left _ hu
  refine { h with
    cleared := fun c hc ht => h.cleared c hc fun hm => ht (hmem hm)
    dequeued := fun c q r hm => ?_ }
  obtain hd | hd | hr | hi := h.dequeued c q r hm
  · exact .inl (hmem hd)
  · exact .inr (.inl (hmem hd))
  · exact .inr (.inr (.inl hr))
  · by_cases ht : t = .dequeue c
    · exact .inl (List.mem_append_right _ (List.mem_singleton.mpr ht.symm))
    · exact .inr (.inr (.inr ⟨hi, ht⟩))

/-- A dequeue is posted for the client that is idle. -/
theorem postDequeue {c : Nat} (h : Inv p hand stale (fun c' => idle c' ∨ c' = c) s) :
    Inv p hand stale idle (s.post (.dequeue c)) := by
  refine (h.post (.dequeue c)).mono (fun _ _ _ hs => .inr (.inr hs)) ?_
  rintro c' q r - ⟨hi | rfl, hne⟩
  · exact .inr (.inr hi)
  · exact absurd rfl hne

/-- A task ends that neither closes nor dequeues. -/
theorem endTask (h : Inv p hand stale idle s) {t : Task} (hd : ∀ c, t ≠ .dequeue c)
    (hc : ∀ c, t ≠ .close c) : Inv p hand stale idle (s.endTask t) := by
  have hmem : ∀ {u : Task}, u ≠ t → (u ∈ (s.endTask t).tasks ↔ u ∈ s.tasks) :=
    fun hne => List.mem_erase_of_ne hne
  refine { h with
    cleared := fun c hcl ht => h.cleared c hcl fun hm => ht ((hmem (hc c).symm).mpr hm)
    dequeued := fun c q r hm => ?_ }
  exact (h.dequeued c q r hm).imp (hmem (hd c).symm).mpr (.imp_left (hmem (hc c).symm).mpr)

/-- A dequeue ends. -/
theorem endDequeue (h : Inv p hand stale idle s)
    (hc : (s.clients c).closed = true ∨ (∀ q, s.heldBy c (.queue q) = []) ∨
      ∃ r, ⟨c, .sending, r⟩ ∈ s.held) : Inv p hand stale idle (s.endTask (.dequeue c)) := by
  have hclose : ∀ c', .close c' ∈ (s.endTask (.dequeue c)).tasks ↔ .close c' ∈ s.tasks :=
    fun _ => List.mem_erase_of_ne nofun
  refine { h with
    cleared := fun c' hcl ht => h.cleared c' hcl fun hm => ht ((hclose c').mpr hm)
    dequeued := fun c' q r hm => ?_ }
  obtain hd | hd | hr | hi := h.dequeued c' q r hm
  · by_cases hne : c' = c
    · subst hne
      obtain hcl | hempty | hsend := hc
      · by_cases hpending : .close c' ∈ s.tasks
        · exact .inr (.inl ((hclose c').mpr hpending))
        · exact absurd hm ((h.cleared c' hcl hpending).2 q r)
      · have hby : r ∈ s.heldBy c' (.queue q) := mem_heldBy.mpr hm
        rw [hempty q] at hby
        cases hby
      · exact .inr (.inr (.inl hsend))
    · exact .inl ((List.mem_erase_of_ne fun he => hne (Task.dequeue.inj he)).mpr hd)
  · exact .inr (.inl ((hclose c').mpr hd))
  · exact .inr (.inr (.inl hr))
  · exact .inr (.inr (.inr hi))

/-! ### Sessions -/

/-- A session changes, and the clients whose callbacks it had stay so or are stale. -/
theorem setSession (h : Inv p hand stale idle s) (id : Nat) (session : Session)
    {stale' : Nat → Nat → Prop} (hs : ∀ c id, stale c id → stale' c id)
    (hc : ∀ c, (s.sessions id).refreshing = true → c ∈ (s.sessions id).callbacks →
      (session.refreshing = true ∧ c ∈ session.callbacks) ∨ stale' c id) :
    Inv p hand stale' idle (s.setSession id session) := by
  refine { h with refreshing := fun c id' hm => ?_ }
  obtain hcl | ⟨hr, hcb⟩ | hst := h.refreshing c id' hm
  · exact .inl hcl
  · rw [State.setSession]
    dsimp only
    by_cases hid : id' = id
    · subst hid
      rw [Function.update_self]
      exact .inr (hc c hr hcb)
    · rw [Function.update_of_ne hid]
      exact .inr (.inl ⟨hr, hcb⟩)
  · exact .inr (.inr (hs c id' hst))

/-- A request comes to the queue of its session. -/
theorem wait (h : Inv p (r :: hand) stale idle s) (id : Nat)
    (hc : (s.clients c).closed = false) :
    Inv p hand (fun c' id' => stale c' id' ∨ c' = c ∧ id' = id) idle (s.wait p c id r) := by
  have hother : ∀ {c'}, c' ≠ c → (s.wait p c id r).clients c' = s.clients c' :=
    fun hne => Function.update_of_ne hne _ _
  have hself : (s.wait p c id r).clients c = _ := Function.update_self _ _ _
  have hqueues : ∀ id', id' ∈ ((s.wait p c id r).clients c).waitingQueues ↔
      id' ∈ (s.clients c).waitingQueues ∨ id' = id := by
    intro id'
    rw [hself]
    dsimp only
    split_ifs with hm
    · exact ⟨.inl, fun h => h.elim (fun h => h) fun he => he ▸ hm⟩
    · rw [List.mem_append, List.mem_singleton]
  have hclosed : ∀ c', ((s.wait p c id r).clients c').closed = (s.clients c').closed := by
    intro c'
    by_cases hne : c' = c
    · rw [hne, hself]
    · rw [hother hne]
  have hold : ∀ {e}, e ∈ (s.wait p c id r).held ↔ e ∈ s.held ∨ e = ⟨c, .waiting id, r⟩ := by
    intro e
    exact List.mem_append.trans (or_congr_right List.mem_singleton)
  refine { h with
    conserved := h.conserved_hold c _
    counts := fun c' q => ?_
    waiting := fun c' id' r' hm => ?_
    refreshing := fun c' id' hm => ?_
    cleared := fun c' hcl ht => ?_
    dequeued := fun c' q r' hm => ?_ }
  · have hcount : (s.wait p c id r).waitingCount p c' q = s.waitingCount p c' q +
        if c = c' ∧ p.priority r = q then 1 else 0 := by
      rw [State.waitingCount, State.wait, State.hold, List.countP_append, List.countP_cons,
        List.countP_nil]
      simp [State.waitingCount, State.setClient, Holder.isWaiting]
    rw [hcount, ← h.counts c' q]
    by_cases hne : c' = c
    · subst hne
      rw [hself]
      dsimp only
      by_cases hq : q = p.priority r
      · subst hq
        rw [Function.update_self, if_pos ⟨rfl, rfl⟩]
      · rw [Function.update_of_ne hq, if_neg fun he => hq he.2.symm]
        rfl
    · rw [hother hne, if_neg fun he => hne he.1.symm]
      rfl
  · obtain hm | hm := hold.mp hm
    · have := h.waiting c' id' r' hm
      by_cases hne : c' = c
      · subst hne
        exact (hqueues id').mpr (.inl this)
      · rw [hother hne]
        exact this
    · cases hm
      exact (hqueues id).mpr (.inr rfl)
  · rw [hclosed]
    by_cases hne : c' = c
    · subst hne
      obtain hm | rfl := (hqueues id').mp hm
      · exact (h.refreshing c' id' hm).imp_right (.imp_right .inl)
      · exact .inr (.inr (.inr ⟨rfl, rfl⟩))
    · rw [hother hne] at hm
      exact (h.refreshing c' id' hm).imp_right (.imp_right .inl)
  · rw [hclosed] at hcl
    have hne : c' ≠ c := by
      rintro rfl
      exact Bool.false_ne_true (hc.symm.trans hcl)
    rw [hother hne]
    refine ⟨(h.cleared c' hcl ht).1, fun q r' hm => ?_⟩
    obtain hm | hm := hold.mp hm
    · exact (h.cleared c' hcl ht).2 q r' hm
    · cases hm
  · obtain hm | hm := hold.mp hm
    · refine (h.dequeued c' q r' hm).imp_right (.imp_right (.imp_left ?_))
      rintro ⟨r'', hs⟩
      exact ⟨r'', hold.mpr (.inl hs)⟩
    · cases hm

/-- A request leaves the queue of its session. -/
theorem leave (h : Inv p hand stale idle s) (hm : ⟨c, .waiting id, r⟩ ∈ s.held) :
    Inv p (r :: hand) stale idle (s.leave p c id r) := by
  have hsame := sameQueues_leave (p := p) s c id r
  refine { h with
    conserved := h.conserved_release hm
    counts := fun c' q => ?_
    waiting := fun c' id' r' hm' => ?_
    refreshing := fun c' id' hm' => ?_
    cleared := fun c' hcl ht => ?_
    dequeued := fun c' q r' hm' => ?_ }
  · have hcount : (s.leave p c id r).waitingCount p c' q = s.waitingCount p c' q -
        if c = c' ∧ p.priority r = q then 1 else 0 := by
      rw [State.waitingCount, State.leave, State.release, List.countP_erase]
      simp [State.waitingCount, State.setClient, Holder.isWaiting, hm]
    rw [hcount, ← h.counts c' q]
    by_cases hne : c' = c
    · subst hne
      rw [show (s.leave p c' id r).clients c' = _ from Function.update_self _ _ _]
      dsimp only
      by_cases hq : q = p.priority r
      · subst hq
        rw [Function.update_self, if_pos ⟨rfl, rfl⟩]
      · rw [Function.update_of_ne hq, if_neg fun he => hq he.2.symm]
        rfl
    · rw [show (s.leave p c id r).clients c' = _ from Function.update_of_ne hne _ _,
        if_neg fun he => hne he.1.symm]
      rfl
  · rw [hsame.queues]
    exact h.waiting c' id' r' (List.mem_of_mem_erase hm')
  · rw [hsame.queues] at hm'
    rw [hsame.closed]
    exact h.refreshing c' id' hm'
  · rw [hsame.closed] at hcl
    rw [hsame.queues]
    exact ⟨(h.cleared c' hcl ht).1, fun q r' hm' =>
      (h.cleared c' hcl ht).2 q r' (List.mem_of_mem_erase hm')⟩
  · refine (h.dequeued c' q r' (List.mem_of_mem_erase hm')).imp_right (.imp_right (.imp_left ?_))
    rintro ⟨r'', hs⟩
    exact ⟨r'', (List.mem_erase_of_ne (by simp)).mpr hs⟩

/-! ### The functions of the client -/

theorem accept (h : Inv p (r :: hand) stale idle s)
    (hc : s.sessionReady p r = true → (s.clients c).closed = true → .close c ∈ s.tasks) :
    Inv p hand stale idle (s.accept p c r) := by
  rw [State.sessionReady] at hc
  rw [State.accept]
  split
  next hs =>
    rw [hs] at hc
    exact h.enqueue (hc rfl)
  next id hs =>
    rw [hs] at hc
    split
    next hv => exact h.enqueue (hc hv)
    · exact h.hold nofun rfl

theorem doExec (h : Inv p (r :: hand) stale idle s) : Inv p hand stale idle (s.doExec p c r) := by
  rw [State.doExec]
  split
  · exact h.callback
  next hr =>
    refine h.accept fun _ hc => ?_
    rw [State.refuses, hc] at hr
    exact absurd rfl hr

theorem sendRequest (h : Inv p (r :: hand) stale idle s) (serialized : Bool) :
    Inv p hand stale idle (s.sendRequest c r serialized) := by
  rw [State.sendRequest]
  split
  · exact ((h.post _).mono (fun _ _ _ hs => .inr (.inr hs)) fun _ _ _ _ hi =>
      .inr (.inr hi.1)).callback
  · exact h.hold nofun rfl

/-- The request of a network operation that has ended. -/
theorem response (h : Inv p (r :: hand) stale (fun c' => idle c' ∨ c' = c) s) (outcome : Outcome) :
    Inv p hand stale idle (s.response p c r outcome) := by
  cases outcome with
  | failed =>
    rw [State.response]
    split
    next hc =>
      have ht := h.callbackUnlessCancelled
      have hclients : (s.callbackUnlessCancelled r).clients = s.clients := by
        rw [State.callbackUnlessCancelled]
        split <;> rfl
      refine ht.mono (fun _ _ _ hs => .inr (.inr hs)) ?_
      rintro c' q r' hm (hi | rfl)
      · exact .inr (.inr hi)
      · by_cases hclose : .close c' ∈ (s.callbackUnlessCancelled r).tasks
        · exact .inr (.inl hclose)
        · exact absurd hm ((ht.cleared c' (hclients ▸ hc) hclose).2 q r')
    · exact h.callbackUnlessCancelled.postDequeue
  | answered => exact h.callbackUnlessCancelled.postDequeue
  | authError =>
    rw [State.response]
    split
    · exact h.callbackUnlessCancelled.postDequeue
    next id hs =>
      split
      · exact h.callbackUnlessCancelled.postDequeue
      · refine Inv.postDequeue (Inv.hold ?_ nofun rfl)
        exact h.setSession _ _ (fun _ _ hs => hs) fun c hr hcb => .inl ⟨hr, hcb⟩

/-- The task of `refreshSession`. -/
theorem refreshSession (h : Inv p (r :: hand) stale idle s)
    (hd : (s.clients c).closed = true → s.cancelled r = true)
    (hr : (s.clients c).closed = false → (s.sessions id).valid = false →
      (s.sessions id).refreshing = true → c ∈ (s.sessions id).callbacks) :
    Inv p hand stale idle (s.refreshSession p c id r) := by
  rw [State.refreshSession]
  split
  next hc => exact h.drop (hd hc)
  next hc =>
    have hc : (s.clients c).closed = false := by simpa using hc
    split
    · exact h.doExec
    next hv =>
      have hw := h.wait id hc
      dsimp only
      split
      next hrefreshing =>
        refine hw.mono (fun c' id' _ hst => ?_) fun _ _ _ _ hi => .inr (.inr hi)
        obtain hst | ⟨rfl, rfl⟩ := hst
        · exact .inr (.inr hst)
        · exact .inr (.inl ⟨hrefreshing, hr hc (by simpa using hv) hrefreshing⟩)
      · have hset := hw.setSession id { s.sessions id with
            refreshing := true, callbacks := (s.sessions id).callbacks ++ [c] }
          (fun _ _ hst => hst) fun c' _ hcb => .inl ⟨rfl, List.mem_append_left _ hcb⟩
        refine hset.mono (fun c' id' _ hst => ?_) fun _ _ _ _ hi => .inr (.inr hi)
        obtain hst | ⟨rfl, rfl⟩ := hst
        · exact .inr (.inr hst)
        · refine .inr (.inl ?_)
          rw [State.setSession]
          dsimp only
          rw [Function.update_self]
          exact ⟨rfl, List.mem_append_right _ (List.mem_singleton.mpr rfl)⟩

/-- The task of `pushToSessionWaitingQueue`. -/
theorem pushToSessionWaitingQueue (h : Inv p (r :: hand) stale idle s)
    (hd : (s.clients c).closed = true → s.cancelled r = true) :
    Inv p hand stale idle (s.pushToSessionWaitingQueue p c id r) := by
  rw [State.pushToSessionWaitingQueue]
  split
  next hc => exact h.drop (hd hc)
  next hc =>
    split
    next hm =>
      refine (h.wait id (by simpa using hc)).mono (fun c' id' hm' hst => ?_)
        fun _ _ _ _ hi => .inr (.inr hi)
      obtain hst | ⟨rfl, rfl⟩ := hst
      · exact .inr (.inr hst)
      · exact (h.refreshing c' id' hm).imp_left fun hcl => absurd hcl hc
    · exact h.hold nofun rfl

/-! ### The end of a refresh -/

/-- **The loop of the callback** goes on with each request until the queue is empty. -/
theorem drain (ok : Bool) : ∀ (rs : List Nat) {s : State}, Inv p hand stale idle s →
    s.heldBy c (.waiting id) = rs → Inv p hand stale idle (s.drain p c id ok rs) ∧
      SameQueues s (s.drain p c id ok rs) ∧ (s.drain p c id ok rs).heldBy c (.waiting id) = [] := by
  intro rs
  induction rs with
  | nil => exact fun h hby => ⟨h, ⟨fun _ => rfl, fun _ => rfl, rfl⟩, hby⟩
  | cons r rs ih =>
    intro s h hby
    have hm : ⟨c, .waiting id, r⟩ ∈ s.held := mem_heldBy.mp (hby ▸ List.mem_cons_self)
    have hleave := h.leave hm
    have hrest : (s.leave p c id r).heldBy c (.waiting id) = rs := by
      have := heldBy_release s c (.waiting id) r
      rw [hby, List.erase_cons_head] at this
      exact this
    have hsame := sameQueues_leave (p := p) s c id r
    rw [State.drain]
    cases ok with
    | true =>
      obtain ⟨hframe, hheld⟩ := sameQueues_doExec (p := p) (s.leave p c id r) c r
      obtain ⟨hinv, hsame', hempty⟩ := ih hleave.doExec ((hheld c id).trans hrest)
      exact ⟨hinv, (hsame.trans hframe).trans hsame', hempty⟩
    | false =>
      obtain ⟨hinv, hsame', hempty⟩ := ih hleave.callback hrest
      exact ⟨hinv, ⟨fun c' => (hsame'.closed c').trans (hsame.closed c'),
        fun c' => (hsame'.queues c').trans (hsame.queues c'),
        hsame'.sessions.trans hsame.sessions⟩, hempty⟩

/-- A session whose queue is empty is not waited for any more. -/
theorem forget (h : Inv p hand stale idle s) (hby : s.heldBy c (.waiting id) = []) :
    Inv p hand stale idle (s.setClient c
      { s.clients c with waitingQueues := (s.clients c).waitingQueues.filter (· ≠ id) }) := by
  generalize hcl : ({ s.clients c with
    waitingQueues := (s.clients c).waitingQueues.filter (· ≠ id) } : Client) = client
  have hother : ∀ {c'}, c' ≠ c → (s.setClient c client).clients c' = s.clients c' :=
    fun hne => Function.update_of_ne hne _ _
  have hself : (s.setClient c client).clients c = client := Function.update_self _ _ _
  have hclosed : client.closed = (s.clients c).closed := hcl ▸ rfl
  have hqueues : ∀ id', id' ∈ client.waitingQueues ↔
      id' ∈ (s.clients c).waitingQueues ∧ id' ≠ id := by
    intro id'
    rw [← hcl, List.mem_filter]
    simp
  refine { h with
    counts := fun c' q => ?_
    waiting := fun c' id' r' hm => ?_
    refreshing := fun c' id' hm => ?_
    cleared := fun c' hc ht => ?_ }
  · by_cases hne : c' = c
    · subst hne
      rw [hself, ← hcl]
      exact h.counts c' q
    · rw [hother hne]
      exact h.counts c' q
  · by_cases hne : c' = c
    · subst hne
      rw [hself, hqueues]
      refine ⟨h.waiting c' id' r' hm, ?_⟩
      rintro rfl
      have hr : r' ∈ s.heldBy c' (.waiting id') := mem_heldBy.mpr hm
      rw [hby] at hr
      cases hr
    · rw [hother hne]
      exact h.waiting c' id' r' hm
  · by_cases hne : c' = c
    · subst hne
      rw [hself] at hm ⊢
      rw [hclosed]
      exact h.refreshing c' id' ((hqueues id').mp hm).1
    · rw [hother hne] at hm ⊢
      exact h.refreshing c' id' hm
  · by_cases hne : c' = c
    · subst hne
      rw [hself] at hc ⊢
      rw [hclosed] at hc
      refine ⟨?_, (h.cleared c' hc ht).2⟩
      rw [List.eq_nil_iff_forall_not_mem]
      intro id' hm
      have hm' := ((hqueues id').mp hm).1
      rw [(h.cleared c' hc ht).1] at hm'
      cases hm'
    · rw [hother hne] at hc ⊢
      exact h.cleared c' hc ht

/-- **The callback of a refresh** leaves no request in the queue of the session. -/
theorem refreshCb {cs : List Nat} (ok : Bool)
    (h : Inv p hand (fun c' id' => stale c' id' ∨ id' = id ∧ c' ∈ c :: cs) idle s) :
    Inv p hand (fun c' id' => stale c' id' ∨ id' = id ∧ c' ∈ cs) idle (s.refreshCb p c id ok) := by
  rw [State.refreshCb]
  split
  next hc =>
    refine h.mono (fun c' id' _ hst => ?_) fun _ _ _ _ hi => .inr (.inr hi)
    obtain hst | ⟨rfl, hm⟩ := hst
    · exact .inr (.inr (.inl hst))
    · obtain rfl | hm := List.mem_cons.mp hm
      · exact .inl hc
      · exact .inr (.inr (.inr ⟨rfl, hm⟩))
  · split
    · obtain ⟨hinv, hsame, hempty⟩ := h.drain ok (s.heldBy c (.waiting id)) rfl
      refine (hinv.forget hempty).mono (fun c' id' hm hst => ?_) fun _ _ _ _ hi => .inr (.inr hi)
      obtain hst | ⟨rfl, hmem⟩ := hst
      · exact .inr (.inr (.inl hst))
      · obtain rfl | hmem := List.mem_cons.mp hmem
        · rw [show (State.setClient _ c' _).clients c' = _ from Function.update_self _ _ _] at hm
          have := (List.mem_filter.mp hm).2
          simp at this
        · exact .inr (.inr (.inr ⟨rfl, hmem⟩))
    next hm =>
      refine h.mono (fun c' id' hm' hst => ?_) fun _ _ _ _ hi => .inr (.inr hi)
      obtain hst | ⟨rfl, hmem⟩ := hst
      · exact .inr (.inr (.inl hst))
      · obtain rfl | hmem := List.mem_cons.mp hmem
        · exact absurd hm' hm
        · exact .inr (.inr (.inr ⟨rfl, hmem⟩))

theorem refreshCbs (ok : Bool) : ∀ (cs : List Nat) {s : State},
    Inv p hand (fun c' id' => stale c' id' ∨ id' = id ∧ c' ∈ cs) idle s →
    Inv p hand stale idle (cs.foldl (fun s c => s.refreshCb p c id ok) s) := by
  intro cs
  induction cs with
  | nil =>
    intro s h
    refine h.mono (fun c' id' _ hst => ?_) fun _ _ _ _ hi => .inr (.inr hi)
    exact .inr (.inr (hst.elim (fun hst => hst) fun hst => absurd hst.2 List.not_mem_nil))
  | cons c cs ih => exact fun h => ih (h.refreshCb ok)

theorem refreshed (h : Inv p hand stale idle s) (ok : Bool) :
    Inv p hand stale idle (s.refreshed p id ok) := by
  rw [State.refreshed]
  refine Inv.refreshCbs ok _ ?_
  exact h.setSession _ _ (fun _ _ hst => .inl hst) fun c' _ hcb => .inr (.inr ⟨rfl, hcb⟩)

/-- A task of `close` or `updateNetworkState` clears the queues of its client. -/
theorem clearQueues (h : Inv p hand stale idle s) {t : Task} (hd : ∀ c', t ≠ .dequeue c')
    (hc : ∀ c', c' ≠ c → t ≠ .close c') :
    Inv p hand stale idle ((s.endTask t).clearQueues c) := by
  obtain ⟨ha, hclients⟩ := aborted_clearQueues (s.endTask t) c
  have hother : ∀ {c'}, c' ≠ c → ((s.endTask t).clearQueues c).clients c' = s.clients c' := by
    intro c' hne
    rw [hclients]
    exact Function.update_of_ne hne _ _
  have hself : ((s.endTask t).clearQueues c).clients c =
      { s.clients c with sessionWaitingReqCount := fun _ => 0, waitingQueues := [] } := by
    rw [hclients]
    exact Function.update_self _ _ _
  have hheld : ∀ {e}, e ∈ ((s.endTask t).clearQueues c).held → e ∈ s.held :=
    fun hm => ((ha.held _).mp hm).1
  have hqueue : ∀ q r, ⟨c, .queue q, r⟩ ∉ ((s.endTask t).clearQueues c).held := by
    intro q r hm
    refine ((ha.held _).mp hm).2 ⟨rfl, List.mem_append_left _ ?_⟩
    exact List.mem_map_of_mem (mem_priorities q)
  have hwaiting : ∀ id r, ⟨c, .waiting id, r⟩ ∉ ((s.endTask t).clearQueues c).held := by
    intro id r hm
    refine ((ha.held _).mp hm).2 ⟨rfl, List.mem_append_right _ ?_⟩
    exact List.mem_map_of_mem (h.waiting c id r (hheld hm))
  have hmem : ∀ {u : Task}, u ≠ t → (u ∈ ((s.endTask t).clearQueues c).tasks ↔ u ∈ s.tasks) := by
    intro u hne
    rw [ha.tasks]
    exact List.mem_erase_of_ne hne
  refine {
    nodup := ha.executed ▸ h.nodup
    conserved := fun r => ?_
    dropped := fun r hr => ?_
    counts := fun c' q => ?_
    waiting := fun c' id r hm => ?_
    refreshing := fun c' id hm => ?_
    cleared := fun c' hcl ht => ?_
    dequeued := fun c' q r hm => ?_ }
  · have hcons := h.conserved r
    have hbalance := ha.balance r
    rw [ha.executed]
    change s.executed.count r = _
    change _ = s.held.countP _ + s.calledBack.count r + s.dropped.count r at hbalance
    omega
  · rw [ha.cancelled]
    exact (ha.dropped r hr).elim (h.dropped r) fun hr => hr
  · by_cases hne : c' = c
    · subst hne
      rw [hself, State.waitingCount, eq_comm, List.countP_eq_zero]
      rintro ⟨c'', holder, r⟩ hm he
      obtain ⟨rfl, hw, -⟩ := of_decide_eq_true he
      cases holder with
      | waiting id => exact hwaiting id r hm
      | _ => cases hw
    · rw [hother hne, State.waitingCount, ha.others _ fun e he => ?_]
      · exact h.counts c' q
      · exact fun hec => hne ((of_decide_eq_true he).1.symm.trans hec)
  · by_cases hne : c' = c
    · subst hne
      exact absurd hm (hwaiting id r)
    · rw [hother hne]
      exact h.waiting c' id r (hheld hm)
  · rw [ha.sessions]
    by_cases hne : c' = c
    · subst hne
      rw [hself] at hm
      cases hm
    · rw [hother hne] at hm ⊢
      exact h.refreshing c' id hm
  · by_cases hne : c' = c
    · subst hne
      rw [hself]
      exact ⟨rfl, hqueue⟩
    · rw [hother hne] at hcl ⊢
      obtain ⟨hempty, hnone⟩ := h.cleared c' hcl fun hm => ht ((hmem (hc c' hne).symm).mpr hm)
      exact ⟨hempty, fun q r hm => hnone q r (hheld hm)⟩
  · by_cases hne : c' = c
    · subst hne
      exact absurd hm (hqueue q r)
    · obtain hdq | hcl | ⟨r', hs⟩ | hi := h.dequeued c' q r (hheld hm)
      · exact .inl ((hmem (hd c').symm).mpr hdq)
      · exact .inr (.inl ((hmem (hc c' hne).symm).mpr hcl))
      · exact .inr (.inr (.inl ⟨r', (ha.held _).mpr ⟨hs, fun he => hne he.1⟩⟩))
      · exact .inr (.inr (.inr hi))

/-! ### Steps -/

/-- A request is taken from a holder that is neither a session queue nor a network operation. -/
theorem take (h : Inv p hand stale idle s) {holder : Holder} (hm : ⟨c, holder, r⟩ ∈ s.held)
    (hw : holder.isWaiting = false) (hs : holder ≠ .sending) :
    Inv p (r :: hand) stale idle (s.release c holder r) := by
  refine (h.release hm hw).mono (fun _ _ _ hst => .inr (.inr hst)) ?_
  rintro c' q r' - (hi | ⟨-, he⟩)
  · exact .inr (.inr hi)
  · exact absurd he hs

/-- A request is passed to `exec`. -/
theorem execute (h : Inv p hand stale idle s) (hr : r ∉ s.executed) :
    Inv p (r :: hand) stale idle { s with executed := s.executed ++ [r] } := by
  refine { h with nodup := ?_, conserved := fun r' => ?_ }
  · refine List.nodup_append.mpr ⟨h.nodup, List.nodup_singleton r, ?_⟩
    rintro a ha b hb rfl
    exact hr (List.mem_singleton.mp hb ▸ ha)
  · have := h.conserved r'
    simp only [List.count_append, List.count_cons, List.count_nil] at this ⊢
    omega

/-- The flags of a client change, and a task is posted. -/
theorem setFlags (h : Inv p hand stale idle s) (c : Nat) {closed : Bool} (disconnected : Bool)
    {t : Task} (hc : (s.clients c).closed = true → closed = true)
    (ht : closed = true → (s.clients c).closed = true ∨ t = .close c) :
    Inv p hand stale idle ((s.setClient c
      { s.clients c with closed := closed, networkDisconnected := disconnected }).post t) := by
  generalize hcl : ({ s.clients c with
    closed := closed, networkDisconnected := disconnected } : Client) = client
  have hother : ∀ {c'}, c' ≠ c → ((s.setClient c client).post t).clients c' = s.clients c' :=
    fun hne => Function.update_of_ne hne _ _
  have hself : ((s.setClient c client).post t).clients c = client := Function.update_self _ _ _
  have hmem : ∀ {u : Task}, u ∈ s.tasks → u ∈ ((s.setClient c client).post t).tasks :=
    fun hu => List.mem_append_left _ hu
  refine { h with
    counts := fun c' q => ?_
    waiting := fun c' id r hm => ?_
    refreshing := fun c' id hm => ?_
    cleared := fun c' hcl' ht' => ?_
    dequeued := fun c' q r hm => (h.dequeued c' q r hm).imp hmem (.imp_left hmem) }
  · by_cases hne : c' = c
    · subst hne
      rw [hself, ← hcl]
      exact h.counts c' q
    · rw [hother hne]
      exact h.counts c' q
  · by_cases hne : c' = c
    · subst hne
      rw [hself, ← hcl]
      exact h.waiting c' id r hm
    · rw [hother hne]
      exact h.waiting c' id r hm
  · by_cases hne : c' = c
    · subst hne
      rw [hself, ← hcl] at hm ⊢
      exact (h.refreshing c' id hm).imp_left hc
    · rw [hother hne] at hm ⊢
      exact h.refreshing c' id hm
  · by_cases hne : c' = c
    · subst hne
      rw [hself, ← hcl] at hcl' ⊢
      obtain hold | rfl := ht hcl'
      · exact h.cleared c' hold fun hm => ht' (hmem hm)
      · exact absurd (List.mem_append_right _ (List.mem_singleton.mpr rfl)) ht'
    · rw [hother hne] at hcl' ⊢
      exact h.cleared c' hcl' fun hm => ht' (hmem hm)

theorem dequeue (h : Inv p hand stale idle s) {q : Priority} {serialized : Bool} {t : State}
    (ht : s.dequeue c q serialized = some t) : Inv p hand stale idle t := by
  rw [State.dequeue] at ht
  split at ht
  · cases ht
  next r rs hby =>
    cases ht
    have hm : ⟨c, .queue q, r⟩ ∈ s.held := mem_heldBy.mp (hby ▸ List.mem_cons_self)
    have htake := h.take hm rfl nofun
    split
    next hr => exact htake.drop hr
    · exact htake.sendRequest serialized

/-- **A step that leaves no request behind.** -/
theorem step (h : Inv p [] (fun _ _ => False) (fun _ => False) s) {e : Event} {t : State}
    (hs : s.step p e = some t) (hr : Regular p s e) :
    Inv p [] (fun _ _ => False) (fun _ => False) t := by
  cases e with
  | exec c r =>
    dsimp only [State.step] at hs
    split at hs
    · cases hs
    next hnew =>
      cases hs
      have hexec := h.execute hnew
      split
      · exact hexec.callback
      · exact hexec.hold nofun rfl
  | push c r =>
    dsimp only [State.step] at hs
    split at hs
    next hm =>
      cases hs
      exact (h.take hm rfl nofun).accept hr
    · cases hs
  | dequeue c q serialized =>
    dsimp only [State.step] at hs
    split at hs
    · exact h.dequeue hs
    · cases hs
  | endDequeue c =>
    dsimp only [State.step] at hs
    split at hs
    · cases hs
      exact h.endDequeue hr
    · cases hs
  | response c r outcome =>
    dsimp only [State.step] at hs
    split at hs
    next hm =>
      cases hs
      refine ((h.release hm rfl).mono (fun _ _ _ hst => .inr (.inr hst)) ?_).response outcome
      rintro c' q r' - (hi | ⟨hc, -⟩)
      · exact hi.elim
      · exact .inr (.inr (.inr hc))
    · cases hs
  | refreshTask c id r =>
    dsimp only [State.step] at hs
    split at hs
    next hm =>
      cases hs
      exact (h.take hm rfl nofun).refreshSession hr.1 hr.2
    · cases hs
  | pushTask c id r =>
    dsimp only [State.step] at hs
    split at hs
    next hm =>
      cases hs
      exact (h.take hm rfl nofun).pushToSessionWaitingQueue hr
    · cases hs
  | refreshed id ok =>
    dsimp only [State.step] at hs
    split at hs
    · cases hs
      exact h.refreshed ok
    · cases hs
  | startRefresh id =>
    cases hs
    exact h.setSession _ _ (fun _ _ hst => hst) fun c _ hcb => .inl ⟨rfl, hcb⟩
  | setValid id enable =>
    cases hs
    exact h.setSession _ _ (fun _ _ hst => hst) fun c hrefreshing hcb => .inl ⟨hrefreshing, hcb⟩
  | updateNetworkState c disconnected =>
    cases hs
    exact h.setFlags c disconnected (fun hc => hc) .inl
  | networkTask c disconnected =>
    dsimp only [State.step] at hs
    split at hs
    · cases hs
      rw [State.networkTask]
      split
      · exact h.endTask nofun nofun
      · split
        · exact h.clearQueues nofun nofun
        · exact h.endTask nofun nofun
    · cases hs
  | close c =>
    cases hs
    exact h.setFlags c _ (fun _ => rfl) fun _ => .inr rfl
  | closeTask c =>
    dsimp only [State.step] at hs
    split at hs
    · cases hs
      exact h.clearQueues nofun fun c' hne he => hne (Task.close.inj he).symm
    · cases hs
  | cancel r =>
    cases hs
    refine { h with dropped := fun r' hd => ?_ }
    by_cases hne : r' = r
    · rw [hne]
      exact Function.update_self _ _ _
    · exact (Function.update_of_ne hne _ _).trans (h.dropped r' hd)

/-- **When nothing is pending, all requests are complete.** -/
theorem completes (h : Inv p [] (fun _ _ => False) (fun _ => False) s) : Completes p s := by
  intro hq
  have hnone : ∀ e, e ∉ s.held := by
    rintro ⟨c, holder, r⟩ hm
    obtain ⟨q, rfl⟩ | ⟨id, rfl⟩ :
        (∃ q, holder = .queue q) ∨ ∃ id, holder = .waiting id := hq.held _ hm
    · obtain hd | hd | ⟨r', hs⟩ | hi := h.dequeued c q r hm
      · rw [hq.tasks] at hd
        cases hd
      · rw [hq.tasks] at hd
        cases hd
      · obtain ⟨q', he⟩ | ⟨id', he⟩ := hq.held _ hs
        · cases he
        · cases he
      · exact hi
    · have hid := h.waiting c id r hm
      obtain hc | ⟨hr, -⟩ | hst := h.refreshing c id hid
      · have := (h.cleared c hc (by rw [hq.tasks]; exact List.not_mem_nil)).1
        rw [this] at hid
        cases hid
      · exact Bool.false_ne_true ((hq.sessions id).symm.trans hr)
      · exact hst
  have hheld : s.held = [] := List.eq_nil_iff_forall_not_mem.mpr hnone
  refine ⟨fun r hr hc => ?_, fun c q => ?_, fun c id => ?_, h.counts⟩
  · have hcons := h.conserved r
    have hdropped : s.dropped.count r = 0 := List.count_eq_zero_of_not_mem fun hd =>
      Bool.false_ne_true (hc.symm.trans (h.dropped r hd))
    rw [List.count_eq_one_of_mem h.nodup hr, hheld, hdropped] at hcons
    simpa using hcons.symm
  · rw [State.heldBy, hheld]
    rfl
  · rw [State.heldBy, hheld]
    rfl

theorem initial (p : Setup) (valid : Nat → Bool) :
    Inv p [] (fun _ _ => False) (fun _ => False) (State.initial valid) where
  nodup := List.nodup_nil
  conserved _ := rfl
  dropped := nofun
  counts _ _ := rfl
  waiting := nofun
  refreshing := nofun
  cleared := nofun
  dequeued := nofun

end Inv

/-- **Requests complete exactly once** in every run whose steps leave no request behind. -/
theorem completes_of_regular (p : Setup) (valid : Nat → Bool) (es : List Event)
    (h : RegularRun (State.step p) (Regular p) (State.initial valid) es) :
    GoodRun (State.step p) (Completes p) (State.initial valid) es :=
  h.good (fun _ => Inv.completes) (fun _ _ _ hi hs hr => hi.step hs hr) es (Inv.initial p valid)

/-- All requests have the same session. -/
def sampleSetup : Setup := ⟨fun _ => .normal, fun _ => some 0, 100⟩

/-- A request whose session is refreshed in between. -/
def refreshRun : List Event :=
  [.exec 0 0, .push 0 0, .dequeue 0 .normal true, .endDequeue 0, .response 0 0 .authError,
    .refreshTask 0 0 0, .endDequeue 0, .refreshed 0 true, .dequeue 0 .normal true, .endDequeue 0,
    .response 0 0 .answered, .endDequeue 0]

theorem regular_refreshRun : RegularRun (State.step sampleSetup) (Regular sampleSetup)
    (State.initial fun _ => true) refreshRun := by
  have hopen : ∀ {P : Prop}, (false = true) → P := fun h => (Bool.false_ne_true h).elim
  refine .cons rfl trivial <| .cons rfl (fun _ => hopen) <| .cons rfl trivial <|
    .cons rfl (.inr (.inl fun q => ?_)) <| .cons rfl trivial <|
    .cons rfl ⟨hopen, fun _ _ => hopen⟩ <| .cons rfl (.inr (.inl fun q => ?_)) <|
    .cons rfl trivial <| .cons rfl trivial <| .cons rfl (.inr (.inl fun q => ?_)) <|
    .cons rfl trivial <| .cons rfl (.inr (.inl fun q => ?_)) trivial
  all_goals
    cases q <;> rfl

theorem completes_refreshRun : GoodRun (State.step sampleSetup) (Completes sampleSetup)
    (State.initial fun _ => true) refreshRun :=
  completes_of_regular sampleSetup (fun _ => true) refreshRun regular_refreshRun

/-- Two clients whose requests meet the authentication errors of one session. -/
def sharedRun : List Event :=
  [.exec 0 0, .push 0 0, .dequeue 0 .normal true, .endDequeue 0, .exec 1 1, .push 1 1,
    .dequeue 1 .normal true, .endDequeue 1, .response 0 0 .authError, .refreshTask 0 0 0,
    .endDequeue 0, .response 1 1 .authError, .refreshTask 1 0 1, .endDequeue 1,
    .refreshed 0 true, .dequeue 0 .normal true, .endDequeue 0, .response 0 0 .answered,
    .endDequeue 0]

def sharedEnd : State :=
  (runTo (State.step sampleSetup) (State.initial fun _ => true) sharedRun).getD
    (State.initial fun _ => true)

theorem runTo_sharedRun : runTo (State.step sampleSetup) (State.initial fun _ => true)
    sharedRun = some sharedEnd := rfl

theorem quiescent_sharedEnd : Quiescent sharedEnd where
  tasks := rfl
  held := by
    intro e he
    have hheld : sharedEnd.held = [⟨1, .waiting 0, 1⟩] := rfl
    rw [hheld, List.mem_singleton] at he
    exact .inr ⟨0, congrArg Held.holder he⟩
  sessions := by
    intro id
    cases id with
    | zero => rfl
    | succ id => rfl

/-- The refresh was started for one client, and the request of the other one waits for ever. -/
theorem shared_session_strands : ¬ ∀ (p : Setup) (valid : Nat → Bool) (es : List Event),
    GoodRun (State.step p) (Completes p) (State.initial valid) es := by
  intro h
  have hend := (h sampleSetup (fun _ => true) sharedRun).runTo sharedRun runTo_sharedRun
  have hwaiting := (hend quiescent_sharedEnd).waiting 1 0
  exact absurd hwaiting (by decide)

end Hatn.Api.ClientQueues
