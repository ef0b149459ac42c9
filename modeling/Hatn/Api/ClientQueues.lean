import Hatn.Order.Runs
import Mathlib.Logic.Function.Basic

/-!
# The queues of clients

A request goes from the caller to a queue of the client by its priority, from there to the
transport, and when its session has to be refreshed, to a queue that waits for the session.  The
clients work in one thread, where tasks are posted to, and share sessions.  A step of the model is
a call from any thread, a posted task, or what the transport or a session calls back.

The lists of the source are parts of one list, that of the holders of requests: what is pushed to
a queue is appended with this queue as its holder, and what is popped is the first one that the
queue holds.
-/

namespace Hatn.Api.ClientQueues

inductive Priority
  | lowest
  | low
  | normal
  | high
  | highest
  deriving DecidableEq

/-- `handlePriorities` -/
def priorities : List Priority := [.lowest, .low, .normal, .high, .highest]

/-- Where a request of a client is. -/
inductive Holder
  /-- in `doExec` behind the check, with the caller -/
  | exec
  /-- in the queue of its priority -/
  | queue (p : Priority)
  /-- in a network operation -/
  | sending
  /-- in the task that `refreshSession` has posted -/
  | refreshTask (session : Nat)
  /-- in the task that `pushToSessionWaitingQueue` has posted -/
  | pushTask (session : Nat)
  /-- in the queue of requests that wait for a session -/
  | waiting (session : Nat)
  deriving DecidableEq

def Holder.isWaiting : Holder → Bool
  | .waiting _ => true
  | _ => false

/-- A request as one of a client with a holder. -/
structure Held where
  client : Nat
  holder : Holder
  request : Nat
  deriving DecidableEq

/-- The other tasks that are posted. -/
inductive Task
  | dequeue (client : Nat)
  | close (client : Nat)
  | network (client : Nat) (disconnected : Bool)
  deriving DecidableEq

structure Client where
  closed : Bool
  networkDisconnected : Bool
  /-- the keys of `m_sessionWaitingQueues` -/
  waitingQueues : List Nat
  sessionWaitingReqCount : Priority → Nat

structure Session where
  valid : Bool
  refreshing : Bool
  /-- the clients whose callbacks are in `m_callbacks` -/
  callbacks : List Nat

/-- What does not change: the requests, and the configuration. -/
structure Setup where
  priority : Nat → Priority
  session : Nat → Option Nat
  maxQueueDepth : Nat

structure State where
  clients : Nat → Client
  sessions : Nat → Session
  cancelled : Nat → Bool
  held : List Held
  tasks : List Task
  /-- the requests that were passed to `exec` -/
  executed : List Nat
  /-- the requests whose callbacks were invoked, in this order -/
  calledBack : List Nat
  /-- the requests that were let go without a callback -/
  dropped : List Nat

/-- How a network operation ends. -/
inductive Outcome
  /-- The request was not sent, or there is no response. -/
  | failed
  /-- There is a response, parsed or not, but for the next case. -/
  | answered
  /-- The response has the status of an authentication error. -/
  | authError
  deriving DecidableEq

/-- What may happen. -/
inductive Event
  /-- `exec` up to the check -/
  | exec (c r : Nat)
  /-- `exec` behind the check -/
  | push (c r : Nat)
  /-- The posted dequeue takes a request from a queue, be the client closed in between or not; the
  transport can send it, and it is serialized or not. -/
  | dequeue (c : Nat) (p : Priority) (serialized : Bool)
  /-- The posted dequeue ends: each queue is empty, or the transport refuses. -/
  | endDequeue (c : Nat)
  | response (c r : Nat) (outcome : Outcome)
  | refreshTask (c session r : Nat)
  | pushTask (c session r : Nat)
  /-- The refresh of a session completes. -/
  | refreshed (session : Nat) (ok : Bool)
  /-- A refresh is started by somebody else. -/
  | startRefresh (session : Nat)
  | setValid (session : Nat) (enable : Bool)
  | updateNetworkState (c : Nat) (disconnected : Bool)
  | networkTask (c : Nat) (disconnected : Bool)
  /-- `close` with `callbackRequests` -/
  | close (c : Nat)
  | closeTask (c : Nat)
  | cancel (r : Nat)

namespace State

def setClient (s : State) (c : Nat) (client : Client) : State :=
  { s with clients := Function.update s.clients c client }

def setSession (s : State) (id : Nat) (session : Session) : State :=
  { s with sessions := Function.update s.sessions id session }

def post (s : State) (task : Task) : State := { s with tasks := s.tasks ++ [task] }

def endTask (s : State) (task : Task) : State := { s with tasks := s.tasks.erase task }

/-- A request is pushed. -/
def hold (s : State) (c : Nat) (h : Holder) (r : Nat) : State :=
  { s with held := s.held ++ [⟨c, h, r⟩] }

/-- A request is taken away from its holder. -/
def release (s : State) (c : Nat) (h : Holder) (r : Nat) : State :=
  { s with held := s.held.erase ⟨c, h, r⟩ }

/-- The requests with a holder, the oldest in front. -/
def heldBy (s : State) (c : Nat) (h : Holder) : List Nat :=
  (s.held.filter fun e => e.client = c ∧ e.holder = h).map (·.request)

def callback (s : State) (r : Nat) : State := { s with calledBack := s.calledBack ++ [r] }

def drop (s : State) (r : Nat) : State := { s with dropped := s.dropped ++ [r] }

/-- `if (!req->cancelled()) req->callback(...)` -/
def callbackUnlessCancelled (s : State) (r : Nat) : State :=
  if s.cancelled r then s.drop r else s.callback r

/-- `abortRequest` for each request of a queue until it is empty. -/
def abort (s : State) (c : Nat) (h : Holder) : State :=
  { s with
    held := s.held.filter fun e => ¬ (e.client = c ∧ e.holder = h)
    calledBack := s.calledBack ++ (s.heldBy c h).filter fun r => !s.cancelled r
    dropped := s.dropped ++ (s.heldBy c h).filter s.cancelled }

def abortAll (s : State) (c : Nat) (hs : List Holder) : State :=
  hs.foldl (fun s h => s.abort c h) s

/-- The queues are cleared and the counters are reset, with callbacks. -/
def clearQueues (s : State) (c : Nat) : State :=
  let s := s.abortAll c (priorities.map .queue)
  let s := s.setClient c { s.clients c with sessionWaitingReqCount := fun _ => 0 }
  let s := s.abortAll c ((s.clients c).waitingQueues.map .waiting)
  s.setClient c { s.clients c with waitingQueues := [] }

variable (p : Setup)

/-- The check of `doExec`: the client is closed, the network is disconnected, or the queue is
filled. -/
def refuses (s : State) (c r : Nat) : Bool :=
  (s.clients c).closed || (s.clients c).networkDisconnected ||
    decide (p.priority r ≠ .highest ∧ p.maxQueueDepth +
      (s.clients c).sessionWaitingReqCount (p.priority r) <
        (s.heldBy c (.queue (p.priority r))).length)

/-- The request has no session, or a valid one. -/
def sessionReady (s : State) (r : Nat) : Bool :=
  match p.session r with
  | none => true
  | some id => (s.sessions id).valid

/-- `doExec` behind the check. -/
def accept (s : State) (c r : Nat) : State :=
  match p.session r with
  | none => (s.hold c (.queue (p.priority r)) r).post (.dequeue c)
  | some id =>
    if (s.sessions id).valid then (s.hold c (.queue (p.priority r)) r).post (.dequeue c)
    else s.hold c (.pushTask id) r

/-- `doExec` in the thread of the clients. -/
def doExec (s : State) (c r : Nat) : State :=
  if s.refuses p c r then s.callback r else s.accept p c r

/-- `sendRequest` -/
def sendRequest (s : State) (c r : Nat) (serialized : Bool) : State :=
  if (s.clients c).closed || !serialized then (s.post (.dequeue c)).callback r
  else s.hold c .sending r

/-- A request comes to the queue of its session, and is counted. -/
def wait (s : State) (c id r : Nat) : State :=
  let client := s.clients c
  let count := Function.update client.sessionWaitingReqCount (p.priority r)
    (client.sessionWaitingReqCount (p.priority r) + 1)
  let queues :=
    if id ∈ client.waitingQueues then client.waitingQueues else client.waitingQueues ++ [id]
  (s.setClient c { client with sessionWaitingReqCount := count, waitingQueues := queues }).hold c
    (.waiting id) r

/-- The callback of `sendRequest`. -/
def response (s : State) (c r : Nat) : Outcome → State
  | .failed =>
    let t := s.callbackUnlessCancelled r
    if (s.clients c).closed then t else t.post (.dequeue c)
  | .answered => (s.callbackUnlessCancelled r).post (.dequeue c)
  | .authError =>
    match p.session r with
    | none => (s.callbackUnlessCancelled r).post (.dequeue c)
    | some id =>
      if s.cancelled r || (s.clients c).closed then
        (s.callbackUnlessCancelled r).post (.dequeue c)
      else
        let s := s.setSession id { s.sessions id with valid := false }
        (s.hold c (.refreshTask id) r).post (.dequeue c)

/-- The task of `refreshSession`. -/
def refreshSession (s : State) (c id r : Nat) : State :=
  if (s.clients c).closed then s.drop r
  else if (s.sessions id).valid then s.doExec p c r
  else
    let s := s.wait p c id r
    if (s.sessions id).refreshing then s
    else
      -- `refresh`: the callback of the client is added
      s.setSession id
        { s.sessions id with refreshing := true, callbacks := (s.sessions id).callbacks ++ [c] }

/-- The task of `pushToSessionWaitingQueue`. -/
def pushToSessionWaitingQueue (s : State) (c id r : Nat) : State :=
  if (s.clients c).closed then s.drop r
  else if id ∈ (s.clients c).waitingQueues then s.wait p c id r
  else s.hold c (.refreshTask id) r

/-- A request leaves the queue of its session. -/
def leave (s : State) (c id r : Nat) : State :=
  let client := s.clients c
  let count := Function.update client.sessionWaitingReqCount (p.priority r)
    (client.sessionWaitingReqCount (p.priority r) - 1)
  (s.setClient c { client with sessionWaitingReqCount := count }).release c (.waiting id) r

/-- The loop of the callback of a refresh, over the requests in the queue. -/
def drain (s : State) (c id : Nat) (ok : Bool) : List Nat → State
  | [] => s
  | r :: rs =>
    let s := s.leave p c id r
    (if ok then s.doExec p c r else s.callback r).drain c id ok rs

/-- The callback of a refresh. -/
def refreshCb (s : State) (c id : Nat) (ok : Bool) : State :=
  if (s.clients c).closed then s
  else if id ∈ (s.clients c).waitingQueues then
    let s := s.drain p c id ok (s.heldBy c (.waiting id))
    s.setClient c
      { s.clients c with waitingQueues := (s.clients c).waitingQueues.filter (· ≠ id) }
  else s

/-- A session calls back when its refresh completes. -/
def refreshed (s : State) (id : Nat) (ok : Bool) : State :=
  let callbacks := (s.sessions id).callbacks
  let s := s.setSession id ⟨ok, false, []⟩
  callbacks.foldl (fun s c => s.refreshCb p c id ok) s

/-- The task of `updateNetworkState`. -/
def networkTask (s : State) (c : Nat) (disconnected : Bool) : State :=
  if (s.clients c).closed then s
  else if disconnected then s.clearQueues c
  else s

/-- The first request of a queue is taken. -/
def dequeue (s : State) (c : Nat) (q : Priority) (serialized : Bool) : Option State :=
  match s.heldBy c (.queue q) with
  | [] => none
  | r :: _ =>
    let s := s.release c (.queue q) r
    some (if s.cancelled r then s.drop r else s.sendRequest c r serialized)

def step (s : State) : Event → Option State
  | .exec c r =>
    if r ∈ s.executed then none
    else
      let s := { s with executed := s.executed ++ [r] }
      some (if s.refuses p c r then s.callback r else s.hold c .exec r)
  | .push c r =>
    if ⟨c, .exec, r⟩ ∈ s.held then some ((s.release c .exec r).accept p c r) else none
  | .dequeue c q serialized =>
    if .dequeue c ∈ s.tasks then s.dequeue c q serialized else none
  | .endDequeue c => if .dequeue c ∈ s.tasks then some (s.endTask (.dequeue c)) else none
  | .response c r outcome =>
    if ⟨c, .sending, r⟩ ∈ s.held then some ((s.release c .sending r).response p c r outcome)
    else none
  | .refreshTask c id r =>
    if ⟨c, .refreshTask id, r⟩ ∈ s.held then
      some ((s.release c (.refreshTask id) r).refreshSession p c id r)
    else none
  | .pushTask c id r =>
    if ⟨c, .pushTask id, r⟩ ∈ s.held then
      some ((s.release c (.pushTask id) r).pushToSessionWaitingQueue p c id r)
    else none
  | .refreshed id ok => if (s.sessions id).refreshing then some (s.refreshed p id ok) else none
  | .startRefresh id => some (s.setSession id { s.sessions id with refreshing := true })
  | .setValid id enable => some (s.setSession id { s.sessions id with valid := enable })
  | .updateNetworkState c disconnected =>
    some ((s.setClient c { s.clients c with networkDisconnected := disconnected }).post
      (.network c disconnected))
  | .networkTask c disconnected =>
    if .network c disconnected ∈ s.tasks then
      some ((s.endTask (.network c disconnected)).networkTask c disconnected)
    else none
  | .close c => some ((s.setClient c { s.clients c with closed := true }).post (.close c))
  | .closeTask c =>
    if .close c ∈ s.tasks then some ((s.endTask (.close c)).clearQueues c) else none
  | .cancel r => some { s with cancelled := Function.update s.cancelled r true }

/-- Open clients, and sessions that are valid or not. -/
def initial (valid : Nat → Bool) : State :=
  ⟨fun _ => ⟨false, false, [], fun _ => 0⟩, fun id => ⟨valid id, false, []⟩, fun _ => false, [],
    [], [], [], []⟩

end State

/-! ### The end of a run -/

/-- All posted tasks were executed, and all network operations and refreshes have ended. -/
structure Quiescent (s : State) : Prop where
  tasks : s.tasks = []
  held : ∀ e ∈ s.held, (∃ q, e.holder = .queue q) ∨ ∃ id, e.holder = .waiting id
  sessions : ∀ id, (s.sessions id).refreshing = false

/-- The number of requests of a client and a priority that wait for a session. -/
def State.waitingCount (s : State) (p : Setup) (c : Nat) (q : Priority) : Nat :=
  s.held.countP fun e => e.client = c ∧ e.holder.isWaiting ∧ p.priority e.request = q

/-- **Every request completes exactly once.** -/
structure Complete (p : Setup) (s : State) : Prop where
  once : ∀ r ∈ s.executed, s.cancelled r = false → s.calledBack.count r = 1
  queues : ∀ c q, s.heldBy c (.queue q) = []
  waiting : ∀ c id, s.heldBy c (.waiting id) = []
  counts : ∀ c q, (s.clients c).sessionWaitingReqCount q = s.waitingCount p c q

/-- What is claimed of every state: when nothing is pending, all requests are complete. -/
def Completes (p : Setup) (s : State) : Prop := Quiescent s → Complete p s

end Hatn.Api.ClientQueues
