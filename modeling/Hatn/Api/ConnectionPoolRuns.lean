import Hatn.Api.ConnectionPool
import Hatn.Order.Runs
import Mathlib.Data.List.Perm.Basic
import Mathlib.Data.List.Range

/-!
# Runs of the connection pool

In a run, each callback is either invoked or in the hands of one pending operation.  A call that
runs has one in its own hands: `Sound s held` is the invariant within a call, and `Inv s` the one
between the steps.
-/

namespace Hatn.Api.ConnectionPool

open Hatn.Order

def AfterConnect.callbacks : AfterConnect → List Nat
  | .call k => [k]
  | .send k _ => [k]
  | .retry _ _ => []

def AfterClose.callbacks : AfterClose → List Nat
  | .connect after => after.callbacks
  | .close k => [k]

/-- The callbacks in the hands of an operation. -/
def Pending.callbacks : Pending → List Nat
  | .making after => after.callbacks
  | .closing after => after.callbacks
  | .posted after => after.callbacks
  | .sendingHeader _ _ cb _ => cb.toList
  | .sendingMessage _ cb => cb.toList
  | .receivingHeader k => [k]
  | .receivingMessage k => [k]

/-- The context of the connection is used when the operation ends. -/
def Pending.usesCtx : Pending → Bool
  | .sendingHeader _ _ _ _ => true
  | .sendingMessage _ _ => true
  | .receivingHeader _ => true
  | .receivingMessage _ => true
  | _ => false

namespace Pool

/-- What is asked of every state of a run: the connection is not stuck, each callback was invoked
once or will be by one operation, each send reconnects at most once and no send is refused it, no
connection is opened behind the end of `close`, and nothing empty is called. -/
structure Good (s : Pool) : Prop where
  live : s.pending = [] → s.canSend = true
  once : (s.called ++ s.pending.flatMap Pending.callbacks).Perm (List.range s.calls)
  reconnects : s.reconnects.Nodup
  granted : s.refused = []
  unopened : s.openedAfterClose = false
  unbroken : s.broken = false

end Pool

/-- The buffers of a send are not above the maximum. -/
def AfterConnect.Fits (p : Setup) : AfterConnect → Prop
  | .send _ size => size ≤ p.maxMessageSize
  | _ => True

/-- No message above the maximum goes to the connection, no header fails to be sent, no header of
size zero is received, no connection is made when `close` has ended, and where the context of the
connection is used it is there. -/
def Event.Regular (p : Setup) (s : Pool) : Event → Prop
  | .send size => s.closed = false → s.state = .ready → size ≤ p.maxMessageSize
  | .succeeded (.making after) => s.closeDone = false ∧ after.Fits p
  | .succeeded op => op.usesCtx = true → s.hasCtx = true
  | .failed (.sendingHeader _ _ _ _) => False
  | .failed op => op.usesCtx = true → s.hasCtx = true
  | .headerReceived _ messageSize => s.hasCtx = true ∧ messageSize ≠ 0
  | _ => True

def AfterConnect.Sound : AfterConnect → Prop
  | .retry _ _ => False
  | _ => True

def AfterClose.Sound : AfterClose → Prop
  | .connect after => after.Sound
  | .close _ => True

/-- The operation has the callback it goes on with. -/
def Pending.Sound : Pending → Prop
  | .making after => after.Sound
  | .closing after => after.Sound
  | .posted after => after.Sound
  | .sendingHeader k _ cb _ => cb = some k
  | .sendingMessage k cb => cb = some k
  | .receivingHeader _ => True
  | .receivingMessage _ => True

/-- The end of the operation changes the state of the connection. -/
def Pending.Moves : Pending → Prop
  | .posted _ => False
  | _ => True

namespace Pool

variable {p : Setup} {s : Pool} {held : List Nat}

/-- The state is sound, with the callbacks `held` in the hands of the call that runs. -/
structure Sound (s : Pool) (held : List Nat) : Prop where
  once : (s.called ++ held ++ s.pending.flatMap Pending.callbacks).Perm (List.range s.calls)
  ready : s.state = .ready → s.hasCtx = true
  pending : ∀ op ∈ s.pending, op.Sound
  reconnects : s.reconnects = []
  granted : s.refused = []
  unopened : s.openedAfterClose = false
  unbroken : s.broken = false

/-- A busy connection waits for an operation. -/
def Driven (s : Pool) : Prop := s.state = .busy → ∃ op ∈ s.pending, op.Moves

structure Inv (s : Pool) : Prop where
  sound : s.Sound []
  driven : s.Driven

theorem Inv.good (h : s.Inv) : s.Good where
  live hp := by
    refine decide_eq_true fun hb => ?_
    obtain ⟨op, hop, -⟩ := h.driven hb
    rw [hp] at hop
    exact absurd hop List.not_mem_nil
  once := by simpa only [List.append_nil] using h.sound.once
  reconnects := by rw [h.sound.reconnects]; exact List.nodup_nil
  granted := h.sound.granted
  unopened := h.sound.unopened
  unbroken := h.sound.unbroken

section Parts

theorem Sound.invoke {k : Nat} (h : s.Sound (k :: held)) : (s.invoke (some k)).Sound held where
  once := by
    simpa only [Pool.invoke, List.append_assoc, List.cons_append, List.nil_append] using h.once
  ready := h.ready
  pending := h.pending
  reconnects := h.reconnects
  granted := h.granted
  unopened := h.unopened
  unbroken := h.unbroken

theorem Sound.start {op : Pending} (h : s.Sound op.callbacks) (hop : op.Sound) :
    (s.start op).Sound [] where
  once := by
    have hmove : (s.pending.flatMap Pending.callbacks ++ op.callbacks).Perm
        (op.callbacks ++ s.pending.flatMap Pending.callbacks) := List.perm_append_comm
    refine .trans ?_ h.once
    simp only [Pool.start, List.flatMap_append, List.flatMap_cons, List.flatMap_nil,
      List.append_nil, List.append_assoc]
    exact hmove.append_left _
  ready := h.ready
  pending q hq := by
    rcases List.mem_append.mp hq with hq | hq
    · exact h.pending q hq
    · exact List.mem_singleton.mp hq ▸ hop
  reconnects := h.reconnects
  granted := h.granted
  unopened := h.unopened
  unbroken := h.unbroken

theorem Sound.finish {op : Pending} (h : s.Sound []) (hop : op ∈ s.pending) :
    (s.finish op).Sound op.callbacks where
  once := by
    refine .trans ?_ h.once
    rw [List.append_nil, List.append_assoc]
    refine .append_left _ (.symm ?_)
    exact (List.perm_cons_erase hop).flatMap_right Pending.callbacks
  ready := h.ready
  pending q hq := h.pending q (List.mem_of_mem_erase hq)
  reconnects := h.reconnects
  granted := h.granted
  unopened := h.unopened
  unbroken := h.unbroken

theorem Sound.newCall (h : s.Sound []) : s.newCall.Sound [s.calls] where
  once := by
    rw [Pool.newCall, List.range_succ, List.append_assoc]
    refine .trans (.append_left _ List.perm_append_comm) ?_
    rw [← List.append_assoc]
    exact .append_right _ (by simpa only [List.append_nil] using h.once)
  ready := h.ready
  pending := h.pending
  reconnects := h.reconnects
  granted := h.granted
  unopened := h.unopened
  unbroken := h.unbroken

/-- Another state of the connection, with a context where it is ready. -/
theorem Sound.setState (c : ConnState) (h : s.Sound held) (hc : c = .ready → s.hasCtx = true) :
    { s with state := c }.Sound held :=
  ⟨h.once, hc, h.pending, h.reconnects, h.granted, h.unopened, h.unbroken⟩

theorem useCtx_of_hasCtx (hctx : s.hasCtx = true) : s.useCtx = s := by
  rw [useCtx, if_pos hctx]

theorem Driven.invoke {k : Nat} (h : s.Driven) : (s.invoke (some k)).Driven := h

theorem Driven.of_ne (h : s.state ≠ .busy) : s.Driven := fun hb => absurd hb h

theorem Driven.start {op : Pending} (hop : op.Moves) : (s.start op).Driven :=
  fun _ => ⟨op, List.mem_append_right _ (List.mem_singleton_self op), hop⟩

/-- The end of an operation that does not move the connection leaves it driven. -/
theorem Driven.finish {op : Pending} (h : s.Driven) (hop : ¬ op.Moves) : (s.finish op).Driven := by
  intro hb
  obtain ⟨q, hq, hm⟩ := h hb
  refine ⟨q, (List.mem_erase_of_ne fun he => hop (by rwa [he] at hm)).mpr hq, hm⟩

end Parts

section Functions

theorem sendToConnection_inv {k size : Nat} {retried : Bool} (h : s.Sound [k])
    (hctx : s.hasCtx = true) (hsize : size ≤ p.maxMessageSize) :
    (s.sendToConnection p k (some k) size retried).Inv := by
  have hq : s.sendToConnection p k (some k) size retried =
      { s with state := .busy }.start (.sendingHeader k size (some k) retried) := by
    rw [sendToConnection, if_neg (Nat.not_lt.mpr hsize)]
    exact congrArg (Pool.start · _) (useCtx_of_hasCtx (s := { s with state := .busy }) hctx)
  rw [hq]
  exact ⟨(h.setState .busy nofun).start rfl, Driven.start trivial⟩

theorem afterConnect_failed {after : AfterConnect} (h : s.Sound after.callbacks)
    (ha : after.Sound) (hd : s.Driven) : (s.afterConnect p false after).Inv := by
  cases after with
  | call k => exact ⟨h.invoke, hd.invoke⟩
  | send k size => exact ⟨h.invoke, hd.invoke⟩
  | retry k size => exact absurd ha id

theorem afterConnect_made {after : AfterConnect} (h : s.Sound after.callbacks)
    (ha : after.Sound) (hfits : after.Fits p) (hst : s.state = .ready) :
    (s.afterConnect p true after).Inv := by
  cases after with
  | call k => exact ⟨h.invoke, Driven.invoke (.of_ne (by rw [hst]; exact nofun))⟩
  | send k size => exact sendToConnection_inv h (h.ready hst) hfits
  | retry k size => exact absurd ha id

theorem connect_inv {after : AfterConnect} (h : s.Sound after.callbacks) (ha : after.Sound)
    (hd : s.Driven) : (s.connect p after).Inv := by
  rw [connect]
  split
  · exact afterConnect_failed h ha hd
  · exact ⟨(h.setState .busy nofun).start ha, Driven.start trivial⟩

theorem afterClose_inv {after : AfterClose} (h : s.Sound after.callbacks) (ha : after.Sound)
    (hd : s.Driven) : (s.afterClose p after).Inv := by
  cases after with
  | connect after => exact connect_inv h ha hd
  | close k =>
    have hclosed : { s with closeDone := true }.Sound [k] :=
      ⟨h.once, h.ready, h.pending, h.reconnects, h.granted, h.unopened, h.unbroken⟩
    exact ⟨hclosed.invoke, Driven.invoke (s := { s with closeDone := true }) hd⟩

theorem closeDefaultConnection_inv (after : AfterClose) (h : s.Sound after.callbacks)
    (ha : after.Sound) (hd : s.Driven) : (s.closeDefaultConnection p after).Inv := by
  rw [closeDefaultConnection]
  split
  · next hctx =>
    rw [closeConnection, useCtx_of_hasCtx hctx]
    exact ⟨(h.setState .busy nofun).start ha, Driven.start trivial⟩
  · exact afterClose_inv h ha hd

theorem callSend_inv {k size : Nat} (h : s.Sound [k]) (hd : s.Driven)
    (hsize : s.closed = false → s.state = .ready → size ≤ p.maxMessageSize) :
    (s.callSend p k size).Inv := by
  rw [callSend]
  split
  · exact ⟨h.invoke, hd.invoke⟩
  · next hc =>
    have hc : s.closed = false := Bool.eq_false_iff.mpr hc
    cases hst : s.state with
    | busy => exact ⟨h.invoke, hd.invoke⟩
    | disconnected => exact connect_inv h trivial hd
    | error => exact closeDefaultConnection_inv (.connect (.send k size)) h trivial hd
    | ready => exact sendToConnection_inv h (h.ready hst) (hsize hc hst)

theorem callRecv_inv {k : Nat} (h : s.Sound [k]) (hd : s.Driven) : (s.callRecv k).Inv := by
  rw [callRecv]
  split
  · exact ⟨h.invoke, hd.invoke⟩
  · split
    · exact ⟨h.invoke, hd.invoke⟩
    · next hst =>
      have hctx : s.hasCtx = true := h.ready (Decidable.of_not_not hst)
      have hq : { s with state := .busy }.useCtx = { s with state := .busy } :=
        useCtx_of_hasCtx hctx
      rw [hq]
      exact ⟨(h.setState .busy nofun).start trivial, Driven.start trivial⟩

theorem callClose_inv {k : Nat} (h : s.Sound [k]) (hd : s.Driven) : (s.callClose p k).Inv := by
  have hclosed : { s with closed := true }.Sound [k] :=
    ⟨h.once, h.ready, h.pending, h.reconnects, h.granted, h.unopened, h.unbroken⟩
  exact closeDefaultConnection_inv (.close k) hclosed trivial hd

/-- The connection is made: the state is ready, with a context. -/
theorem made_sound (h : s.Sound held) (hdone : s.closeDone = false) :
    { s with
      hasCtx := true
      state := .ready
      openedAfterClose := s.openedAfterClose || s.closeDone }.Sound held where
  once := h.once
  ready _ := rfl
  pending := h.pending
  reconnects := h.reconnects
  granted := h.granted
  unopened := by simp only [h.unopened, hdone, Bool.or_self]
  unbroken := h.unbroken

theorem closed_inv {after : AfterClose} (h : s.Sound after.callbacks) (ha : after.Sound) :
    ({ s with hasCtx := false, state := .disconnected, sendTriesCount := 0 }.start
      (.posted after)).Inv := by
  have hs : { s with hasCtx := false, state := .disconnected, sendTriesCount := 0 }.Sound
      after.callbacks :=
    ⟨h.once, nofun, h.pending, h.reconnects, h.granted, h.unopened, h.unbroken⟩
  exact ⟨hs.start ha, .of_ne nofun⟩

/-- An operation that used the connection ends in a state that is not busy. -/
theorem ended_inv {k : Nat} {st : ConnState} (h : s.Sound [k]) (hctx : s.hasCtx = true)
    (hst : st ≠ .busy) : ({ s.useCtx with state := st }.invoke (some k)).Inv := by
  rw [useCtx_of_hasCtx hctx]
  exact ⟨(h.setState st fun _ => hctx).invoke, .of_ne hst⟩

/-- An operation that used the connection starts the next one. -/
theorem next_inv (op : Pending) (h : s.Sound op.callbacks) (hctx : s.hasCtx = true)
    (hop : op.Sound) (hm : op.Moves) : (s.useCtx.start op).Inv := by
  rw [useCtx_of_hasCtx hctx]
  exact ⟨h.start hop, Driven.start hm⟩

end Functions

section Steps

theorem succeed_inv {op : Pending} (h : s.Inv) (hop : op ∈ s.pending)
    (hreg : (Event.succeeded op).Regular p s) (hne : ∀ k, op ≠ .receivingHeader k) :
    ((s.finish op).succeed p op).Inv := by
  have hs := h.sound.finish hop
  have ho := h.sound.pending op hop
  cases op with
  | making after =>
    exact afterConnect_made (made_sound hs hreg.1) ho hreg.2 rfl
  | closing after => exact closed_inv hs ho
  | posted after => exact afterClose_inv hs ho (h.driven.finish id)
  | sendingHeader k size cb retried =>
    cases ho
    exact next_inv (.sendingMessage k (some k)) hs (hreg rfl) rfl trivial
  | sendingMessage k cb =>
    cases ho
    exact ended_inv hs (hreg rfl) nofun
  | receivingHeader k => exact absurd rfl (hne k)
  | receivingMessage k => exact ended_inv hs (hreg rfl) nofun

theorem fail_inv {op : Pending} (h : s.Inv) (hop : op ∈ s.pending)
    (hreg : (Event.failed op).Regular p s) : ((s.finish op).fail p op).Inv := by
  have hs := h.sound.finish hop
  have ho := h.sound.pending op hop
  cases op with
  | making after =>
    exact afterConnect_failed (hs.setState .disconnected nofun) ho (.of_ne nofun)
  | closing after => exact closed_inv hs ho
  | posted after => exact afterClose_inv hs ho (h.driven.finish id)
  | sendingHeader k size cb retried => exact absurd hreg id
  | sendingMessage k cb =>
    cases ho
    exact ended_inv hs (hreg rfl) nofun
  | receivingHeader k => exact ended_inv hs (hreg rfl) nofun
  | receivingMessage k => exact ended_inv hs (hreg rfl) nofun

theorem received_inv {k messageSize : Nat} (h : s.Inv) (hop : .receivingHeader k ∈ s.pending)
    (hctx : s.hasCtx = true) (hsize : messageSize ≠ 0) :
    ((s.finish (.receivingHeader k)).received p k messageSize).Inv := by
  have hs := h.sound.finish hop
  rw [received, if_neg hsize]
  split
  · exact ended_inv hs hctx nofun
  · exact next_inv (.receivingMessage k) hs hctx trivial trivial

theorem step_inv {t : Pool} {e : Event} (h : s.Inv) (hs : s.step p e = some t)
    (hreg : e.Regular p s) : t.Inv := by
  have hcall : s.newCall.Sound [s.calls] := h.sound.newCall
  cases e with
  | connect =>
    cases hs
    exact connect_inv hcall trivial h.driven
  | send size =>
    cases hs
    exact callSend_inv hcall h.driven hreg
  | recv =>
    cases hs
    exact callRecv_inv hcall h.driven
  | close =>
    cases hs
    exact callClose_inv hcall h.driven
  | succeeded op =>
    cases op with
    | receivingHeader k => cases hs
    | _ =>
      obtain ⟨hop, hs⟩ := Option.ite_none_right_eq_some.mp hs
      cases hs
      exact succeed_inv h hop hreg nofun
  | failed op =>
    obtain ⟨hop, hs⟩ := Option.ite_none_right_eq_some.mp hs
    cases hs
    exact fail_inv h hop hreg
  | headerReceived op messageSize =>
    cases op with
    | receivingHeader k =>
      obtain ⟨hop, hs⟩ := Option.ite_none_right_eq_some.mp hs
      cases hs
      exact received_inv h hop hreg.1 hreg.2
    | _ => cases hs

theorem initial_inv : initial.Inv where
  sound := ⟨.nil, nofun, nofun, rfl, rfl, rfl, rfl⟩
  driven := nofun

/-- **In a run of regular steps the connection never gets stuck.** -/
theorem good_of_regular (p : Setup) (es : List Event)
    (hreg : RegularRun (step p) (fun s e => e.Regular p s) initial es) :
    GoodRun (step p) Good initial es :=
  RegularRun.good (I := Inv) (fun _ h => h.good) (fun _ _ _ h hs hr => step_inv h hs hr) es
    initial_inv hreg

end Steps

def sampleSetup : Setup := ⟨8, true⟩

theorem good_exchange :
    GoodRun (step sampleSetup) Good initial
      [.connect, .succeeded (.making (.call 0)), .send 4,
        .succeeded (.sendingHeader 1 4 (some 1) false), .succeeded (.sendingMessage 1 (some 1)),
        .recv, .headerReceived (.receivingHeader 2) 3, .succeeded (.receivingMessage 2), .close,
        .succeeded (.closing (.close 3)), .succeeded (.posted (.close 3))] := by
  refine good_of_regular sampleSetup _ ?_
  refine .cons rfl trivial (.cons rfl ⟨rfl, trivial⟩ (.cons rfl (fun _ _ => by decide) ?_))
  refine .cons rfl (fun _ => rfl) (.cons rfl (fun _ => rfl) (.cons rfl trivial ?_))
  refine .cons rfl ⟨rfl, by decide⟩ (.cons rfl (fun _ => rfl) (.cons rfl trivial ?_))
  exact .cons rfl nofun (.cons rfl nofun trivial)

/-- A send above the maximum, a header of size zero in a response, a header that was not sent and
a close while the connection is made; and a send that is refused the reconnect because of an
earlier one. -/
theorem connection_sticks :
    ¬ GoodRun (step sampleSetup) Good initial
      [.connect, .succeeded (.making (.call 0)), .send 9] ∧
    ¬ GoodRun (step sampleSetup) Good initial
      [.connect, .succeeded (.making (.call 0)), .recv,
        .headerReceived (.receivingHeader 1) 0] ∧
    ¬ GoodRun (step sampleSetup) Good initial
      [.connect, .succeeded (.making (.call 0)), .send 4,
        .failed (.sendingHeader 1 4 (some 1) false)] ∧
    ¬ GoodRun (step sampleSetup) Good initial
      [.connect, .close, .succeeded (.making (.call 0))] ∧
    ∃ t, runTo (step sampleSetup) initial
        [.send 4, .succeeded (.making (.send 0 4)), .failed (.sendingHeader 0 4 (some 0) false),
          .succeeded (.closing (.connect (.retry 0 4))),
          .succeeded (.posted (.connect (.retry 0 4))), .succeeded (.making (.retry 0 4)),
          .succeeded (.sendingHeader 0 4 none true), .succeeded (.sendingMessage 0 none), .send 4,
          .failed (.sendingHeader 1 4 (some 1) false)] = some t ∧ t.refused = [1] := by
  refine ⟨fun h => ?_, fun h => ?_, fun h => ?_, fun h => ?_, _, rfl, rfl⟩
  · exact absurd ((h.runTo _ rfl).live rfl) (by decide)
  · exact absurd ((h.runTo _ rfl).live rfl) (by decide)
  · exact absurd (h.runTo _ rfl).once (by decide)
  · exact absurd (h.runTo _ rfl).unopened (by decide)

end Pool

end Hatn.Api.ConnectionPool
