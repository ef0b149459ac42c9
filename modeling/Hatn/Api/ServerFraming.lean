import Hatn.Api.Server
import Hatn.Order.Runs
import Mathlib.Algebra.Order.BigOperators.Group.List
import Mathlib.Tactic.Common

/-!
# The frames that the server reads

A client sends frames of a header with a size and a body of that size.  The server reads them
one after the other, and what it parses are the bodies that are neither empty nor too big.

The body of a frame that is too big is not read: when the answer to it is sent, the server
takes the bytes of the body for the next header.  `framed_iff` says that all runs without that
step, and no others, are at the start of a frame whenever a header is waited for.
-/

namespace Hatn.Api.Server

open Hatn.Order

/-- The complete frames of a stream, each with its size and its body. -/
def frames (stream : Bytes) : List (Nat × Bytes) :=
  if headerLength + bufToSize stream ≤ stream.length then
    (bufToSize stream, (stream.drop headerLength).take (bufToSize stream)) ::
      frames (stream.drop (headerLength + bufToSize stream))
  else []
termination_by stream.length
decreasing_by
  simp only [List.length_drop, headerLength] at *
  omega

/-- The bodies of frames that are requests. -/
def requestsOf (maxMessageSize : Nat) (fs : List (Nat × Bytes)) : List Bytes :=
  (fs.filter fun f => 0 < f.1 ∧ f.1 ≤ maxMessageSize).map (·.2)

/-- Where the frame `k` starts. -/
def frameStart (stream : Bytes) (k : Nat) : Nat :=
  (((frames stream).take k).map fun f => headerLength + f.1).sum

/-- What was parsed are the requests among the first frames, what was dispatched is of them, and
a header is read at the start of a frame. -/
structure Framed (p : Setup) (stream : Bytes) (s : State) : Prop where
  exact : ∃ k ≤ (frames stream).length,
    s.parsed = requestsOf p.maxMessageSize ((frames stream).take k) ∧
      ∀ req, s.phase = .recvHeader req → s.position = frameStart stream k
  dispatched : s.dispatched.Sublist s.parsed

/-! ### Frames -/

section Frames

variable {stream : Bytes} {k : Nat}

theorem frames_of_le (h : headerLength + bufToSize stream ≤ stream.length) :
    frames stream = (bufToSize stream, (stream.drop headerLength).take (bufToSize stream)) ::
      frames (stream.drop (headerLength + bufToSize stream)) := by
  rw [frames, if_pos h]

theorem frameStart_succ (h : headerLength + bufToSize stream ≤ stream.length) (k : Nat) :
    frameStart stream (k + 1) = headerLength + bufToSize stream +
      frameStart (stream.drop (headerLength + bufToSize stream)) k := by
  rw [frameStart, frames_of_le h, List.take_succ_cons, List.map_cons, List.sum_cons, frameStart]

/-- Behind its first frames a stream has the others. -/
theorem frames_drop (k : Nat) : ∀ {stream : Bytes}, k ≤ (frames stream).length →
    frames (stream.drop (frameStart stream k)) = (frames stream).drop k := by
  induction k with
  | zero => intro stream _; rfl
  | succ k ih =>
    intro stream hk
    by_cases h : headerLength + bufToSize stream ≤ stream.length
    · rw [frames_of_le h, List.length_cons] at hk
      rw [frameStart_succ h, ← List.drop_drop, ih (Nat.le_of_succ_le_succ hk), frames_of_le h,
        List.drop_succ_cons]
    · rw [frames, if_neg h] at hk
      exact absurd hk (Nat.not_succ_le_zero k)

/-- The next frame goes on from the start of it. -/
theorem frames_getElem (hk : k ≤ (frames stream).length)
    (h : headerLength + bufToSize (stream.drop (frameStart stream k)) ≤
      (stream.drop (frameStart stream k)).length) :
    k + 1 ≤ (frames stream).length ∧
    (frames stream).take (k + 1) = (frames stream).take k ++
      [(bufToSize (stream.drop (frameStart stream k)),
        ((stream.drop (frameStart stream k)).drop headerLength).take
          (bufToSize (stream.drop (frameStart stream k))))] := by
  have hd := frames_drop k hk
  rw [frames_of_le h] at hd
  have hlt : k < (frames stream).length := by
    by_contra hge
    rw [List.drop_eq_nil_of_le (Nat.le_of_not_lt hge)] at hd
    cases hd
  have hget := List.drop_eq_getElem_cons hlt
  rw [← hd, List.cons.injEq] at hget
  refine ⟨hlt, ?_⟩
  rw [List.take_add_one, List.getElem?_eq_getElem hlt, ← hget.1]
  rfl

theorem frameStart_concat (hk : k ≤ (frames stream).length)
    (h : headerLength + bufToSize (stream.drop (frameStart stream k)) ≤
      (stream.drop (frameStart stream k)).length) :
    frameStart stream (k + 1) =
      frameStart stream k + (headerLength + bufToSize (stream.drop (frameStart stream k))) := by
  rw [frameStart, (frames_getElem hk h).2, List.map_append, List.sum_append]
  simp [frameStart]

theorem requestsOf_concat (maxMessageSize : Nat) (fs : List (Nat × Bytes)) (f : Nat × Bytes) :
    requestsOf maxMessageSize (fs ++ [f]) = requestsOf maxMessageSize fs ++
      if 0 < f.1 ∧ f.1 ≤ maxMessageSize then [f.2] else [] := by
  rw [requestsOf, List.filter_append, List.map_append, requestsOf]
  by_cases h : 0 < f.1 ∧ f.1 ≤ maxMessageSize <;> simp [h]

theorem frameStart_mono {j : Nat} (h : j ≤ k) : frameStart stream j ≤ frameStart stream k := by
  have hs := (List.take_sublist_take_left (l := frames stream) h).map fun f => headerLength + f.1
  exact hs.sum_le_sum fun _ _ => Nat.zero_le _

/-- **No frame starts inside the body of another one.** -/
theorem frameStart_ne_in_body {j : Nat} (hk : k ≤ (frames stream).length)
    (hj : j ≤ (frames stream).length)
    (hsize : 0 < bufToSize (stream.drop (frameStart stream k))) :
    frameStart stream j ≠ frameStart stream k + headerLength := by
  intro he
  by_cases hjk : j ≤ k
  · have hmono : frameStart stream j ≤ frameStart stream k := frameStart_mono hjk
    simp only [headerLength] at he
    omega
  · have hkl : k < (frames stream).length := by omega
    have hle : headerLength + bufToSize (stream.drop (frameStart stream k)) ≤
        (stream.drop (frameStart stream k)).length := by
      by_contra hno
      have hd := frames_drop k hk
      rw [frames, if_neg hno] at hd
      have hnil := List.drop_eq_nil_iff.mp hd.symm
      omega
    have hnext := frameStart_concat hk hle
    have hkj : k + 1 ≤ j := by omega
    have hmono : frameStart stream (k + 1) ≤ frameStart stream j := frameStart_mono hkj
    omega

end Frames

/-! ### Where the server is in the stream -/

/-- What holds of the logs behind the first `k` frames. -/
structure Behind (p : Setup) (stream : Bytes) (k : Nat) (s : State) : Prop where
  le : k ≤ (frames stream).length
  parsed : s.parsed = requestsOf p.maxMessageSize ((frames stream).take k)
  unread : s.unread = stream.drop s.position
  dispatched : s.dispatched.Sublist s.parsed

/-- A request whose frame was read, or one that is too big, of which only the header was. -/
def Answering (p : Setup) (stream : Bytes) (k : Nat) (s : State) (req : Request) : Prop :=
  (req.messageSize ≤ p.maxMessageSize ∧ s.position = frameStart stream k) ∨
  (p.maxMessageSize < req.messageSize ∧ s.position = frameStart stream k + headerLength ∧
    req.messageSize = bufToSize (stream.drop (frameStart stream k)))

/-- The position in each phase. -/
def InPhase (p : Setup) (stream : Bytes) (k : Nat) (s : State) : Phase → Prop
  | .done => True
  | .recvHeader _ => s.position = frameStart stream k
  | .recvBody req => s.position = frameStart stream k + headerLength ∧
      req.messageSize = bufToSize (stream.drop (frameStart stream k)) ∧
      0 < req.messageSize ∧ req.messageSize ≤ p.maxMessageSize
  | .authenticating req => req.messageSize ≤ p.maxMessageSize ∧
      s.position = frameStart stream k ∧ (s.dispatched ++ [req.rawData]).Sublist s.parsed
  | .dispatching req => req.messageSize ≤ p.maxMessageSize ∧ s.position = frameStart stream k
  | .sendHeader req | .sendBody req => Answering p stream k s req

/-- The server is at the frame `k`. -/
def AtFrame (p : Setup) (stream : Bytes) (k : Nat) (s : State) : Prop :=
  Behind p stream k s ∧ InPhase p stream k s s.phase

section Steps

variable {p : Setup} {stream : Bytes} {k : Nat} {s s' : State} {req : Request}

theorem AtFrame.framed (h : AtFrame p stream k s) : Framed p stream s where
  exact := by
    refine ⟨k, h.1.le, h.1.parsed, fun req hreq => ?_⟩
    have hp := h.2
    rw [hreq] at hp
    exact hp
  dispatched := h.1.dispatched

theorem handleNewConnection_atFrame (p : Setup) (stream : Bytes) :
    AtFrame p stream 0 (State.handleNewConnection stream) :=
  ⟨⟨Nat.zero_le _, rfl, rfl, List.Sublist.refl _⟩, rfl⟩

theorem Behind.closeRequest (h : Behind p stream k s) (req : Request) :
    AtFrame p stream k (s.closeRequest req) :=
  ⟨⟨h.le, h.parsed, h.unread, h.dispatched⟩, trivial⟩

theorem AtFrame.resetConnection (h : AtFrame p stream k s) :
    AtFrame p stream k s.resetConnection := by
  obtain ⟨⟨h1, h2, h3, h4⟩, hp⟩ := h
  refine ⟨⟨h1, h2, h3, h4⟩, ?_⟩
  rw [State.resetConnection]
  cases hph : s.phase <;> rw [hph] at hp <;> exact hp

theorem Behind.waitForRequest (h : Behind p stream k s) (hpos : s.position = frameStart stream k) :
    AtFrame p stream k s.waitForRequest := by
  obtain ⟨h1, h2, h3, h4⟩ := h
  rw [State.waitForRequest]
  by_cases hc : s.closed = true
  · rw [if_pos hc]
    exact ⟨⟨h1, h2, h3, h4⟩, trivial⟩
  · rw [if_neg hc]
    exact ⟨⟨h1, h2, h3, h4⟩, hpos⟩

theorem Behind.sendResponse (h : Behind p stream k s) (hreq : Answering p stream k s req)
    (ctx : Bool) : AtFrame p stream k (s.sendResponse p req ctx) := by
  obtain ⟨h1, h2, h3, h4⟩ := h
  rw [State.sendResponse]
  by_cases hc : s.closed = true
  · rw [if_pos hc]
    exact ⟨⟨h1, h2, h3, h4⟩, trivial⟩
  · rw [if_neg hc]
    cases ctx with
    | false => exact ⟨⟨h1, h2, h3, h4⟩, trivial⟩
    | true =>
      refine ⟨⟨h1, h2, h3, h4⟩, ?_⟩
      simp only [if_true]
      by_cases hs : (p.serialize (req.unit.setResponseStatus p.serializer req.responseError)).2 = true
      · rw [if_pos hs]
        exact hreq
      · rw [if_neg hs]
        exact hreq

theorem Behind.dispatchRequest (h : Behind p stream k s) (hsize : req.messageSize ≤ p.maxMessageSize)
    (hpos : s.position = frameStart stream k)
    (hd : (s.dispatched ++ [req.rawData]).Sublist s.parsed) (ctx : Bool) :
    AtFrame p stream k (s.dispatchRequest req ctx) := by
  obtain ⟨h1, h2, h3, h4⟩ := h
  rw [State.dispatchRequest]
  by_cases hc : s.closed = true
  · rw [if_pos hc]
    exact ⟨⟨h1, h2, h3, h4⟩, trivial⟩
  · rw [if_neg hc]
    cases ctx with
    | false => exact ⟨⟨h1, h2, h3, h4⟩, trivial⟩
    | true => exact ⟨⟨h1, h2, h3, hd⟩, hsize, hpos⟩

theorem Behind.authRequest (h : Behind p stream k s) (hsize : req.messageSize ≤ p.maxMessageSize)
    (hpos : s.position = frameStart stream k)
    (hd : (s.dispatched ++ [req.rawData]).Sublist s.parsed) :
    AtFrame p stream k (s.authRequest req) := by
  obtain ⟨h1, h2, h3, h4⟩ := h
  rw [State.authRequest]
  by_cases hc : s.closed = true
  · rw [if_pos hc]
    exact ⟨⟨h1, h2, h3, h4⟩, trivial⟩
  · rw [if_neg hc]
    exact ⟨⟨h1, h2, h3, h4⟩, hsize, hpos, hd⟩

/-- A header is read at the start of a frame. -/
theorem headerReceived_atFrame (h : Behind p stream k s)
    (hpos : s.position = frameStart stream k) (hlen : headerLength ≤ s.unread.length) :
    ∃ k', AtFrame p stream k' ((s.take headerLength).headerReceived p req (bufToSize s.unread)) := by
  have hstream := h.unread
  rw [hpos] at hstream
  have hsize : bufToSize s.unread = bufToSize (stream.drop (frameStart stream k)) := by rw [hstream]
  have hbehind : Behind p stream k (s.take headerLength) := by
    refine ⟨h.le, h.parsed, ?_, h.dispatched⟩
    simp only [State.take, h.unread, List.drop_drop]
  have hpos' : (s.take headerLength).position = frameStart stream k + headerLength := by
    simp only [State.take, hpos]
  rw [State.headerReceived]
  by_cases h0 : bufToSize s.unread = 0
  · rw [if_pos h0]
    rw [hsize] at h0
    have hle : headerLength + bufToSize (stream.drop (frameStart stream k)) ≤
        (stream.drop (frameStart stream k)).length := by
      rw [h0, ← hstream]
      exact hlen
    obtain ⟨hk, htake⟩ := frames_getElem h.le hle
    refine ⟨k + 1, (Behind.closeRequest (k := k + 1) ?_ _).1.waitForRequest ?_⟩
    · refine ⟨hk, ?_, hbehind.unread, hbehind.dispatched⟩
      rw [htake, requestsOf_concat, h0, if_neg (fun hlt => Nat.lt_irrefl 0 hlt.1),
        List.append_nil]
      exact h.parsed
    · rw [frameStart_concat h.le hle, h0]
      exact hpos'
  · rw [if_neg h0]
    by_cases hmax : bufToSize s.unread > p.maxMessageSize
    · rw [if_pos hmax]
      exact ⟨k, hbehind.sendResponse (.inr ⟨hmax, hpos', hsize⟩) true⟩
    · rw [if_neg hmax]
      refine ⟨k, ⟨hbehind.le, hbehind.parsed, hbehind.unread, hbehind.dispatched⟩, hpos', hsize, ?_⟩
      exact ⟨Nat.pos_of_ne_zero h0, Nat.le_of_not_lt hmax⟩

/-- The body of the frame is read. -/
theorem bodyReceived_atFrame (h : Behind p stream k s) (hph : InPhase p stream k s (.recvBody req))
    (hlen : req.messageSize ≤ s.unread.length) :
    AtFrame p stream (k + 1)
      ((s.take req.messageSize).bodyReceived p req (s.unread.take req.messageSize)) := by
  obtain ⟨hpos, hsize, h0, hmax⟩ := hph
  have hstream : s.unread = (stream.drop (frameStart stream k)).drop headerLength := by
    rw [h.unread, hpos, List.drop_drop]
  have hle : headerLength + bufToSize (stream.drop (frameStart stream k)) ≤
      (stream.drop (frameStart stream k)).length := by
    rw [hsize, hstream, List.length_drop] at hlen
    have := hsize ▸ h0
    omega
  obtain ⟨hk, htake⟩ := frames_getElem h.le hle
  rw [← hstream, ← hsize] at htake
  have hbehind : Behind p stream (k + 1) { s.take req.messageSize with
      parsed := (s.take req.messageSize).parsed ++ [s.unread.take req.messageSize] } := by
    refine ⟨hk, ?_, ?_, ?_⟩
    · rw [htake, requestsOf_concat, if_pos ⟨h0, hmax⟩, ← h.parsed]
      rfl
    · simp only [State.take, h.unread, List.drop_drop]
    · exact h.dispatched.trans (List.sublist_append_left _ _)
  have hpos' : (s.take req.messageSize).position = frameStart stream (k + 1) := by
    rw [frameStart_concat h.le hle, ← hsize]
    simp only [State.take, hpos]
    omega
  have hd : (s.dispatched ++ [s.unread.take req.messageSize]).Sublist
      (s.parsed ++ [s.unread.take req.messageSize]) :=
    h.dispatched.append (List.Sublist.refl _)
  cases hf : (p.parse (s.unread.take req.messageSize)).failure with
  | some apiError =>
    simp only [State.bodyReceived, hf]
    refine hbehind.sendResponse ?_ true
    exact .inl ⟨hmax, hpos'⟩
  | none =>
    simp only [State.bodyReceived, hf]
    split
    · refine hbehind.authRequest ?_ hpos' ?_
      · exact hmax
      · exact hd
    · refine hbehind.dispatchRequest ?_ hpos' ?_ true
      · exact hmax
      · exact hd

theorem authCallback_atFrame (h : Behind p stream k s)
    (hph : InPhase p stream k s (.authenticating req)) (close : Bool)
    (error : Option ResponseError) (left : Nat) :
    AtFrame p stream k (s.authCallback p req close error left) := by
  obtain ⟨hsize, hpos, hd⟩ := hph
  rw [State.authCallback]
  by_cases hc : s.closed = true
  · rw [if_pos hc]
    exact h.closeRequest _
  · rw [if_neg hc]
    by_cases hclose : (close && s.hasContext) = true
    · rw [if_pos hclose]
      obtain ⟨⟨h1, h2, h3, h4⟩, -⟩ := h.closeRequest req
      exact ⟨⟨h1, h2, h3, h4⟩, trivial⟩
    · rw [if_neg hclose]
      cases hctx : s.hasContext with
      | true =>
        have hb : Behind p stream k { s with watchers := left } :=
          ⟨h.le, h.parsed, h.unread, h.dispatched⟩
        simp only [if_true]
        split
        · refine hb.sendResponse ?_ true
          exact .inl ⟨hsize, hpos⟩
        · refine hb.dispatchRequest ?_ hpos ?_ true
          · exact hsize
          · exact hd
      | false =>
        simp only [Bool.false_eq_true, if_false]
        split
        · refine h.sendResponse ?_ false
          exact .inl ⟨hsize, hpos⟩
        · refine h.dispatchRequest ?_ hpos ?_ false
          · exact hsize
          · exact hd

theorem dispatchCallback_atFrame (h : Behind p stream k s)
    (hph : InPhase p stream k s (.dispatching req)) (close : Bool) (messageType : Option String)
    (message : Option Bytes) (error : Option ResponseError) (left : Nat) :
    AtFrame p stream k (s.dispatchCallback p req close messageType message error left) := by
  have hb : Behind p stream k { s with watchers := left } :=
    ⟨h.le, h.parsed, h.unread, h.dispatched⟩
  rw [State.dispatchCallback]
  by_cases hc : s.closed = true
  · rw [if_pos hc]
    exact h.closeRequest _
  · rw [if_neg hc]
    by_cases hctx : (!s.hasContext) = true
    · rw [if_pos hctx]
      exact h.closeRequest _
    · rw [if_neg hctx]
      cases close with
      | true => exact ⟨⟨h.le, h.parsed, h.unread, h.dispatched⟩, trivial⟩
      | false =>
        refine hb.sendResponse ?_ true
        exact .inl hph

/-! ### Steps and runs -/

/-- The answer to a frame that is too big is not sent, unless the server is closed. -/
def Event.Framing (p : Setup) (s : State) : Event → Prop
  | .sent _ => ∀ req, s.phase = .sendBody req →
      req.messageSize ≤ p.maxMessageSize ∨ s.closed = true
  | _ => True

theorem AtFrame.inPhase {phase : Phase} (h : AtFrame p stream k s) (hph : s.phase = phase) :
    InPhase p stream k s phase := hph ▸ h.2

theorem Behind.write (h : Behind p stream k s) (req : Request) (data : Bytes) (n : Nat) :
    Behind p stream k (s.write req data n) :=
  ⟨h.le, h.parsed, h.unread, h.dispatched⟩

/-- **The step lemma**: the server stays at a frame. -/
theorem step_atFrame (h : AtFrame p stream k s) {e : Event} (hr : e.Framing p s)
    (hs : s.step p e = some s') : ∃ k', AtFrame p stream k' s' := by
  cases e with
  | received =>
    rw [State.step] at hs
    split at hs
    next req hph =>
      split at hs
      next hg =>
        cases hs
        exact headerReceived_atFrame h.1 (h.inPhase hph) hg.2
      next => cases hs
    next req hph =>
      split at hs
      next hg =>
        cases hs
        exact ⟨k + 1, bodyReceived_atFrame h.1 (h.inPhase hph) hg.2⟩
      next => cases hs
    next => cases hs
  | recvFailed =>
    rw [State.step] at hs
    split at hs
    next req hph =>
      cases hs
      exact ⟨k, (h.1.closeRequest req).resetConnection⟩
    next req hph =>
      cases hs
      exact ⟨k, (h.1.closeRequest req).resetConnection⟩
    next => cases hs
  | authenticated close error left =>
    rw [State.step] at hs
    split at hs
    next req hph =>
      split at hs
      next =>
        cases hs
        exact ⟨k, authCallback_atFrame h.1 (h.inPhase hph) close error left⟩
      next => cases hs
    next => cases hs
  | dispatched close messageType message error left =>
    rw [State.step] at hs
    split at hs
    next req hph =>
      split at hs
      next =>
        cases hs
        exact ⟨k, dispatchCallback_atFrame h.1 (h.inPhase hph) close messageType message error left⟩
      next => cases hs
    next => cases hs
  | sent n =>
    rw [State.step] at hs
    split at hs
    next req hph =>
      split at hs
      next =>
        cases hs
        have hw := h.1.write req (sizeToBuf req.response.length) n
        refine ⟨k, ?_⟩
        by_cases hc : (s.write req (sizeToBuf req.response.length) n).closed = true
        · rw [if_pos hc]
          exact hw.closeRequest req
        · rw [if_neg hc]
          exact ⟨⟨hw.le, hw.parsed, hw.unread, hw.dispatched⟩, h.inPhase hph⟩
      next => cases hs
    next req hph =>
      split at hs
      next =>
        cases hs
        have hw := (h.1.write req req.response n).closeRequest req
        rcases hr req hph with hle | hc
        · rcases h.inPhase hph with ⟨-, hpos⟩ | ⟨hlt, -⟩
          · exact ⟨k, hw.1.waitForRequest hpos⟩
          · exact absurd hle (Nat.not_le_of_lt hlt)
        · have hwait : ((s.write req req.response n).closeRequest req).waitForRequest = _ :=
            if_pos hc
          rw [hwait]
          exact ⟨k, ⟨hw.1.le, hw.1.parsed, hw.1.unread, hw.1.dispatched⟩, trivial⟩
      next => cases hs
    next => cases hs
  | sendFailed n =>
    rw [State.step] at hs
    split at hs
    next req hph =>
      cases hs
      have hw := (h.1.write req (sizeToBuf req.response.length) n).closeRequest req
      refine ⟨k, ?_⟩
      by_cases hc : (s.write req (sizeToBuf req.response.length) n).closed = true
      · rw [if_pos hc]
        exact hw
      · rw [if_neg hc]
        exact hw.resetConnection
    next req hph =>
      cases hs
      exact ⟨k, ((h.1.write req req.response n).closeRequest req).resetConnection⟩
    next => cases hs
  | watchFired =>
    rw [State.step] at hs
    split at hs
    next =>
      cases hs
      refine ⟨k, ⟨h.1.le, h.1.parsed, h.1.unread, h.1.dispatched⟩, ?_⟩
      have hp := h.2
      rw [State.closeConnection]
      cases hph : s.phase <;> rw [hph] at hp <;> exact hp
    next => cases hs
  | closeServer =>
    rw [State.step] at hs
    cases hs
    refine ⟨k, ⟨h.1.le, h.1.parsed, h.1.unread, h.1.dispatched⟩, ?_⟩
    have hp := h.2
    rw [State.closeConnection]
    cases hph : s.phase <;> rw [hph] at hp <;> exact hp

/-- The step that is left out waits for a header inside the body of a frame. -/
theorem not_framed_of_step (h : AtFrame p stream k s) {e : Event} (hr : ¬ e.Framing p s)
    (hs : s.step p e = some s') : ¬ Framed p stream s' := by
  cases e with
  | sent n =>
    rw [Event.Framing, Classical.not_forall] at hr
    obtain ⟨req, hr⟩ := hr
    rw [Classical.not_imp, not_or] at hr
    obtain ⟨hph, hmax, hc⟩ := hr
    obtain ⟨-, hpos, hsize⟩ := (h.inPhase hph).resolve_left fun hle => hmax hle.1
    have h0 : 0 < bufToSize (stream.drop (frameStart stream k)) := by omega
    rw [State.step, hph] at hs
    simp only at hs
    split at hs
    next =>
      cases hs
      rintro ⟨⟨j, hj, -, hstart⟩, -⟩
      have hwait : ((s.write req req.response n).closeRequest req).waitForRequest = _ := if_neg hc
      rw [hwait] at hstart
      have hj' : s.position = frameStart stream j := hstart _ rfl
      rw [hpos] at hj'
      exact frameStart_ne_in_body h.1.le hj h0 hj'.symm
    next => cases hs
  | _ => exact absurd trivial hr

theorem framed_iff_of_atFrame (h : ∃ k, AtFrame p stream k s) (es : List Event) :
    GoodRun (State.step p) (Framed p stream) s es ↔
      RegularRun (State.step p) (Event.Framing p) s es :=
  goodRun_iff (I := fun s => ∃ k, AtFrame p stream k s) (fun _ ⟨_, h⟩ => h.framed)
    (fun _ _ _ ⟨_, h⟩ hs hr => step_atFrame h hr hs)
    (fun _ _ _ ⟨_, h⟩ hs hr => not_framed_of_step h hr hs) es h

end Steps

/-- **The server reads the stream frame by frame in every state of a run if and only if it sends
no answer to a frame that is too big while it goes on.** -/
theorem framed_iff (p : Setup) (stream : Bytes) (es : List Event) :
    GoodRun (State.step p) (Framed p stream) (State.handleNewConnection stream) es ↔
      RegularRun (State.step p) (Event.Framing p) (State.handleNewConnection stream) es :=
  framed_iff_of_atFrame ⟨0, handleNewConnection_atFrame p stream⟩ es

/-- A server that takes messages of at most eight bytes. -/
def sampleSetup : Setup where
  maxMessageSize := 8
  hasAuthDispatcher := false
  parse _ := ⟨"1", none⟩
  serializer := ⟨fun _ => [], fun _ => none, fun _ => [], fun _ => none⟩
  serialize _ := ([0x10, 0x08], true)

/-- One frame of nine bytes, with a header and a request of one byte in its body. -/
def sampleStream : Bytes :=
  [0x09, 0x00, 0x00, 0x00, 0x01, 0x00, 0x00, 0x00, 0xaa, 0x00, 0x00, 0x00, 0x00]

def sampleEvents : List Event := [.received, .sent 4, .sent 2, .received, .received]

/-- The frame holds no request, but a part of its body is parsed as one. -/
theorem body_parsed_as_request :
    requestsOf sampleSetup.maxMessageSize (frames sampleStream) = [] ∧
    ¬ GoodRun (State.step sampleSetup) (Framed sampleSetup sampleStream)
      (State.handleNewConnection sampleStream) sampleEvents := by
  constructor
  · have hsize : bufToSize sampleStream = 9 := by decide
    have hrest : sampleStream.drop (headerLength + 9) = [] := by decide
    rw [frames_of_le (by rw [hsize]; decide), hsize, hrest]
    have hnil : frames [] = [] := by
      rw [frames]
      exact if_neg (by decide)
    rw [hnil]
    decide
  · intro hgood
    have h := (framed_iff_of_atFrame ⟨0, handleNewConnection_atFrame sampleSetup sampleStream⟩
      sampleEvents).mp hgood
    have hheader := h _ rfl
    have hanswer := hheader.2 _ rfl
    have hsent := (hanswer.2 _ rfl).1
    rcases hsent _ rfl with hsize | hclosed
    · exact absurd hsize (by decide)
    · exact absurd hclosed (by decide)

end Hatn.Api.Server
