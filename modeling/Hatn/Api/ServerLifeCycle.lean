import Hatn.Api.Server
import Hatn.Order.Runs
import Mathlib.Data.List.Nodup
import Mathlib.Data.List.Range
import Mathlib.Tactic.Common

/-!
# The life of the requests of a connection

Every request that the server creates is closed once, in their order, at most one response
frame is written for it, and the next one is read when the frame is written.

What can go wrong is
* that the response is not serialized: what there is of it is sent all the same,
* that a write writes less than it was given: nobody looks at the number,
* that the connection is gone when the authentication calls back: unlike the callback of the
  dispatcher, that one goes on without a context.

`lives_iff` says that all runs without these, and no others, are as they should be.
-/

namespace Hatn.Api.Server

open Hatn.Common Hatn.Order

/-- The request in progress. -/
def Phase.request : Phase → Option Request
  | .done => none
  | .recvHeader req | .recvBody req | .authenticating req | .dispatching req | .sendHeader req
  | .sendBody req => some req

/-- The bytes that were written for a request. -/
def State.writtenFor (s : State) (number : Nat) : Bytes :=
  (s.written.filter (·.1 = number)).flatMap (·.2)

/-- The frame that answers a request. -/
def frameOf (req : Request) : Bytes := sizeToBuf req.response.length ++ req.response

/-- The response is complete, the header has its size, and it has the status of the request and
its id, if the body of the request was read. -/
structure Answered (p : Setup) (req : Request) : Prop where
  serialized : p.serialize req.unit = (req.response, true)
  size : bufToSize (sizeToBuf req.response.length) = req.response.length
  status : req.unit.status = some (answeredStatus req.responseError)
  id : req.messageSize ≤ p.maxMessageSize → req.unit.id = some (p.parse req.rawData).id

/-- What is to hold in every state. -/
structure Lives (p : Setup) (s : State) : Prop where
  /-- Every request is closed once, unless it is the one in progress. -/
  closedOnce : s.closedRequests.map (·.number) ++ s.phase.request.toList.map (·.number) =
    List.range s.requests
  /-- No request is answered twice. -/
  oneAnswer : (s.answered.map (·.number)).Nodup
  /-- Nothing but the frame of its answer is written for a request. -/
  oneFrame (k : Nat) : s.writtenFor k = [] ∨
    ∃ a ∈ s.answered, a.number = k ∧ s.writtenFor k <+: frameOf a
  complete : ∀ a ∈ s.answered, Answered p a
  /-- The body follows the whole header. -/
  header (req : Request) : s.phase = .sendBody req →
    s.writtenFor req.number = sizeToBuf req.response.length
  /-- A request that is followed by another one was answered, if it was not empty. -/
  inOrder : ∀ r ∈ s.closedRequests, r.number + 1 < s.requests →
    r.messageSize = 0 ∨ ∃ a ∈ s.answered, a.number = r.number ∧ s.writtenFor r.number = frameOf a
  /-- Nothing is started on a connection that is gone. -/
  onConnection : s.broken = false

/-- The response is serialized without an error, to bytes whose number fits in the header. -/
def Serializes (p : Setup) (req : Request) : Prop :=
  (p.serialize (req.unit.setResponseStatus p.serializer req.responseError)).2 = true ∧
    (p.serialize (req.unit.setResponseStatus p.serializer req.responseError)).1.length < 2 ^ 32

/-- The condition on the next event. -/
def Event.Living (p : Setup) (s : State) : Event → Prop
  | .received => s.closed = false →
    (∀ req, s.phase = .recvHeader req → p.maxMessageSize < bufToSize s.unread →
      Serializes p (req.setResponseError ⟨.requestTooBig, none⟩)) ∧
    ∀ req apiError, s.phase = .recvBody req →
      (p.parse (s.unread.take req.messageSize)).failure = some apiError →
      Serializes p ({ req with unit := { req.unit with
        id := some (p.parse (s.unread.take req.messageSize)).id } }.setResponseError
          ⟨.formatError, apiError⟩)
  | .authenticated close error _ => s.closed = false → ∀ req, s.phase = .authenticating req →
    s.hasContext = true ∧
      (close = false → error.isSome = true → Serializes p { req with responseError := error })
  | .dispatched close messageType message error _ => s.closed = false → s.hasContext = true →
    close = false → ∀ req, s.phase = .dispatching req →
      Serializes p { req with
        unit := { req.unit with messageType := messageType, message := message }
        responseError := error }
  | .sent n => s.closed = false →
    (∀ req, s.phase = .sendHeader req → n = headerLength) ∧
      ∀ req, s.phase = .sendBody req → n = req.response.length
  | _ => True

/-! ### The logs -/

/-- What holds of the logs with the request in progress. -/
structure Logged (p : Setup) (s : State) (current : Option Request) : Prop where
  numbers : s.closedRequests.map (·.number) ++ current.toList.map (·.number) =
    List.range s.requests
  oneAnswer : (s.answered.map (·.number)).Nodup
  answeredLt : ∀ a ∈ s.answered, a.number < s.requests
  writtenLt (k : Nat) : s.requests ≤ k → s.writtenFor k = []
  oneFrame (k : Nat) : s.writtenFor k = [] ∨
    ∃ a ∈ s.answered, a.number = k ∧ s.writtenFor k <+: frameOf a
  complete : ∀ a ∈ s.answered, Answered p a
  inOrder : ∀ r ∈ s.closedRequests, r.number + 1 < s.requests →
    r.messageSize = 0 ∨ ∃ a ∈ s.answered, a.number = r.number ∧ s.writtenFor r.number = frameOf a
  onConnection : s.broken = false

/-- Nothing is written for the request yet. -/
def Fresh (s : State) (req : Request) : Prop :=
  s.writtenFor req.number = [] ∧ ∀ a ∈ s.answered, a.number ≠ req.number

/-- What holds of the request in each phase. -/
def InProgress (p : Setup) (s : State) : Phase → Prop
  | .done => True
  | .recvHeader req => Fresh s req
  | .recvBody req => Fresh s req ∧ req.messageSize ≠ 0
  | .authenticating req | .dispatching req =>
    Fresh s req ∧ req.messageSize ≠ 0 ∧ req.unit.id = some (p.parse req.rawData).id
  | .sendHeader req =>
    req ∈ s.answered ∧ s.writtenFor req.number = [] ∧ req.messageSize ≠ 0
  | .sendBody req => req ∈ s.answered ∧
    s.writtenFor req.number = sizeToBuf req.response.length ∧ req.messageSize ≠ 0

def Alive (p : Setup) (s : State) : Prop := Logged p s s.phase.request ∧ InProgress p s s.phase

section Steps

variable {p : Setup} {s t : State} {req : Request}

/-- The logs alone matter. -/
theorem Logged.congr {current : Option Request} (h : Logged p s current)
    (hc : t.closedRequests = s.closedRequests) (hr : t.requests = s.requests)
    (ha : t.answered = s.answered) (hw : t.written = s.written) (hb : t.broken = s.broken) :
    Logged p t current := by
  have hwf : t.writtenFor = s.writtenFor := by
    funext k
    rw [State.writtenFor, State.writtenFor, hw]
  obtain ⟨h1, h2, h3, h4, h5, h6, h7, h8⟩ := h
  constructor
  · rw [hc, hr]; exact h1
  · rw [ha]; exact h2
  · rw [ha, hr]; exact h3
  · rw [hr, hwf]; exact h4
  · rw [ha, hwf]; exact h5
  · rw [ha]; exact h6
  · rw [hc, hr, ha, hwf]; exact h7
  · rw [hb]; exact h8

theorem Logged.number_eq (h : Logged p s (some req)) : req.number + 1 = s.requests := by
  have hn := h.numbers
  rw [Option.toList_some, List.map_singleton] at hn
  have hlen := congrArg List.length hn
  have hlast := congrArg List.getLast? hn
  rw [List.getLast?_concat] at hlast
  rw [List.length_append, List.length_singleton, List.length_range] at hlen
  rw [← hlen, List.range_succ, List.getLast?_concat, Option.some.injEq] at hlast
  rw [hlast, hlen]

theorem Logged.closeRequest (h : Logged p s (some req)) : Logged p (s.closeRequest req) none := by
  obtain ⟨h1, h2, h3, h4, h5, h6, h7, h8⟩ := h
  refine ⟨?_, h2, h3, h4, h5, h6, fun r hr hlt => ?_, h8⟩
  · rw [State.closeRequest, List.map_append, Option.toList_none, List.map_nil, List.append_nil]
    exact h1
  · rcases List.mem_append.mp hr with hr | hr
    · exact h7 r hr hlt
    · rw [List.mem_singleton.mp hr] at hlt
      have := Logged.number_eq ⟨h1, h2, h3, h4, h5, h6, h7, h8⟩
      simp only [State.closeRequest] at hlt
      omega

/-- The next request is read when the last one was empty or is answered. -/
theorem Logged.waitForRequest (h : Logged p s none)
    (hlast : ∀ r ∈ s.closedRequests, r.number + 1 = s.requests → r.messageSize = 0 ∨
      ∃ a ∈ s.answered, a.number = r.number ∧ s.writtenFor r.number = frameOf a) :
    Alive p s.waitForRequest := by
  obtain ⟨h1, h2, h3, h4, h5, h6, h7, h8⟩ := h
  rw [State.waitForRequest]
  by_cases hc : s.closed = true
  · rw [if_pos hc]
    exact ⟨⟨h1, h2, h3, h4, h5, h6, h7, h8⟩, trivial⟩
  · rw [if_neg hc]
    rw [Option.toList_none, List.map_nil, List.append_nil] at h1
    refine ⟨⟨?_, h2, fun a ha => ?_, fun k hk => ?_, h5, h6, fun r hr hlt => ?_, h8⟩, ?_⟩
    · simp only [State.start, Phase.request, Option.toList_some, List.map_singleton,
        State.newRequest, List.range_succ]
      rw [h1]
    · exact Nat.lt_succ_of_lt (h3 a ha)
    · exact h4 k (Nat.le_of_succ_le hk)
    · rcases Nat.lt_or_ge (r.number + 1) s.requests with hlt' | hge
      · exact h7 r hr hlt'
      · exact hlast r hr (Nat.le_antisymm (Nat.lt_succ_iff.mp hlt) hge)
    · exact ⟨h4 _ (Nat.le_refl _), fun a ha => Nat.ne_of_lt (h3 a ha)⟩

theorem Logged.write (h : Logged p s (some req)) {data : Bytes} {n : Nat}
    (ha : ∃ a ∈ s.answered, a.number = req.number ∧
      (s.write req data n).writtenFor req.number <+: frameOf a) :
    Logged p (s.write req data n) (some req) := by
  have hnum := h.number_eq
  have hother : ∀ k, k ≠ req.number → (s.write req data n).writtenFor k = s.writtenFor k := by
    intro k hk
    rw [State.writtenFor, State.write, List.filter_append, List.flatMap_append]
    simp [State.writtenFor, Ne.symm hk]
  obtain ⟨h1, h2, h3, h4, h5, h6, h7, h8⟩ := h
  refine ⟨h1, h2, h3, fun k hk => ?_, fun k => ?_, h6, fun r hr hlt => ?_, h8⟩
  · rw [hother k (by simp only [State.write] at hk; omega)]
    exact h4 k hk
  · by_cases hk : k = req.number
    · subst hk
      exact .inr ha
    · rw [hother k hk]
      exact h5 k
  · rw [hother r.number (by simp only [State.write] at hlt; omega)]
    exact h7 r hr hlt

theorem writtenFor_write (s : State) (req : Request) (data : Bytes) (n : Nat) :
    (s.write req data n).writtenFor req.number = s.writtenFor req.number ++ data.take n := by
  rw [State.writtenFor, State.write, List.filter_append, List.flatMap_append]
  simp [State.writtenFor]

/-- The request is answered with what was serialized. -/
theorem Logged.sendResponse (h : Logged p s (some req)) (hf : Fresh s req)
    (hsize : req.messageSize ≠ 0)
    (hid : req.messageSize ≤ p.maxMessageSize → req.unit.id = some (p.parse req.rawData).id)
    (hser : s.closed = false → Serializes p req) : Alive p (s.sendResponse p req true) := by
  rw [State.sendResponse]
  by_cases hc : s.closed = true
  · rw [if_pos hc]
    exact ⟨h.closeRequest, trivial⟩
  · rw [if_neg hc]
    obtain ⟨hok, hlen⟩ := hser (Bool.not_eq_true _ ▸ hc)
    simp only [hok, if_true]
    have hnum := h.number_eq
    obtain ⟨h1, h2, h3, h4, h5, h6, h7, h8⟩ := h
    refine ⟨⟨h1, ?_, fun a ha => ?_, h4, fun k => ?_, fun a ha => ?_, fun r hr hlt => ?_, h8⟩,
      List.mem_append_right _ (List.mem_singleton_self _), hf.1, hsize⟩
    · simp only [State.start, List.map_append, List.map_cons, List.map_nil]
      rw [← List.concat_eq_append]
      refine h2.concat fun hmem => ?_
      obtain ⟨a, ha, han⟩ := List.mem_map.mp hmem
      exact hf.2 a ha han
    · rcases List.mem_append.mp ha with ha | ha
      · exact h3 a ha
      · rw [List.mem_singleton.mp ha]
        exact Nat.lt_of_succ_le (Nat.le_of_eq hnum)
    · refine (h5 k).imp_right fun ⟨a, ha, hk⟩ => ⟨a, List.mem_append_left _ ha, hk⟩
    · rcases List.mem_append.mp ha with ha | ha
      · exact h6 a ha
      · rw [List.mem_singleton.mp ha]
        refine ⟨Prod.ext rfl hok, ?_, setResponseStatus_status _ _ _, fun hle => ?_⟩
        · rw [bufToSize, sizeToBuf, List.take_of_length_le (by simp), leNumber_leBytes]
          rw [headerLength, show (256 : Nat) ^ 4 = 2 ^ 32 by norm_num, Nat.mod_mod]
          exact Nat.mod_eq_of_lt hlen
        · exact (setResponseStatus_id _ _ _).trans (hid hle)
    · exact (h7 r hr hlt).imp_right fun ⟨a, ha, hk⟩ => ⟨a, List.mem_append_left _ ha, hk⟩

theorem Logged.dispatchRequest (h : Logged p s (some req)) (hf : Fresh s req)
    (hsize : req.messageSize ≠ 0) (hid : req.unit.id = some (p.parse req.rawData).id) :
    Alive p (s.dispatchRequest req true) := by
  rw [State.dispatchRequest]
  by_cases hc : s.closed = true
  · rw [if_pos hc]
    exact ⟨h.closeRequest, trivial⟩
  · rw [if_neg hc]
    exact ⟨h.congr rfl rfl rfl rfl rfl, hf, hsize, hid⟩

theorem Logged.authRequest (h : Logged p s (some req)) (hf : Fresh s req)
    (hsize : req.messageSize ≠ 0) (hid : req.unit.id = some (p.parse req.rawData).id) :
    Alive p (s.authRequest req) := by
  rw [State.authRequest]
  by_cases hc : s.closed = true
  · rw [if_pos hc]
    exact ⟨h.closeRequest, trivial⟩
  · rw [if_neg hc]
    exact ⟨h.congr rfl rfl rfl rfl rfl, hf, hsize, hid⟩

/-- A request may change in all but its number. -/
theorem Logged.of_number {req' : Request} (h : Logged p s (some req))
    (hn : req'.number = req.number) : Logged p s (some req') := by
  obtain ⟨h1, h2, h3, h4, h5, h6, h7, h8⟩ := h
  refine ⟨?_, h2, h3, h4, h5, h6, h7, h8⟩
  rw [Option.toList_some, List.map_singleton, hn]
  exact h1

theorem headerReceived_alive (h : Logged p s (some req)) (hf : Fresh s req) {size : Nat}
    (hser : s.closed = false → p.maxMessageSize < size →
      Serializes p (req.setResponseError ⟨.requestTooBig, none⟩)) :
    Alive p (s.headerReceived p req size) := by
  rw [State.headerReceived]
  by_cases h0 : size = 0
  · rw [if_pos h0]
    have h' : Logged p s (some { req with messageSize := size }) := h.of_number rfl
    refine h'.closeRequest.waitForRequest fun r hr hn => ?_
    rcases List.mem_append.mp hr with hr | hr
    · have hnum := h.number_eq
      have hmem : r.number ∈ s.closedRequests.map (·.number) := List.mem_map_of_mem hr
      have hnd : (s.closedRequests.map (·.number) ++ [req.number]).Nodup := by
        have hr := h.numbers
        rw [Option.toList_some, List.map_singleton] at hr
        rw [hr]
        exact List.nodup_range
      refine absurd hmem fun hmem => ?_
      rw [show r.number = req.number by simp only [State.closeRequest] at hn; omega] at hmem
      exact (List.nodup_append.mp hnd).2.2 _ hmem _ (List.mem_singleton_self _) rfl
    · rw [List.mem_singleton.mp hr]
      exact .inl h0
  · rw [if_neg h0]
    by_cases hmax : size > p.maxMessageSize
    · rw [if_pos hmax]
      have h' : Logged p s (some ({ req with messageSize := size }.setResponseError
          ⟨.requestTooBig, none⟩)) := h.of_number rfl
      refine h'.sendResponse hf h0 (fun hle => absurd hle (Nat.not_le_of_lt hmax)) fun hc => ?_
      exact hser hc hmax
    · rw [if_neg hmax]
      have h' : Logged p s (some { req with messageSize := size }) := h.of_number rfl
      exact ⟨h'.congr rfl rfl rfl rfl rfl, hf, h0⟩

theorem bodyReceived_alive (h : Logged p s (some req)) (hf : Fresh s req)
    (hsize : req.messageSize ≠ 0) {body : Bytes}
    (hser : s.closed = false → ∀ apiError, (p.parse body).failure = some apiError →
      Serializes p ({ req with unit := { req.unit with
        id := some (p.parse body).id } }.setResponseError ⟨.formatError, apiError⟩)) :
    Alive p (s.bodyReceived p req body) := by
  have h' : ∀ req' : Request, req'.number = req.number →
      Logged p { s with parsed := s.parsed ++ [body] } (some req') := fun req' hn =>
    (h.of_number hn).congr rfl rfl rfl rfl rfl
  cases hfail : (p.parse body).failure with
  | some apiError =>
    simp only [State.bodyReceived, hfail]
    refine Logged.sendResponse (h' _ ?_) ?_ ?_ ?_ fun hc => ?_
    · rfl
    · exact hf
    · exact hsize
    · exact fun _ => rfl
    · exact hser hc apiError hfail
  | none =>
    simp only [State.bodyReceived, hfail]
    split
    · refine Logged.authRequest (h' _ ?_) ?_ ?_ ?_
      · rfl
      · exact hf
      · exact hsize
      · rfl
    · refine Logged.dispatchRequest (h' _ ?_) ?_ ?_ ?_
      · rfl
      · exact hf
      · exact hsize
      · rfl

theorem authCallback_alive (h : Logged p s (some req))
    (hph : InProgress p s (.authenticating req)) (close : Bool) (error : Option ResponseError)
    (left : Nat) (hr : s.closed = false → s.hasContext = true ∧
      (close = false → error.isSome = true → Serializes p { req with responseError := error })) :
    Alive p (s.authCallback p req close error left) := by
  obtain ⟨hf, hsize, hid⟩ := hph
  have h' : Logged p s (some { req with responseError := error }) := h.of_number rfl
  rw [State.authCallback]
  by_cases hc : s.closed = true
  · rw [if_pos hc]
    exact ⟨h'.closeRequest, trivial⟩
  · rw [if_neg hc]
    obtain ⟨hctx, hser⟩ := hr (Bool.not_eq_true _ ▸ hc)
    rw [hctx, Bool.and_true]
    cases close with
    | true => exact ⟨h'.closeRequest.congr rfl rfl rfl rfl rfl, trivial⟩
    | false =>
      have hw : Logged p { s with watchers := left } (some { req with responseError := error }) :=
        h'.congr rfl rfl rfl rfl rfl
      simp only [Bool.false_eq_true, if_false, if_true]
      split
      next he => exact hw.sendResponse hf hsize (fun _ => hid) fun _ => hser rfl he
      next => exact hw.dispatchRequest hf hsize hid

theorem dispatchCallback_alive (h : Logged p s (some req))
    (hph : InProgress p s (.dispatching req)) (close : Bool) (messageType : Option String)
    (message : Option Bytes) (error : Option ResponseError) (left : Nat)
    (hr : s.closed = false → s.hasContext = true → close = false → Serializes p { req with
      unit := { req.unit with messageType := messageType, message := message }
      responseError := error }) :
    Alive p (s.dispatchCallback p req close messageType message error left) := by
  obtain ⟨hf, hsize, hid⟩ := hph
  have h' : Logged p s (some { req with
      unit := { req.unit with messageType := messageType, message := message }
      responseError := error }) := h.of_number rfl
  rw [State.dispatchCallback]
  by_cases hc : s.closed = true
  · rw [if_pos hc]
    exact ⟨h'.closeRequest, trivial⟩
  · rw [if_neg hc]
    by_cases hctx : (!s.hasContext) = true
    · rw [if_pos hctx]
      exact ⟨h'.closeRequest, trivial⟩
    · rw [if_neg hctx]
      have hw := h'.congr (t := { s with watchers := left }) rfl rfl rfl rfl rfl
      cases close with
      | true =>
        simp only [if_true]
        exact ⟨h'.closeRequest.congr rfl rfl rfl rfl rfl, trivial⟩
      | false =>
        have hctx' : s.hasContext = true := by simpa using hctx
        exact hw.sendResponse hf hsize (fun _ => hid) fun hc => hr hc hctx' rfl

/-! ### Writes -/

variable {n : Nat}

/-- What is written of the header is of the frame. -/
theorem headerWritten (h : Logged p s (some req)) (hph : InProgress p s (.sendHeader req)) :
    Logged p (s.write req (sizeToBuf req.response.length) n) (some req) := by
  obtain ⟨hmem, hw, -⟩ := hph
  refine h.write ⟨req, hmem, rfl, ?_⟩
  rw [writtenFor_write, hw, List.nil_append]
  exact (List.take_prefix n _).trans (List.prefix_append _ _)

theorem bodyWritten (h : Logged p s (some req)) (hph : InProgress p s (.sendBody req)) :
    Logged p (s.write req req.response n) (some req) := by
  obtain ⟨hmem, hw, -⟩ := hph
  refine h.write ⟨req, hmem, rfl, ?_⟩
  rw [writtenFor_write, hw]
  exact (List.prefix_append_right_inj _).mpr (List.take_prefix n _)

theorem headerSent_alive (h : Logged p s (some req)) (hph : InProgress p s (.sendHeader req))
    (hn : s.closed = false → n = headerLength) :
    Alive p (if (s.write req (sizeToBuf req.response.length) n).closed = true then
      (s.write req (sizeToBuf req.response.length) n).closeRequest req
    else (s.write req (sizeToBuf req.response.length) n).start (.sendBody req)) := by
  have hlog : Logged p (s.write req (sizeToBuf req.response.length) n) (some req) :=
    headerWritten h hph
  by_cases hc : (s.write req (sizeToBuf req.response.length) n).closed = true
  · rw [if_pos hc]
    exact ⟨hlog.closeRequest, trivial⟩
  · rw [if_neg hc]
    obtain ⟨hmem, hw, hsize⟩ := hph
    refine ⟨hlog.congr rfl rfl rfl rfl rfl, hmem, ?_, hsize⟩
    have hall := writtenFor_write s req (sizeToBuf req.response.length) n
    rw [hw, List.nil_append, hn (Bool.not_eq_true _ ▸ hc)] at hall
    rw [List.take_of_length_le (by simp [sizeToBuf])] at hall
    rw [hn (Bool.not_eq_true _ ▸ hc)]
    exact hall

theorem bodySent_alive (h : Logged p s (some req)) (hph : InProgress p s (.sendBody req))
    (hn : s.closed = false → n = req.response.length) :
    Alive p ((s.write req req.response n).closeRequest req).waitForRequest := by
  have hlog : Logged p (s.write req req.response n) (some req) := bodyWritten h hph
  by_cases hc : s.closed = true
  · have hwait : ((s.write req req.response n).closeRequest req).waitForRequest = _ := if_pos hc
    rw [hwait]
    exact ⟨hlog.closeRequest.congr rfl rfl rfl rfl rfl, trivial⟩
  · obtain ⟨hmem, hw, hsize⟩ := hph
    refine hlog.closeRequest.waitForRequest fun r hr hnum => .inr ?_
    have hreq : r.number = req.number := by
      have hlast := hlog.number_eq
      simp only [State.closeRequest] at hnum
      omega
    refine ⟨req, hmem, hreq.symm, ?_⟩
    rw [hreq]
    have hall := writtenFor_write s req req.response n
    rw [hw, hn (Bool.not_eq_true _ ▸ hc), List.take_length] at hall
    rw [hn (Bool.not_eq_true _ ▸ hc)]
    exact hall

/-! ### All steps -/

theorem Alive.logged {phase : Phase} (h : Alive p s) (hph : s.phase = phase) :
    Logged p s phase.request := hph ▸ h.1

theorem Alive.inProgress {phase : Phase} (h : Alive p s) (hph : s.phase = phase) :
    InProgress p s phase := hph ▸ h.2

/-- The events that leave the request in progress and the logs alone. -/
theorem Alive.congr (h : Alive p s) (hp : t.phase = s.phase)
    (hc : t.closedRequests = s.closedRequests) (hr : t.requests = s.requests)
    (ha : t.answered = s.answered) (hw : t.written = s.written) (hb : t.broken = s.broken) :
    Alive p t := by
  have hwf : t.writtenFor = s.writtenFor := by
    funext k
    rw [State.writtenFor, State.writtenFor, hw]
  refine ⟨hp ▸ h.1.congr hc hr ha hw hb, ?_⟩
  have hph := h.2
  rw [hp]
  cases hs : s.phase <;> rw [hs] at hph <;>
    simp only [InProgress, Fresh, ha, hwf] at hph ⊢ <;> exact hph

/-- **The step lemma.** -/
theorem step_alive (h : Alive p s) {e : Event} (hs : s.step p e = some t) (hr : e.Living p s) :
    Alive p t := by
  cases e with
  | received =>
    rw [State.step] at hs
    split at hs
    next req hph =>
      split at hs <;> cases hs
      have hlog := (h.logged hph).congr (t := s.take headerLength) rfl rfl rfl rfl rfl
      exact headerReceived_alive hlog (h.inProgress hph) fun hc hmax => (hr hc).1 req hph hmax
    next req hph =>
      split at hs <;> cases hs
      have hlog := (h.logged hph).congr (t := s.take req.messageSize) rfl rfl rfl rfl rfl
      obtain ⟨hf, hsize⟩ := h.inProgress hph
      exact bodyReceived_alive hlog hf hsize fun hc e he => (hr hc).2 req e hph he
    next => cases hs
  | recvFailed =>
    rw [State.step] at hs
    split at hs
    next req hph =>
      cases hs
      exact ⟨(h.logged hph).closeRequest.congr rfl rfl rfl rfl rfl, trivial⟩
    next req hph =>
      cases hs
      exact ⟨(h.logged hph).closeRequest.congr rfl rfl rfl rfl rfl, trivial⟩
    next => cases hs
  | authenticated close error left =>
    rw [State.step] at hs
    split at hs
    next req hph =>
      split at hs <;> cases hs
      exact authCallback_alive (h.logged hph) (h.inProgress hph) close error left
        fun hc => hr hc req hph
    next => cases hs
  | dispatched close messageType message error left =>
    rw [State.step] at hs
    split at hs
    next req hph =>
      split at hs <;> cases hs
      exact dispatchCallback_alive (h.logged hph) (h.inProgress hph) close messageType message
        error left fun hc hctx hclose => hr hc hctx hclose req hph
    next => cases hs
  | sent n =>
    rw [State.step] at hs
    split at hs
    next req hph =>
      split at hs <;> cases hs
      exact headerSent_alive (h.logged hph) (h.inProgress hph) fun hc => (hr hc).1 req hph
    next req hph =>
      split at hs <;> cases hs
      exact bodySent_alive (h.logged hph) (h.inProgress hph) fun hc => (hr hc).2 req hph
    next => cases hs
  | sendFailed n =>
    rw [State.step] at hs
    split at hs
    next req hph =>
      cases hs
      have hlog : Logged p (s.write req (sizeToBuf req.response.length) n) (some req) :=
        headerWritten (h.logged hph) (h.inProgress hph)
      split
      · exact ⟨hlog.closeRequest, trivial⟩
      · exact ⟨hlog.closeRequest.congr rfl rfl rfl rfl rfl, trivial⟩
    next req hph =>
      cases hs
      have hlog : Logged p (s.write req req.response n) (some req) :=
        bodyWritten (h.logged hph) (h.inProgress hph)
      exact ⟨hlog.closeRequest.congr rfl rfl rfl rfl rfl, trivial⟩
    next => cases hs
  | watchFired =>
    rw [State.step] at hs
    split at hs <;> cases hs
    exact h.congr rfl rfl rfl rfl rfl rfl
  | closeServer =>
    rw [State.step] at hs
    cases hs
    exact h.congr rfl rfl rfl rfl rfl rfl

theorem Alive.lives (h : Alive p s) : Lives p s where
  closedOnce := h.1.numbers
  oneAnswer := h.1.oneAnswer
  oneFrame := h.1.oneFrame
  complete := h.1.complete
  header _ hph := (h.inProgress hph).2.1
  inOrder := h.1.inOrder
  onConnection := h.1.onConnection

/-! ### The other steps -/

/-- What is not serialized is answered all the same. -/
theorem sendResponse_breaks (hc : s.closed = false) (hser : ¬ Serializes p req) :
    ¬ Lives p (s.sendResponse p req true) := by
  intro h
  have hcf : ¬ s.closed = true := by rw [hc]; exact Bool.false_ne_true
  rw [State.sendResponse, if_neg hcf] at h
  have ha := h.complete _ (List.mem_append_right _ (List.mem_singleton_self _))
  refine hser ?_
  have hunit : ∀ r : Request, r.unit = req.unit.setResponseStatus p.serializer req.responseError →
      r.response = (p.serialize (req.unit.setResponseStatus p.serializer req.responseError)).1 →
      Answered p r → Serializes p req := by
    intro r hu hres hr
    have hok := hr.serialized
    rw [hu] at hok
    refine ⟨congrArg Prod.snd hok, ?_⟩
    have hsize := hr.size
    rw [bufToSize, sizeToBuf, List.take_of_length_le (by simp), leNumber_leBytes, headerLength,
      show (256 : Nat) ^ 4 = 2 ^ 32 by norm_num, Nat.mod_mod] at hsize
    rw [← hres, ← hsize]
    exact Nat.mod_lt _ (by norm_num)
  by_cases hok : (p.serialize (req.unit.setResponseStatus p.serializer req.responseError)).2 = true
  · simp only [hok, if_true] at ha
    exact hunit _ rfl rfl ha
  · simp only [hok] at ha
    exact hunit _ rfl rfl ha

theorem broken_breaks (h : s.broken = true) : ¬ Lives p s := by
  intro hl
  rw [hl.onConnection] at h
  cases h

/-- Nobody has the context when the authentication calls back. -/
theorem authCallback_breaks {close : Bool} {error : Option ResponseError} {left : Nat}
    (hc : s.closed = false) (hctx : s.hasContext = false) :
    ¬ Lives p (s.authCallback p req close error left) := by
  have hcf : ¬ s.closed = true := by rw [hc]; exact Bool.false_ne_true
  refine broken_breaks ?_
  rw [State.authCallback, if_neg hcf, hctx, Bool.and_false]
  simp only [Bool.false_eq_true, if_false]
  split
  · rw [State.sendResponse, if_neg hcf]
    rfl
  · rw [State.dispatchRequest, if_neg hcf]
    rfl

theorem frameOf_eq_of_number (h : Logged p s (some req)) (hmem : req ∈ s.answered) {a : Request}
    (ha : a ∈ s.answered) (hn : a.number = req.number) : a = req :=
  List.inj_on_of_nodup_map h.oneAnswer ha hmem hn

/-- A short write of the header goes on with the body. -/
theorem headerSent_breaks (hph : InProgress p s (.sendHeader req)) (hle : n ≤ headerLength)
    (hn : n ≠ headerLength) :
    ¬ Lives p ((s.write req (sizeToBuf req.response.length) n).start (.sendBody req)) := by
  intro h
  have hw : (s.write req (sizeToBuf req.response.length) n).writtenFor req.number =
    sizeToBuf req.response.length := h.header req rfl
  rw [writtenFor_write, hph.2.1, List.nil_append] at hw
  have hlen := congrArg List.length hw
  rw [List.length_take, sizeToBuf, leBytes_length] at hlen
  omega

/-- A short write of the body goes on with the next request. -/
theorem bodySent_breaks (h : Logged p s (some req)) (hph : InProgress p s (.sendBody req))
    (hc : s.closed = false) (hle : n ≤ req.response.length) (hn : n ≠ req.response.length) :
    ¬ Lives p ((s.write req req.response n).closeRequest req).waitForRequest := by
  intro hl
  obtain ⟨hmem, hw, hsize⟩ := hph
  have hcf : ¬ ((s.write req req.response n).closeRequest req).closed = true := by
    simp only [State.closeRequest, State.write, hc]
    exact Bool.false_ne_true
  have hwait : ((s.write req req.response n).closeRequest req).waitForRequest = _ := if_neg hcf
  rw [hwait] at hl
  have hnum := h.number_eq
  rcases hl.inOrder req (List.mem_append_right _ (List.mem_singleton_self _))
    (by simp only [State.start, State.closeRequest, State.write]; omega) with h0 | ⟨a, ha, han, hf⟩
  · exact hsize h0
  · have heq := frameOf_eq_of_number h hmem ha han
    rw [heq] at hf
    have hall := (writtenFor_write s req req.response n).symm.trans hf
    rw [hw, frameOf] at hall
    have hlen := congrArg List.length (List.append_cancel_left hall)
    rw [List.length_take] at hlen
    omega

/-- **All other steps break the life of a request.** -/
theorem not_lives_of_step (h : Alive p s) {e : Event} (hs : s.step p e = some t)
    (hr : ¬ e.Living p s) : ¬ Lives p t := by
  cases e with
  | received =>
    rw [Event.Living, Classical.not_imp, not_and_or] at hr
    obtain ⟨hc, hr⟩ := hr
    rcases hr with hr | hr
    · simp only [not_forall] at hr
      obtain ⟨req, hph, hmax, hser⟩ := hr
      rw [State.step, hph] at hs
      simp only at hs
      split at hs <;> cases hs
      rw [State.headerReceived, if_neg (Nat.ne_of_gt (Nat.zero_lt_of_lt hmax)), if_pos hmax]
      exact sendResponse_breaks hc hser
    · simp only [not_forall] at hr
      obtain ⟨req, apiError, hph, hfail, hser⟩ := hr
      rw [State.step, hph] at hs
      simp only at hs
      split at hs <;> cases hs
      simp only [State.bodyReceived, hfail]
      refine sendResponse_breaks ?_ ?_
      · exact hc
      · exact hser
  | authenticated close error left =>
    simp only [Event.Living, not_forall] at hr
    obtain ⟨hc, req, hph, hr⟩ := hr
    rw [State.step, hph] at hs
    simp only at hs
    split at hs <;> cases hs
    cases hctx : s.hasContext with
    | false => exact authCallback_breaks hc hctx
    | true =>
      rw [hctx] at hr
      simp only [true_and, not_forall] at hr
      obtain ⟨hclose, he, hser⟩ := hr
      have hcf : ¬ s.closed = true := by rw [hc]; exact Bool.false_ne_true
      rw [State.authCallback, if_neg hcf, hclose, hctx]
      simp only [Bool.false_and, Bool.false_eq_true, if_false, if_true, he]
      exact sendResponse_breaks hc hser
  | dispatched close messageType message error left =>
    simp only [Event.Living, not_forall] at hr
    obtain ⟨hc, hctx, hclose, req, hph, hser⟩ := hr
    rw [State.step, hph] at hs
    simp only at hs
    split at hs <;> cases hs
    have hcf : ¬ s.closed = true := by rw [hc]; exact Bool.false_ne_true
    rw [State.dispatchCallback, if_neg hcf, hclose, hctx]
    simp only [Bool.not_true, Bool.false_eq_true, if_false]
    exact sendResponse_breaks hc hser
  | sent n =>
    simp only [Event.Living, Classical.not_imp, not_and_or, not_forall] at hr
    obtain ⟨hc, ⟨req, hph, hn⟩ | ⟨req, hph, hn⟩⟩ := hr
    · rw [State.step, hph] at hs
      simp only at hs
      split at hs <;> cases hs
      next hg =>
        have hcf : ¬ (s.write req (sizeToBuf req.response.length) n).closed = true := by
          simp only [State.write, hc]
          exact Bool.false_ne_true
        rw [if_neg hcf]
        exact headerSent_breaks (h.inProgress hph) hg.2 hn
    · rw [State.step, hph] at hs
      simp only at hs
      split at hs <;> cases hs
      next hg => exact bodySent_breaks (h.logged hph) (h.inProgress hph) hc hg.2 hn
  | recvFailed => exact absurd trivial hr
  | sendFailed => exact absurd trivial hr
  | watchFired => exact absurd trivial hr
  | closeServer => exact absurd trivial hr

theorem handleNewConnection_alive (p : Setup) (stream : Bytes) :
    Alive p (State.handleNewConnection stream) := by
  refine Logged.waitForRequest ?_ fun r hr => absurd hr List.not_mem_nil
  exact ⟨rfl, List.nodup_nil, fun a ha => absurd ha List.not_mem_nil, fun _ _ => rfl,
    fun _ => .inl rfl, fun a ha => absurd ha List.not_mem_nil,
    fun r hr => absurd hr List.not_mem_nil, rfl⟩

theorem lives_iff_of_alive (h : Alive p s) (es : List Event) :
    GoodRun (State.step p) (Lives p) s es ↔ RegularRun (State.step p) (Event.Living p) s es :=
  goodRun_iff (I := Alive p) (fun _ h => h.lives) (fun _ _ _ h hs hr => step_alive h hs hr)
    (fun _ _ _ h hs hr => not_lives_of_step h hs hr) es h

end Steps

/-- **The requests of a connection live as they should in every state of a run if and only if
every response is serialized and written whole, and the connection is there when the
authentication calls back.** -/
theorem lives_iff (p : Setup) (stream : Bytes) (es : List Event) :
    GoodRun (State.step p) (Lives p) (State.handleNewConnection stream) es ↔
      RegularRun (State.step p) (Event.Living p) (State.handleNewConnection stream) es :=
  lives_iff_of_alive (handleNewConnection_alive p stream) es

/-- A server whose handler returns a message that lacks a required field. -/
def sampleServer (hasAuthDispatcher : Bool) : Setup where
  maxMessageSize := 8
  hasAuthDispatcher := hasAuthDispatcher
  parse _ := ⟨"1", none⟩
  serializer := ⟨fun _ => [], fun _ => none, fun _ => [], fun _ => none⟩
  serialize unit := if unit.message.isSome then ([0x0a, 0x01, 0x31], false) else ([0x10, 0x00], true)

def sampleRequest : Bytes := [0x01, 0x00, 0x00, 0x00, 0xaa]

/-- The part of a response that was serialized is sent as the whole; and the connection breaks
while a request is authenticated, which is then dispatched all the same. -/
theorem partial_response_sent :
    ¬ GoodRun (State.step (sampleServer false)) (Lives (sampleServer false))
      (State.handleNewConnection sampleRequest)
      [.received, .received, .dispatched false (some "m") (some []) none 0] ∧
    ¬ GoodRun (State.step (sampleServer true)) (Lives (sampleServer true))
      (State.handleNewConnection sampleRequest)
      [.received, .received, .watchFired, .authenticated false none 0] := by
  constructor
  · intro hgood
    have h := (lives_iff_of_alive (handleNewConnection_alive (sampleServer false) sampleRequest)
      _).mp hgood
    have hheader := h _ rfl
    have hbody := hheader.2 _ rfl
    have hcallback := (hbody.2 _ rfl).1
    exact absurd (hcallback rfl rfl rfl _ rfl).1 (by decide)
  · intro hgood
    have h := (lives_iff_of_alive (handleNewConnection_alive (sampleServer true) sampleRequest)
      _).mp hgood
    have hheader := h _ rfl
    have hbody := hheader.2 _ rfl
    have hbroken := hbody.2 _ rfl
    have hcallback := (hbroken.2 _ rfl).1
    exact absurd (hcallback rfl _ rfl).1 (by decide)

end Hatn.Api.Server
