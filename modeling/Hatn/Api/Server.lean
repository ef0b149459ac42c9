import Hatn.Api.Response
import Hatn.Common.MachineInt

/-!
# The server and one of its connections

The server reads a header of four bytes and a body, has the request authenticated and
dispatched, writes a header and the response, and reads again.  Each read, write and dispatch
ends with a callback, and between them the connection may break, the watch of it may fire, and
the server may be closed.  A step of the model is one callback or one of these events.

The context of the connection lives as long as the store or a callback has it.  While a request
is dispatched only the watch has it.
-/

namespace Hatn.Api.Server

open Hatn.Common

abbrev Bytes := List UInt8

/-- `HEADER_LENGTH` -/
def headerLength : Nat := 4

/-- `bufToSize` -/
def bufToSize (buf : Bytes) : Nat := leNumber (buf.take headerLength)

/-- `sizeToBuf`; the size is cast to 32 bits. -/
def sizeToBuf (size : Nat) : Bytes := leBytes headerLength (size % 2 ^ 32)

/-- What `parseMessage` makes of the bytes: the id that it sets in the response, and the error of
the API in its error when it fails. -/
structure ParsedRequest where
  id : String
  failure : Option (Option ApiError)

/-- The parts of the server that the connection uses. -/
structure Setup where
  maxMessageSize : Nat
  hasAuthDispatcher : Bool
  parse : Bytes → ParsedRequest
  serializer : Serializer
  /-- `Response::serialize`: the bytes in its buffer, and whether it was without an error. -/
  serialize : ResponseUnit → Bytes × Bool

/-- `Request`, with a number of its own. -/
structure Request where
  number : Nat
  /-- the size in the header that was received -/
  messageSize : Nat
  rawData : Bytes
  unit : ResponseUnit
  responseError : Option ResponseError
  /-- what is serialized to answer it -/
  response : Bytes

/-- `setResponseError` of a status: the first one stays. -/
def Request.setResponseError (req : Request) (e : ResponseError) : Request :=
  { req with responseError := req.responseError <|> some e }

/-- What the connection waits for. -/
inductive Phase
  /-- Nothing: the connection is not used any more. -/
  | done
  | recvHeader (req : Request)
  | recvBody (req : Request)
  | authenticating (req : Request)
  | dispatching (req : Request)
  | sendHeader (req : Request)
  | sendBody (req : Request)

/-- The server as the connection sees it, and the logs of what it did. -/
structure State where
  /-- `m_closed` -/
  closed : Bool
  /-- The store has the context. -/
  registered : Bool
  isOpen : Bool
  /-- how many waits for reading have a callback that is to be called -/
  watchers : Nat
  /-- An operation was started on a connection that is gone; nothing is said of what follows. -/
  broken : Bool
  /-- The pending read or write was started on an open stream. -/
  active : Bool
  unread : Bytes
  /-- how many bytes were read -/
  position : Nat
  phase : Phase
  /-- how many requests were created -/
  requests : Nat
  parsed : List Bytes
  dispatched : List Bytes
  /-- the requests that were closed, as they were then -/
  closedRequests : List Request
  /-- the requests that are answered, as they were when the response was serialized -/
  answered : List Request
  /-- what was written, by the numbers of requests -/
  written : List (Nat × Bytes)

/-- What may happen. -/
inductive Event
  /-- A read has completed with all its bytes. -/
  | received
  | recvFailed
  /-- The authentication calls back; `left` watches were too late to be cancelled. -/
  | authenticated (closeConnection : Bool) (error : Option ResponseError) (left : Nat)
  /-- The handler calls back with a message of the response or an error. -/
  | dispatched (closeConnection : Bool) (messageType : Option String) (message : Option Bytes)
    (error : Option ResponseError) (left : Nat)
  /-- A write has completed without an error, and `n` bytes are written. -/
  | sent (n : Nat)
  | sendFailed (n : Nat)
  /-- The connection is broken or has unexpected data. -/
  | watchFired
  | closeServer

namespace State

variable (p : Setup)

def closeRequest (s : State) (req : Request) : State :=
  { s with closedRequests := s.closedRequests ++ [req], phase := .done }

def resetConnection (s : State) : State := { s with registered := false }

def closeConnection (s : State) : State := { s with isOpen := false, registered := false }

/-- The pointer to the context is null, and the connection that goes with it is used. -/
def connectionGone (s : State) : State := { s with broken := true, phase := .done }

/-- Somebody has the context while a request is dispatched. -/
def hasContext (s : State) : Bool := s.registered || 0 < s.watchers

/-- A read or a write is started. -/
def start (s : State) (phase : Phase) : State := { s with phase := phase, active := s.isOpen }

def newRequest (number : Nat) : Request := ⟨number, 0, [], ⟨none, none, none, none⟩, none, []⟩

def waitForRequest (s : State) : State :=
  if s.closed then { s with phase := .done }
  else { s with requests := s.requests + 1 }.start (.recvHeader (newRequest s.requests))

/-- When the response is not serialized, the status of the request changes, but not what was
serialized. -/
def sendResponse (s : State) (req : Request) (ctx : Bool) : State :=
  if s.closed then s.closeRequest req
  else
    let unit := req.unit.setResponseStatus p.serializer req.responseError
    let message := p.serialize unit
    let req := { req with unit := unit, response := message.1 }
    let req := if message.2 then req else req.setResponseError ⟨.internalServerError, none⟩
    if ctx then { s with answered := s.answered ++ [req] }.start (.sendHeader req)
    else s.connectionGone

def dispatchRequest (s : State) (req : Request) (ctx : Bool) : State :=
  if s.closed then s.closeRequest req
  else if ctx then
    { s with
      watchers := s.watchers + 1
      dispatched := s.dispatched ++ [req.rawData]
      phase := .dispatching req }
  else s.connectionGone

def authRequest (s : State) (req : Request) : State :=
  if s.closed then s.closeRequest req
  else { s with watchers := s.watchers + 1, phase := .authenticating req }

/-- The header is read. -/
def headerReceived (s : State) (req : Request) (messageSize : Nat) : State :=
  let req := { req with messageSize := messageSize }
  if messageSize = 0 then (s.closeRequest req).waitForRequest
  else if messageSize > p.maxMessageSize then
    s.sendResponse p (req.setResponseError ⟨.requestTooBig, none⟩) true
  else s.start (.recvBody req)

/-- The body is read. -/
def bodyReceived (s : State) (req : Request) (body : Bytes) : State :=
  let s := { s with parsed := s.parsed ++ [body] }
  let result := p.parse body
  let req := { req with rawData := body, unit := { req.unit with id := some result.id } }
  match result.failure with
  | some apiError => s.sendResponse p (req.setResponseError ⟨.formatError, apiError⟩) true
  | none => if p.hasAuthDispatcher then s.authRequest req else s.dispatchRequest req true

/-- The callback of the authentication; the context is looked up by its weak pointer. -/
def authCallback (s : State) (req : Request) (close : Bool) (error : Option ResponseError)
    (left : Nat) : State :=
  let req := { req with responseError := error }
  if s.closed then s.closeRequest req
  else if close && s.hasContext then (s.closeRequest req).closeConnection
  else
    let ctx := s.hasContext
    let s := if ctx then { s with watchers := left } else s
    if error.isSome then s.sendResponse p req ctx else s.dispatchRequest req ctx

/-- The callback of the dispatcher. -/
def dispatchCallback (s : State) (req : Request) (close : Bool) (messageType : Option String)
    (message : Option Bytes) (error : Option ResponseError) (left : Nat) : State :=
  let unit := { req.unit with messageType := messageType, message := message }
  let req := { req with unit := unit, responseError := error }
  if s.closed then s.closeRequest req
  else if !s.hasContext then s.closeRequest req
  else
    let s := { s with watchers := left }
    if close then s.closeConnection.closeRequest req else s.sendResponse p req true

def write (s : State) (req : Request) (data : Bytes) (n : Nat) : State :=
  { s with written := s.written ++ [(req.number, data.take n)] }

/-- Bytes are taken from the connection. -/
def take (s : State) (n : Nat) : State :=
  { s with unread := s.unread.drop n, position := s.position + n }

def step (s : State) : Event → Option State
  | .received =>
    match s.phase with
    | .recvHeader req =>
      if s.active ∧ headerLength ≤ s.unread.length then
        some ((s.take headerLength).headerReceived p req (bufToSize s.unread))
      else none
    | .recvBody req =>
      if s.active ∧ req.messageSize ≤ s.unread.length then
        some ((s.take req.messageSize).bodyReceived p req (s.unread.take req.messageSize))
      else none
    | _ => none
  | .recvFailed =>
    match s.phase with
    | .recvHeader req => some (s.closeRequest req).resetConnection
    | .recvBody req => some (s.closeRequest req).resetConnection
    | _ => none
  | .authenticated close error left =>
    match s.phase with
    | .authenticating req =>
      if left ≤ s.watchers then some (s.authCallback p req close error left) else none
    | _ => none
  | .dispatched close messageType message error left =>
    match s.phase with
    | .dispatching req =>
      if left ≤ s.watchers then
        some (s.dispatchCallback p req close messageType message error left)
      else none
    | _ => none
  | .sent n =>
    match s.phase with
    | .sendHeader req =>
      if s.active ∧ n ≤ headerLength then
        let s := s.write req (sizeToBuf req.response.length) n
        some (if s.closed then s.closeRequest req else s.start (.sendBody req))
      else none
    | .sendBody req =>
      if s.active ∧ n ≤ req.response.length then
        some ((s.write req req.response n).closeRequest req).waitForRequest
      else none
    | _ => none
  | .sendFailed n =>
    match s.phase with
    | .sendHeader req =>
      let s := s.write req (sizeToBuf req.response.length) n
      some (if s.closed then s.closeRequest req else (s.closeRequest req).resetConnection)
    | .sendBody req => some ((s.write req req.response n).closeRequest req).resetConnection
    | _ => none
  | .watchFired =>
    if 0 < s.watchers then some { s with watchers := s.watchers - 1 }.closeConnection else none
  | .closeServer => some { s.closeConnection with closed := true }

/-- A new connection, with all that the client will send. -/
def handleNewConnection (stream : Bytes) : State :=
  (⟨false, true, true, 0, false, true, stream, 0, .done, 0, [], [], [], [], []⟩ : State).waitForRequest

end State

end Hatn.Api.Server
