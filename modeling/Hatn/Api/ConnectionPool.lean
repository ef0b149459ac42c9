import Mathlib.Data.List.Basic

/-!
# The connection pool of a client

`ConnectionPool` in the mode of a single connection.  Its calls start operations of the
connection that end later, one callback after another, and other calls may come in between.
An operation in progress is a value that says what its callback goes on with.

A callback of a call is named by the number of the call.  Where the code has moved a callback
away, there is none.
-/

namespace Hatn.Api.ConnectionPool

/-- `ConnectionContext::State` -/
inductive ConnState
  | disconnected
  | ready
  | busy
  | error
  deriving DecidableEq

/-- What is done with the result of `connect`. -/
inductive AfterConnect
  /-- It is the result of the call. -/
  | call (k : Nat)
  /-- `doSend` -/
  | send (k size : Nat)
  /-- `reconnectCb`; its callback is a copy of one that was moved away. -/
  | retry (k size : Nat)
  deriving DecidableEq

/-- What is done when the connection is closed. -/
inductive AfterClose
  | connect (after : AfterConnect)
  | close (k : Nat)
  deriving DecidableEq

/-- An operation in progress. -/
inductive Pending
  /-- `makeConnection`, with the connection's own `connect` -/
  | making (after : AfterConnect)
  | closing (after : AfterClose)
  /-- The callback is posted with `execAsync`. -/
  | posted (after : AfterClose)
  /-- The callback is that of the message; the one of the header is moved from. -/
  | sendingHeader (k size : Nat) (cb : Option Nat) (retried : Bool)
  | sendingMessage (k : Nat) (cb : Option Nat)
  | receivingHeader (k : Nat)
  | receivingMessage (k : Nat)
  deriving DecidableEq

structure Setup where
  maxMessageSize : Nat
  autoReconnect : Bool

/-- The pool and its default connection, and logs of what it did. -/
structure Pool where
  /-- `m_closed` -/
  closed : Bool
  state : ConnState
  /-- The pointer to the context of the connection is not null. -/
  hasCtx : Bool
  sendTriesCount : Nat
  pending : List Pending
  /-- how many calls there were -/
  calls : Nat
  /-- the callbacks that were invoked -/
  called : List Nat
  closeDone : Bool
  openedAfterClose : Bool
  reconnects : List Nat
  /-- the sends that failed at their first header and were not granted a reconnect -/
  refused : List Nat
  /-- A null context or a callback that was moved away was used. -/
  broken : Bool

/-- Calls, and ends of operations. -/
inductive Event
  | connect
  | send (size : Nat)
  | recv
  | close
  | succeeded (op : Pending)
  | failed (op : Pending)
  /-- A header is received, with the size in it. -/
  | headerReceived (op : Pending) (messageSize : Nat)

namespace Pool

variable (p : Setup)

def canSend (s : Pool) : Bool := s.state ≠ .busy

def invoke (s : Pool) : Option Nat → Pool
  | some k => { s with called := s.called ++ [k] }
  | none => { s with broken := true }

def start (s : Pool) (op : Pending) : Pool := { s with pending := s.pending ++ [op] }

/-- The context of the connection is used. -/
def useCtx (s : Pool) : Pool := if s.hasCtx then s else { s with broken := true }

def sendToConnection (s : Pool) (k : Nat) (cb : Option Nat) (size : Nat) (retried : Bool) : Pool :=
  let s := { s with state := .busy }
  if size > p.maxMessageSize then s.invoke cb
  else s.useCtx.start (.sendingHeader k size cb retried)

def afterConnect (s : Pool) (ok : Bool) : AfterConnect → Pool
  | .call k => s.invoke (some k)
  | .send k size =>
    if ok then s.sendToConnection p k (some k) size false else s.invoke (some k)
  | .retry k size =>
    if ok then
      { s with sendTriesCount := s.sendTriesCount + 1 }.sendToConnection p k none size true
    else s.invoke none

def connect (s : Pool) (after : AfterConnect) : Pool :=
  if s.state = .busy then s.afterConnect p false after
  else { s with state := .busy }.start (.making after)

/-- The last of it is `closeNextPriority`, which finds no connections in this mode. -/
def afterClose (s : Pool) : AfterClose → Pool
  | .connect after => s.connect p after
  | .close k => { s with closeDone := true }.invoke (some k)

def closeConnection (s : Pool) (after : AfterClose) : Pool :=
  { s.useCtx with state := .busy }.start (.closing after)

def closeDefaultConnection (s : Pool) (after : AfterClose) : Pool :=
  if s.hasCtx then s.closeConnection after else s.afterClose p after

def newCall (s : Pool) : Pool := { s with calls := s.calls + 1 }

def callSend (s : Pool) (k size : Nat) : Pool :=
  if s.closed then s.invoke (some k)
  else match s.state with
    | .busy => s.invoke (some k)
    | .disconnected => s.connect p (.send k size)
    | .error => s.closeDefaultConnection p (.connect (.send k size))
    | .ready => s.sendToConnection p k (some k) size false

def callRecv (s : Pool) (k : Nat) : Pool :=
  if s.closed then s.invoke (some k)
  else if s.state ≠ .ready then s.invoke (some k)
  else { s with state := .busy }.useCtx.start (.receivingHeader k)

def callClose (s : Pool) (k : Nat) : Pool :=
  { s with closed := true }.closeDefaultConnection p (.close k)

/-- The header was not sent. -/
def headerFailed (s : Pool) (k size : Nat) (retried : Bool) : Pool :=
  let s := { s.useCtx with state := .error }
  if 0 < s.sendTriesCount || !p.autoReconnect || s.closed then
    let refused := !retried && p.autoReconnect && !s.closed
    { s with
      sendTriesCount := 0
      refused := if refused then s.refused ++ [k] else s.refused }.invoke none
  else
    { s with reconnects := s.reconnects ++ [k] }.closeConnection (.connect (.retry k size))

/-- An operation has succeeded. -/
def succeed (s : Pool) : Pending → Pool
  | .making after =>
    { s with
      hasCtx := true
      state := .ready
      openedAfterClose := s.openedAfterClose || s.closeDone }.afterConnect p true after
  | .closing after =>
    { s with hasCtx := false, state := .disconnected, sendTriesCount := 0 }.start (.posted after)
  | .posted after => s.afterClose p after
  | .sendingHeader k _ cb _ => s.useCtx.start (.sendingMessage k cb)
  | .sendingMessage _ cb => { s.useCtx with state := .ready }.invoke cb
  | .receivingHeader k => s.useCtx.start (.receivingMessage k)
  | .receivingMessage k => { s.useCtx with state := .ready }.invoke (some k)

def fail (s : Pool) : Pending → Pool
  | .making after => { s with state := .disconnected }.afterConnect p false after
  | .closing after =>
    { s with hasCtx := false, state := .disconnected, sendTriesCount := 0 }.start (.posted after)
  | .posted after => s.afterClose p after
  | .sendingHeader k size _ retried => s.headerFailed p k size retried
  | .sendingMessage _ cb => { s.useCtx with state := .error }.invoke cb
  | .receivingHeader k => { s.useCtx with state := .error }.invoke (some k)
  | .receivingMessage k => { s.useCtx with state := .error }.invoke (some k)

/-- The header of a response is received. -/
def received (s : Pool) (k messageSize : Nat) : Pool :=
  let s := s.useCtx
  if messageSize = 0 then s.invoke (some k)
  else if messageSize > p.maxMessageSize then { s with state := .error }.invoke (some k)
  else s.start (.receivingMessage k)

def finish (s : Pool) (op : Pending) : Pool := { s with pending := s.pending.erase op }

def step (s : Pool) : Event → Option Pool
  | .connect => some (s.newCall.connect p (.call s.calls))
  | .send size => some (s.newCall.callSend p s.calls size)
  | .recv => some (s.newCall.callRecv s.calls)
  | .close => some (s.newCall.callClose p s.calls)
  | .succeeded op =>
    match op with
    | .receivingHeader _ => none
    | _ => if op ∈ s.pending then some ((s.finish op).succeed p op) else none
  | .failed op => if op ∈ s.pending then some ((s.finish op).fail p op) else none
  | .headerReceived op messageSize =>
    match op with
    | .receivingHeader k =>
      if op ∈ s.pending then some ((s.finish op).received p k messageSize) else none
    | _ => none

def initial : Pool := ⟨false, .disconnected, false, 0, [], 0, [], false, false, [], [], false⟩

end Pool

end Hatn.Api.ConnectionPool
