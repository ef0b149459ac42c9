import Hatn.Order.Follows
import Mathlib.Algebra.BigOperators.Group.Finset.Basic
import Mathlib.Data.Fintype.BigOperators
import Mathlib.Logic.Function.Basic

/-!
# The queue of many producers and one consumer

The items of `MPSCQueue` are linked from `m_head`, and a producer puts its item at the end in
two atomic steps: it replaces `m_tail`, and then it sets the item as the next one of the tail
that it replaced, or as the head.  Between the two the list is not linked there, and the
consumer may empty the queue meanwhile.

Every step below is one atomic operation, with what the thread computes after it on its own.
The logs `called`, `exchanged` and `removed` are not of the code: they say what was pushed, in
which order the tails were exchanged, and what became of the items that were taken out.
-/

namespace Hatn.Common.Mpsc

open Hatn.Order

/-- Items are known by their addresses, and there is none at the null address. -/
abbrev Item := Fin (2 ^ 64 - 1)

/-- How far `pushInternalItem` has come. -/
inductive Pushing
  | idle
  /-- `m_size` is added to; `tail` is the value that is expected of `m_tail`. -/
  | exchanging (item : Item) (tail : Option Item)
  /-- The item is the tail, and `tail` is the one before. -/
  | publishing (item : Item) (tail : Option Item)
  deriving DecidableEq

/-- The item that is being pushed. -/
def Pushing.item : Pushing → Option Item
  | .idle => none
  | .exchanging x _ => some x
  | .publishing x _ => some x

/-- The item that is not in the queue yet. -/
def Pushing.waiting : Pushing → List Item
  | .exchanging x _ => [x]
  | _ => []

/-- Who calls `popItem`: the user, or `doClear` with its counters. -/
inductive Caller
  | user
  | clear (maxCount i : BitVec 64)
  deriving DecidableEq

/-- How far `popItem` has come. -/
inductive Popping
  | loadHead
  | exchangeTail (item : Item)
  | exchangeHead (item : Item)
  | loadNext (item : Item)
  | storeHead (item next : Item)
  | subtract (item : Item)
  deriving DecidableEq

inductive Consumer
  | idle
  | popping (caller : Caller) (pc : Popping)
  deriving DecidableEq

/-- What became of an item: `popItem` returned it, `doClear` dropped it, or `doClear` took it
out and left its loop. -/
inductive Outcome
  | returned
  | dropped
  | lost
  deriving DecidableEq

/-- The atomics, the calls in progress, and the logs. -/
structure Queue (P : Type) where
  head : Option Item
  tail : Option Item
  next : Item → Option Item
  size : BitVec 64
  pushing : P → Pushing
  consumer : Consumer
  called : P → List Item
  exchanged : List (P × Item)
  removed : List (Outcome × Item)

/-- A producer begins to push an item or takes its next step, or the consumer does. -/
inductive Act (P : Type)
  | push (p : P) (item : Item)
  /-- `compare_exchange_weak` fails, also when the tail is as expected. -/
  | failExchange (p : P)
  | exchange (p : P)
  | publish (p : P)
  | callPop
  | callClear
  | consume

namespace Queue

variable {P : Type} [Fintype P] [DecidableEq P]

def start : Queue P :=
  ⟨none, none, fun _ => none, 0, fun _ => .idle, .idle, fun _ => [], [], []⟩

/-- The items that became the tail, and that are not given out yet. -/
def left (q : Queue P) : List Item := (q.exchanged.map (·.2)).drop q.removed.length

/-- `popItem` returns an item.  `doClear` drops it while it counts below `maxCount`. -/
def finish (q : Queue P) (x : Item) : Caller → Queue P
  | .user => { q with consumer := .idle, removed := q.removed ++ [(.returned, x)] }
  | .clear maxCount i =>
    if i < maxCount then
      { q with
        consumer := .popping (.clear maxCount (i + 1)) .loadHead
        removed := q.removed ++ [(.dropped, x)] }
    else { q with consumer := .idle, removed := q.removed ++ [(.lost, x)] }

/-- The next step of `popItem`. -/
def consume (q : Queue P) (c : Caller) : Popping → Queue P
  | .loadHead =>
    match q.head with
    | none => { q with consumer := .idle }
    | some x => { q with consumer := .popping c (.exchangeTail x) }
  | .exchangeTail x =>
    if q.tail = some x then { q with tail := none, consumer := .popping c (.exchangeHead x) }
    else { q with consumer := .popping c (.loadNext x) }
  | .exchangeHead x =>
    let q := { q with consumer := .popping c (.subtract x) }
    if q.head = some x then { q with head := none } else q
  | .loadNext x =>
    match q.next x with
    | none => q
    | some n => { q with consumer := .popping c (.storeHead x n) }
  | .storeHead x n => { q with head := some n, consumer := .popping c (.subtract x) }
  | .subtract x => { q with size := q.size - 1 }.finish x c

/-- A step.  An item that is pushed is a new one: its address is not in use, and its
constructor leaves no next item. -/
def step (q : Queue P) : Act P → Option (Queue P)
  | .push p x =>
    if q.pushing p = .idle ∧ x ∉ q.left ∧ ∀ p', (q.pushing p').item ≠ some x then
      some { q with
        next := Function.update q.next x none
        size := q.size + 1
        pushing := Function.update q.pushing p (.exchanging x none)
        called := Function.update q.called p (q.called p ++ [x]) }
    else none
  | .failExchange p =>
    match q.pushing p with
    | .exchanging x _ =>
      some { q with pushing := Function.update q.pushing p (.exchanging x q.tail) }
    | _ => none
  | .exchange p =>
    match q.pushing p with
    | .exchanging x tail =>
      if q.tail = tail then
        some { q with
          tail := some x
          pushing := Function.update q.pushing p (.publishing x tail)
          exchanged := q.exchanged ++ [(p, x)] }
      else none
    | _ => none
  | .publish p =>
    match q.pushing p with
    | .publishing x (some tail) =>
      some { q with
        next := Function.update q.next tail (some x)
        pushing := Function.update q.pushing p .idle }
    | .publishing x none =>
      some { q with head := some x, pushing := Function.update q.pushing p .idle }
    | _ => none
  | .callPop => if q.consumer = .idle then
      some { q with consumer := .popping .user .loadHead } else none
  | .callClear => if q.consumer = .idle then
      some { q with consumer := .popping (.clear (q.size + 16) 0) .loadHead } else none
  | .consume =>
    match q.consumer with
    | .popping c pc => some (q.consume c pc)
    | .idle => none

def run (q : Queue P) : List (Act P) → Option (Queue P)
  | [] => some q
  | a :: as => (q.step a).bind fun q => q.run as

/-- `isEmpty` -/
def isEmpty (q : Queue P) : Bool := q.head.isNone

/-! ### What is to be kept -/

/-- The items of a producer in the order in which they became the tail. -/
def exchangedBy (q : Queue P) (p : P) : List Item := (q.exchanged.filter (·.1 = p)).map (·.2)

/-- No operation is in progress. -/
def Quiet (q : Queue P) : Prop := q.consumer = .idle ∧ ∀ p, q.pushing p = .idle

/-- All items that were given to `push` are different. -/
def DistinctCalls (q : Queue P) : Prop :=
  (∀ p, (q.called p).Nodup) ∧ ∀ p p', p ≠ p' → (q.called p).Disjoint (q.called p')

/-- What a state is to be like. -/
structure Delivers (q : Queue P) : Prop where
  /-- Items come out in the order of the exchanges of the tail: none that was not pushed. -/
  ordered : q.removed.map (·.2) <+: q.exchanged.map (·.2)
  /-- Those of a producer are pushed in its own order. -/
  own (p : P) : q.exchangedBy p <+: q.called p
  /-- A push that has completed has put its item in the order. -/
  completed (p : P) : q.pushing p = .idle → q.exchangedBy p = q.called p
  /-- No item is taken out twice. -/
  once : q.DistinctCalls → (q.removed.map (·.2)).Nodup
  /-- What is taken out is returned or dropped. -/
  delivered : ∀ r ∈ q.removed, r.1 ≠ .lost
  /-- The wait for the next item ends with the step of the producer that replaced the tail. -/
  waits (c : Caller) (x : Item) : q.consumer = .popping c (.loadNext x) → q.next x = none →
    ∃ p b, q.pushing p = .publishing b (some x) ∧
      ∀ q', q.step (.publish p) = some q' → q'.next x = some b
  size_eq : q.Quiet → q.size.toNat = q.left.length
  empty_iff : q.Quiet → (q.isEmpty = true ↔ q.size = 0)
  /-- The consumer gets all that is left, in order, by calls of `popItem`. -/
  drains : q.Quiet → ∃ as q', q.run as = some q' ∧ (∀ a ∈ as, a = .callPop ∨ a = .consume) ∧
    q'.Quiet ∧ q'.removed = q.removed ++ q.left.map (Outcome.returned, ·) ∧ q'.left = []

/-- `doClear` does not find an item when it has dropped `maxCount` of them. -/
def Regular (q : Queue P) : Act P → Prop
  | .consume => ∀ maxCount i x,
    q.consumer = .popping (.clear maxCount i) (.subtract x) → i < maxCount
  | _ => True

/-- Every state of a run delivers. -/
def KeptRun : Queue P → List (Act P) → Prop
  | q, [] => q.Delivers
  | q, a :: as => q.Delivers ∧ ∀ q', q.step a = some q' → KeptRun q' as

def RegularRun : Queue P → List (Act P) → Prop
  | _, [] => True
  | q, a :: as => q.Regular a ∧ ∀ q', q.step a = some q' → RegularRun q' as

end Queue

end Hatn.Common.Mpsc
