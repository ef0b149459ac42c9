import Mathlib.Data.List.Infix

/-!
# JSON values and texts as their events

A value is a tree; a reader that does not build it reports it as a list of events.  A text
is known by the value whose events it reports and by where the report ends: behind the
value, or before, where the text is no JSON.
-/

namespace Hatn.Json

abbrev Name := List UInt8

/-- Values without parts.  A number is an integer or the bits of a floating point number. -/
inductive Scalar
  | null
  | bool (b : Bool)
  | integer (n : Int)
  | double (bits : Nat)
  | string (s : List UInt8)
  deriving DecidableEq

inductive Value
  | scalar (a : Scalar)
  | array (elements : List Value)
  | object (members : List (Name × Value))

inductive Event
  | scalar (a : Scalar)
  | startObject
  | key (k : Name)
  | endObject
  | startArray
  | endArray
  deriving DecidableEq

mutual

def Value.events : Value → List Event
  | .scalar a => [.scalar a]
  | .array l => .startArray :: (elementEvents l ++ [.endArray])
  | .object ms => .startObject :: (memberEvents ms ++ [.endObject])

def elementEvents : List Value → List Event
  | [] => []
  | v :: l => v.events ++ elementEvents l

def memberEvents : List (Name × Value) → List Event
  | [] => []
  | (k, v) :: ms => .key k :: (v.events ++ memberEvents ms)

end

/-- A text.  A broken one ends, or stops to be JSON, where `n` of the events of a value are
reported; another one goes on behind a whole value. -/
inductive Text
  | whole (v : Value)
  | trailing (v : Value)
  | broken (v : Value) (n : Nat) (h : n < v.events.length)

namespace Text

def value : Text → Value
  | whole v => v
  | trailing v => v
  | broken v _ _ => v

def events : Text → List Event
  | whole v => v.events
  | trailing v => v.events
  | broken v n _ => v.events.take n

/-- The report ends without an error. -/
def isWhole : Text → Bool
  | whole _ => true
  | _ => false

/-- The error is found by itself, not with the last event. -/
def isBroken : Text → Bool
  | broken _ _ _ => true
  | _ => false

end Text

end Hatn.Json
