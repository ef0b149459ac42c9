import Hatn.Dataunit.JsonObjects

/-!
# The handlers that read a unit from JSON

`loadFromJSON` keeps a list of handlers.  Each event of the text is given to the last one of
them, which is removed first and pushes the handlers for what comes next.  A handler holds
a pointer to the unit or the field that it reads: here the way to it from the unit that is
loaded.
-/

namespace Hatn.Dataunit.Json

open Hatn.Json

/-! ### Pointers to units -/

/-- From a unit to one within: the value of a subunit, or of the element that was appended to
repeated subunits.  Nothing is appended as long as a pointer to that element is used. -/
inductive Place
  | subunit (i : Nat)
  | element (i : Nat)

def Place.modify (g : UnitObject → UnitObject) : Place → UnitObject → UnitObject
  | subunit i, u => List.modify u i (·.modifyValue g)
  | element i, u => List.modify u i (·.modifyLast g)

/-- A change of the unit at the end of a way. -/
def modifyAt : List Place → (UnitObject → UnitObject) → UnitObject → UnitObject
  | [], g => g
  | place :: path, g => place.modify (modifyAt path g)

/-! ### Handlers -/

/-- What `pushHandler` keeps: the reader of a unit or of a field, with `scopes` and `offset`.
Readers of units are pushed with an offset of 0, and of 1 for the unit of a field. -/
inductive Handler
  | unit (path : List Place) (fields : List Field) (scopes offset : Int) (h : offset ≤ 1)
  | field (path : List Place) (index : Nat) (kind : FieldKind) (scopes : Int)

/-- The unit that is loaded with `m_jsonParseHandlers`, the last one first. -/
structure State where
  unit : UnitObject
  handlers : List Handler

namespace State

/-- `pushHandler` -/
def push (h : Handler) (s : State) : State := { s with handlers := h :: s.handlers }

/-- A change of a field of the unit at the end of a way. -/
def modifyField (path : List Place) (i : Nat) (g : FieldObject → FieldObject) (s : State) : State :=
  { s with unit := modifyAt path (fun u => u.modify i g) s.unit }

end State

/-- `pushJsonParseHandler` of the field classes; maps are not read. -/
def FieldKind.pushHandler (path : List Place) (i : Nat) (kind : FieldKind) (s : State) : State :=
  match kind with
  | .map => s
  | kind => s.push (.field path i kind 0)

/-- `UnitReader`: whether the event is accepted, and the state behind it. -/
def UnitReader.handle (path : List Place) (fields : List Field) (scopes offset : Int)
    (event : Event) (s : State) : Bool × State :=
  let initialScopes := scopes
  let scopes := scopes + offset
  match event with
  | .startObject => (true, s.push (.unit path fields scopes 0 (by decide)))
  | .key k =>
    let s := s.push (.unit path fields scopes 0 (by decide))
    if scopes - initialScopes > 1 then (true, s)
    else match fieldByName fields k with
      | some (i, f) => (true, f.kind.pushHandler path i s)
      | none => (true, s)
  | .endObject => (true, s)
  | _ => (decide (scopes - initialScopes > 1), s.push (.unit path fields scopes 0 (by decide)))

/-- `FieldReader` of the types; what a reader does not know is refused. -/
def FieldReader.handle (path : List Place) (i : Nat) (kind : FieldKind) (scopes : Int)
    (event : Event) (s : State) : Bool × State :=
  let again := s.push (.field path i kind scopes)
  match kind, event with
  | .plain t _, .scalar a =>
    match t.read a with
    | some g => (true, s.modifyField path i (·.setValue g))
    | none => (false, if t.dropsFlag a then s.modifyField path i (·.markSet false) else s)
  | .subunit _, .scalar .null => (true, s)
  | .subunit fs, .startObject =>
    (true, (s.modifyField path i (·.mutableValue (construct fs))).push
      (.unit (path ++ [.subunit i]) fs scopes 1 (by decide)))
  | .array _, .startArray => (true, again)
  | .array t, .scalar a =>
    match t.read a with
    | some g => (true, again.modifyField path i (·.appendValue (g t.zero)))
    | none => (false, again)
  | .array _, .endArray => (true, s)
  | .units fs, .scalar .null =>
    (true, again.modifyField path i (·.createAndAppendValue (construct fs)))
  | .units _, .startArray => (true, again)
  | .units fs, .startObject =>
    let s := again.modifyField path i (·.createAndAppendValue (construct fs))
    (true, (s.modifyField path i (·.mutableLast)).push
      (.unit (path ++ [.element i]) fs scopes 1 (by decide)))
  | .units _, .endArray => (true, s)
  | _, _ => (false, s)

def Handler.handle (event : Event) (s : State) : Handler → Bool × State
  | unit path fields scopes offset _ => UnitReader.handle path fields scopes offset event s
  | field path i kind scopes => FieldReader.handle path i kind scopes event s

/-! ### Loading -/

/-- The loop goes on, a handler has refused an event, or the assertion has thrown that the
list of handlers is not empty. -/
inductive Outcome
  | running (s : State)
  | refused (u : UnitObject)
  | thrown (u : UnitObject)

def Outcome.andThen (f : State → Outcome) : Outcome → Outcome
  | running s => f s
  | refused u => refused u
  | thrown u => thrown u

/-- The body of the loop of `loadFromJSON` for one event. -/
def step (event : Event) (s : State) : Outcome :=
  match s.handlers with
  | [] => .thrown s.unit
  | h :: handlers =>
    match h.handle event { s with handlers := handlers } with
    | (true, s') => .running s'
    | (false, s') => .refused s'.unit

def run : List Event → State → Outcome
  | [], s => .running s
  | event :: events, s => (step event s).andThen (run events)

/-- What `loadFromJSON` does: it returns `true` or `false`, or the assertion throws. -/
inductive Loaded
  | ok (u : UnitObject)
  | failed (u : UnitObject)
  | thrown (u : UnitObject)

def loadFromJSON (fs : List Field) (text : Text) (u : UnitObject) : Loaded :=
  match run text.events ⟨clear fs u, [.unit [] fs 0 0 (by decide)]⟩ with
  | .thrown u => .thrown u
  | .refused u => .failed (clear fs u)
  | .running s =>
    if text.isWhole then .ok s.unit
    -- the error is found by a handler of its own, if there is one
    else if text.isBroken && s.handlers.isEmpty then .thrown s.unit
    else .failed (clear fs s.unit)

/-! ### Runs in parts -/

theorem Outcome.andThen_eq_running {x : Outcome} {f : State → Outcome} {s : State} :
    x.andThen f = .running s ↔ ∃ t, x = .running t ∧ f t = .running s := by
  cases x <;> simp [andThen]

theorem run_append : ∀ (es es' : List Event) (s : State),
    run (es ++ es') s = (run es s).andThen (run es') := by
  intro es
  induction es with
  | nil => intro es' s; rfl
  | cons e es ih =>
    intro es' s
    rw [List.cons_append, run, run]
    cases step e s with
    | running t => exact ih es' t
    | refused u => rfl
    | thrown u => rfl

theorem run_singleton (e : Event) (s : State) : run [e] s = step e s := by
  rw [run]
  cases step e s <;> rfl

/-- A run over two parts runs over the first and then over the second. -/
theorem run_append_eq_running {es es' : List Event} {s s' : State} :
    run (es ++ es') s = .running s' ↔ ∃ t, run es s = .running t ∧ run es' t = .running s' := by
  rw [run_append, Outcome.andThen_eq_running]

theorem run_cons_eq_running {e : Event} {es : List Event} {s s' : State} :
    run (e :: es) s = .running s' ↔ ∃ t, step e s = .running t ∧ run es t = .running s' := by
  rw [run, Outcome.andThen_eq_running]

end Hatn.Dataunit.Json
