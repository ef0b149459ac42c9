import Hatn.Base.ConfigTreeJsonRuns

/-!
# The stack of the JSON parser and the document

The contexts on the stack of the parser are meant for what is open in the document: on top there is
the node that the next value is written to, or the array that it is appended to.  Two things break
this.  The node of a name that is repeated is freed before its value comes, and a null that is an
element of an array pops the context of the array.  What `verdict` finds first in a document decides
(`stackSafe_iff`).
-/

namespace Hatn.Base

open Tables ConfigTreeValue
open Hatn.Base.Parser

/-! ### Documents -/

/-- Values without parts. -/
inductive JsonScalar
  | bool (b : Bool)
  | number (n : Int)
  | double (bits : UInt64)
  | string (s : String)

def JsonScalar.event : JsonScalar → JsonEvent
  | bool b => .bool b
  | number n => .number n
  | double bits => .double bits
  | string s => .string s

/-- What is set, or appended, for the value. -/
def JsonScalar.value : JsonScalar → ConfigScalar
  | bool b => .bool b
  | number n => .int (.reported n)
  | double bits => .double bits
  | string s => .string s

/-- A well-formed document. -/
inductive JsonDocument
  | null
  | scalar (v : JsonScalar)
  | array (elements : List JsonDocument)
  | object (members : List (String × JsonDocument))

namespace JsonDocument

/-- An event, with the contexts of what is open in the document, the innermost first. -/
abbrev Step := List Context × JsonEvent

/-- The context of a value that is not an element of an array. -/
def valueContext (place : List Edge) : Context := ⟨some place, false, false⟩

mutual

/-- The events of a value, whose place in the tree is given, the contexts that it comes with and the
contexts around it. -/
def steps (contexts : List Context) (place : List Edge) (around : List Context) :
    JsonDocument → List Step
  | null => [(contexts, .null)]
  | scalar v => [(contexts, v.event)]
  | array l => (contexts, .startArray) ::
      (elementSteps place 0 (openContext false place :: around) l ++
        [(openContext false place :: around, .endArray)])
  | object ms => (contexts, .startObject) ::
      (memberSteps place (openContext true place :: around) ms ++
        [(openContext true place :: around, .endObject)])

/-- The elements of an array, from an index on. -/
def elementSteps (place : List Edge) (i : Nat) (contexts : List Context) :
    List JsonDocument → List Step
  | [] => []
  | v :: l => steps contexts (place ++ [.index i]) contexts v ++
      elementSteps place (i + 1) contexts l

def memberSteps (place : List Edge) (contexts : List Context) :
    List (String × JsonDocument) → List Step
  | [] => []
  | (k, v) :: ms => (contexts, .key k) ::
      (steps (valueContext (place ++ [.key k]) :: contexts) (place ++ [.key k]) contexts v ++
        memberSteps place contexts ms)

end

/-- The events of a document. -/
def rootSteps (d : JsonDocument) : List Step := d.steps [valueContext []] [] []

/-- **The node has the value** of the document.  An array without elements has no type, and its node
is not set; a member of an object has the value of one of the members of its name. -/
inductive Holds : JsonDocument → ConfigTreeValue → Prop
  | null : Holds null fresh
  | scalar (v : JsonScalar) : Holds (scalar v) (.scalar none v.value)
  | empty : Holds (array []) fresh
  | values (v : JsonScalar) (vs : List JsonScalar) (a : ConfigArray)
      (h : (v :: vs).foldlM (fun a v => a.append v.value) v.value.toArray = some a) :
      Holds (array ((v :: vs).map .scalar)) (.array none a)
  | trees (v : JsonDocument) (l : List JsonDocument) (items : List ConfigTreeValue)
      (h : List.Forall₂ Holds (v :: l) items) :
      Holds (array (v :: l)) (.trees none (Items.ofList items))
  | object (ms : List (String × JsonDocument)) (m : Keyed String ConfigTreeValue)
      (value : String → JsonDocument) (hkeys : ∀ k, (m.find k).isSome ↔ k ∈ ms.map Prod.fst)
      (hvalue : ∀ k c, m.find k = some c → (k, value k) ∈ ms)
      (h : ∀ k c, m.find k = some c → Holds (value k) c) : Holds (object ms) (.map none m)

end JsonDocument

namespace Parser

open JsonDocument

/-- The parser of `doParse` -/
def start : Parser := ⟨fresh, [⟨some [], false, false⟩]⟩

/-- The stack is that of the document.  A null only pops a context, no node is looked at. -/
def Follows (p : Parser) : Step → Prop
  | (contexts, .null) => p.stack.length = contexts.length
  | (contexts, _) => p.stack = contexts

/-- With each event that is reached the stack is that of the document, and no node is used that is
freed. -/
def Safe : Parser → List Step → Prop
  | _, [] => True
  | p, s :: steps => p.Follows s ∧ p.handle s.2 ≠ .error .freed ∧
      ∀ p', p.handle s.2 = .ok p' → Safe p' steps

end Parser

namespace JsonDocument

/-- **Safety of the stack**: each node that is written to is in the tree and is the one for the
value, and in the end the document is rejected, or the stack is empty and the tree has its value. -/
structure StackSafe (d : JsonDocument) : Prop where
  safe : start.Safe d.rootSteps
  result : ∀ p, start.run (d.rootSteps.map Prod.snd) = .ok p →
    p.stack = [] ∧ d.Holds p.rootTree

/-! ### What decides -/

inductive Verdict
  | fine
  | rejected
  | irregular
  deriving DecidableEq

def Verdict.andThen : Verdict → Verdict → Verdict
  | fine, verdict => verdict
  | verdict, _ => verdict

/-- The type of an array with the element. -/
def elementType : JsonDocument → ConfigType
  | scalar v => v.value.toArray.type
  | _ => .arrayTree

def isNull : JsonDocument → Bool
  | null => true
  | _ => false

mutual

/-- What is found first in a document: an element that does not have the type of its array, or a
null in an array or a value, other than null, of a name that is repeated. -/
def verdict : JsonDocument → Verdict
  | null => .fine
  | scalar _ => .fine
  | array l => elementsVerdict .none l
  | object ms => membersVerdict [] ms

/-- `type` is that of the elements before. -/
def elementsVerdict (type : ConfigType) : List JsonDocument → Verdict
  | [] => .fine
  | v :: l =>
    if v.isNull then .irregular
    else if type = .none ∨ type = v.elementType then
      (verdict v).andThen (elementsVerdict v.elementType l)
    else .rejected

/-- `names` are those of the members before. -/
def membersVerdict (names : List String) : List (String × JsonDocument) → Verdict
  | [] => .fine
  | (k, v) :: ms =>
    if k ∈ names then
      if v.isNull then membersVerdict names ms else .irregular
    else (verdict v).andThen (membersVerdict (k :: names) ms)

end

end JsonDocument

/-! ### Runs in parts -/

namespace Parser

open JsonDocument

theorem safe_append {steps steps' : List Step} : ∀ {p : Parser},
    p.Safe (steps ++ steps') ↔
      p.Safe steps ∧ ∀ p', p.run (steps.map Prod.snd) = .ok p' → p'.Safe steps' := by
  induction steps with
  | nil =>
    intro p
    constructor
    · intro h
      refine ⟨trivial, fun p' hp => ?_⟩
      obtain rfl := Except.ok.inj hp
      exact h
    · exact fun h => h.2 p rfl
  | cons s steps ih =>
    intro p
    constructor
    · rintro ⟨hfollows, hfreed, hnext⟩
      refine ⟨⟨hfollows, hfreed, fun q hq => (ih.mp (hnext q hq)).1⟩, fun p' hp => ?_⟩
      obtain ⟨q, hq, hrun⟩ := bind_eq_ok.mp hp
      exact (ih.mp (hnext q hq)).2 p' hrun
    · rintro ⟨⟨hfollows, hfreed, hnext⟩, hrest⟩
      refine ⟨hfollows, hfreed, fun q hq => ih.mpr ⟨hnext q hq, fun p' hp => ?_⟩⟩
      exact hrest p' (bind_eq_ok.mpr ⟨q, hq, hp⟩)

/-- What a part of a document does, by what is found first in it; `next` is what holds behind it. -/
def Goes (p : Parser) (steps : List Step) (next : Parser → Prop) : Verdict → Prop
  | .fine => p.Safe steps ∧ ∃ p', p.run (steps.map Prod.snd) = .ok p' ∧ next p'
  | .rejected => p.Safe steps ∧ ∃ e, p.run (steps.map Prod.snd) = .error e
  | .irregular => ¬p.Safe steps

variable {p q : Parser} {s : Step} {steps steps' : List Step} {next next' : Parser → Prop}
  {verdict verdict' : Verdict}

theorem Goes.append (h : p.Goes steps next verdict)
    (h' : ∀ q, next q → q.Goes steps' next' verdict') :
    p.Goes (steps ++ steps') next' (verdict.andThen verdict') := by
  have hrun : ∀ {p'}, p.run (steps.map Prod.snd) = .ok p' →
      p.run ((steps ++ steps').map Prod.snd) = p'.run (steps'.map Prod.snd) := by
    intro p' hp
    rw [List.map_append, run_append, hp]
    rfl
  cases verdict with
  | fine =>
    obtain ⟨hsafe, q, hq, hnext⟩ := h
    have hother : ∀ p', p.run (steps.map Prod.snd) = .ok p' → p' = q :=
      fun p' hp => Except.ok.inj (hp.symm.trans hq)
    have hsafe_iff : p.Safe (steps ++ steps') ↔ q.Safe steps' := by
      rw [safe_append]
      exact ⟨fun h => h.2 q hq, fun h => ⟨hsafe, fun p' hp => hother p' hp ▸ h⟩⟩
    have hgoes := h' q hnext
    show p.Goes (steps ++ steps') next' verdict'
    cases verdict' with
    | fine =>
      obtain ⟨hsafe', r, hr, hnext'⟩ := hgoes
      exact ⟨hsafe_iff.mpr hsafe', r, (hrun hq).trans hr, hnext'⟩
    | rejected =>
      obtain ⟨hsafe', e, he⟩ := hgoes
      exact ⟨hsafe_iff.mpr hsafe', e, (hrun hq).trans he⟩
    | irregular => exact fun hboth => hgoes (hsafe_iff.mp hboth)
  | rejected =>
    obtain ⟨hsafe, e, he⟩ := h
    refine ⟨safe_append.mpr ⟨hsafe, fun p' hp => ?_⟩, e, ?_⟩
    · rw [he] at hp
      cases hp
    · rw [List.map_append, run_append, he]
      rfl
  | irregular => exact fun hboth => h (safe_append.mp hboth).1

/-- An event that is handled. -/
theorem Goes.cons (hfollows : p.Follows s) (hok : p.handle s.2 = .ok q)
    (h : q.Goes steps next verdict) : p.Goes (s :: steps) next verdict := by
  have hrun : p.run ((s :: steps).map Prod.snd) = q.run (steps.map Prod.snd) := by
    rw [List.map_cons, run_cons, hok]
    rfl
  have hsafe : p.Safe (s :: steps) ↔ q.Safe steps := by
    constructor
    · exact fun h => h.2.2 q hok
    · intro h
      refine ⟨hfollows, fun he => ?_, fun p' hp => ?_⟩
      · rw [hok] at he
        cases he
      · rw [hok] at hp
        exact Except.ok.inj hp ▸ h
  unfold Goes at h ⊢
  rwa [hrun, hsafe]

/-- An event that is rejected. -/
theorem Goes.rejected {e : ParserError} (hfollows : p.Follows s) (herror : p.handle s.2 = .error e)
    (he : e ≠ .freed) : p.Goes (s :: steps) next .rejected := by
  refine ⟨⟨hfollows, fun hfreed => he ?_, fun p' hp => ?_⟩, e, ?_⟩
  · exact Except.error.inj (herror.symm.trans hfreed)
  · rw [herror] at hp
    cases hp
  · rw [List.map_cons, run_cons, herror]
    rfl

theorem Goes.done (h : next p) : p.Goes [] next .fine := ⟨trivial, p, rfl, h⟩

/-- One event. -/
theorem Goes.single (hfollows : p.Follows s) (hok : p.handle s.2 = .ok q) (h : next q) :
    p.Goes [s] next .fine := .cons hfollows hok (.done h)

theorem Goes.mono (h : p.Goes steps next verdict) (himp : ∀ q, next q → next' q) :
    p.Goes steps next' verdict := by
  cases verdict with
  | fine =>
    obtain ⟨hsafe, q, hq, hnext⟩ := h
    exact ⟨hsafe, q, hq, himp q hnext⟩
  | _ => exact h

end Parser

/-! ### Arrays that are made -/

namespace ConfigArray

variable {a a' : ConfigArray} {v : ConfigScalar}

theorem append_type (h : a.append v = some a') : a.type = v.toArray.type ∧ a'.type = a.type := by
  cases a <;> cases v <;> cases h <;> exact ⟨rfl, rfl⟩

theorem append_of_type (h : a.type = v.toArray.type) : ∃ a', a.append v = some a' := by
  cases a <;> cases v <;> first | exact ⟨_, rfl⟩ | cases h

theorem append_eq_none (h : a.type ≠ v.toArray.type) : a.append v = none := by
  cases happend : a.append v with
  | none => rfl
  | some a' => exact absurd (append_type happend).1 h

theorem type_ne (a : ConfigArray) : a.type ≠ .none ∧ a.type ≠ .arrayTree := by
  cases a <;> exact ⟨nofun, nofun⟩

end ConfigArray

/-- What is appended to an array that is there, or that is made. -/
theorem appendValue_eq {t : ConfigTreeValue} {a : ConfigArray} {v : ConfigScalar}
    (h : t = .array none a ∨ t = fresh ∧ a = v.toArray) : t.appendValue v =
      match a.append v with
      | none => .error ParserError.mismatchedTypes
      | some a => .ok (.array none a) := by
  obtain rfl | ⟨rfl, rfl⟩ := h <;> rfl

namespace JsonDocument

variable {l : List JsonDocument} {acc : ConfigTreeValue}

/-- A value at the end of an array. -/
theorem Holds.appendValue (h : Holds (.array l) acc) (v : JsonScalar)
    (htype : acc.type = .none ∨ acc.type = v.value.toArray.type) :
    ∃ acc', acc.appendValue v.value = .ok acc' ∧ Holds (.array (l ++ [.scalar v])) acc' ∧
      acc'.type = v.value.toArray.type := by
  cases h with
  | empty =>
    obtain ⟨a, ha⟩ := ConfigArray.append_of_type (a := v.value.toArray) (v := v.value) rfl
    refine ⟨.array none a, ?_, .values v [] a ?_, (ConfigArray.append_type ha).2⟩
    · rw [appendValue_eq (.inr ⟨rfl, rfl⟩), ha]
    · rw [List.foldlM_cons, ha]
      rfl
  | values v₀ vs a hfold =>
    have hsame := htype.resolve_left a.type_ne.1
    obtain ⟨a', ha'⟩ := ConfigArray.append_of_type (a := a) (v := v.value) hsame
    refine ⟨.array none a', ?_, ?_, (ConfigArray.append_type ha').2.trans hsame⟩
    · rw [appendValue_eq (.inl rfl), ha']
    · have hmore : (v₀ :: (vs ++ [v])).foldlM (fun a v => a.append v.value) v₀.value.toArray =
          some a' := by
        rw [← List.cons_append, List.foldlM_append, hfold]
        show [v].foldlM (fun a v => a.append v.value) a = some a'
        rw [List.foldlM_cons, ha']
        rfl
      have hmap : (v₀ :: vs).map JsonDocument.scalar ++ [.scalar v] =
          (v₀ :: (vs ++ [v])).map .scalar := by
        rw [← List.cons_append, List.map_append]
        rfl
      rw [hmap]
      exact .values v₀ (vs ++ [v]) a' hmore
  | trees v₀ vs items hitems =>
    have hsame : ConfigType.arrayTree = v.value.toArray.type := htype.resolve_left nofun
    exact absurd hsame.symm v.value.toArray.type_ne.2

theorem Holds.appendValue_error (h : Holds (.array l) acc) (v : JsonScalar)
    (htype : ¬(acc.type = .none ∨ acc.type = v.value.toArray.type)) :
    acc.appendValue v.value = .error .mismatchedTypes := by
  rw [not_or] at htype
  cases h with
  | empty => exact absurd rfl htype.1
  | values v₀ vs a hfold =>
    rw [appendValue_eq (.inl rfl), ConfigArray.append_eq_none htype.2]
  | trees v₀ vs items hitems => rfl

/-- A node at the end of an array. -/
theorem Holds.appendTree (h : Holds (.array l) acc)
    (htype : acc.type = .none ∨ acc.type = .arrayTree) :
    ∃ items : List ConfigTreeValue, items.length = l.length ∧
      (∀ c, acc.appendTree c = .ok (.trees none (Items.ofList (items ++ [c])), l.length)) ∧
      ∀ {v c}, Holds v c →
        Holds (.array (l ++ [v])) (.trees none (Items.ofList (items ++ [c]))) := by
  cases h with
  | empty =>
    exact ⟨[], rfl, fun _ => rfl, fun {v c} hc => .trees v [] [c] (.cons hc .nil)⟩
  | values v₀ vs a hfold => exact absurd htype (not_or.mpr a.type_ne)
  | trees v₀ vs items hitems =>
    refine ⟨items, hitems.length_eq.symm, fun c => ?_, fun {v c} hc => ?_⟩
    · rw [hitems.length_eq, ConfigTreeValue.appendTree]
      simp only [isSet, if_true, asTrees, Items.toList_ofList]
      rfl
    · exact .trees v₀ (vs ++ [v]) (items ++ [c])
        (List.rel_append hitems (.cons hc .nil))

theorem Holds.appendTree_error (h : Holds (.array l) acc)
    (htype : ¬(acc.type = .none ∨ acc.type = .arrayTree)) :
    ∃ e, e ≠ .freed ∧ ∀ c, acc.appendTree c = .error e := by
  cases h with
  | empty => exact absurd (.inl rfl) htype
  | values v₀ vs a hfold => exact ⟨.tree .invalidType, nofun, fun _ => rfl⟩
  | trees v₀ vs items hitems => exact absurd (.inr rfl) htype

end JsonDocument

/-! ### Maps that are made -/

/-- The nodes of a map have the values of members of their names. -/
def MapHolds (all : List (String × JsonDocument)) (m : Keyed String ConfigTreeValue) : Prop :=
  ∃ value : String → JsonDocument, (∀ k c, m.find k = some c → (k, value k) ∈ all) ∧
    ∀ k c, m.find k = some c → (value k).Holds c

namespace MapHolds

variable {all : List (String × JsonDocument)} {m : Keyed String ConfigTreeValue}

theorem empty : MapHolds all .empty := by
  have hnone : ∀ k c, (Keyed.empty : Keyed String ConfigTreeValue).find k = some c → False := by
    intro k c h
    rw [Keyed.find_empty] at h
    cases h
  exact ⟨fun _ => .null, fun k c h => (hnone k c h).elim, fun k c h => (hnone k c h).elim⟩

theorem insert (h : MapHolds all m) {k : String} {v : JsonDocument} {c : ConfigTreeValue}
    (hmem : (k, v) ∈ all) (hv : v.Holds c) : MapHolds all (m.insert k c) := by
  obtain ⟨value, hvalue, hholds⟩ := h
  refine ⟨Function.update value k v, fun k' c' hfind => ?_, fun k' c' hfind => ?_⟩
  · by_cases hk : k' = k
    · rw [hk, Function.update_self]
      exact hmem
    · rw [Keyed.find_insert_of_ne hk] at hfind
      rw [Function.update_of_ne hk]
      exact hvalue k' c' hfind
  · by_cases hk : k' = k
    · rw [hk, Keyed.find_insert_self] at hfind
      rw [hk, Function.update_self, ← Option.some.inj hfind]
      exact hv
    · rw [Keyed.find_insert_of_ne hk] at hfind
      rw [Function.update_of_ne hk]
      exact hholds k' c' hfind

end MapHolds

/-! ### The parser in a document -/

namespace Parser

open JsonDocument

variable {p : Parser} {T acc : ConfigTreeValue} {place : List Edge} {around contexts : List Context}

theorem follows_of_stack (h : p.stack = contexts) (e : JsonEvent) : p.Follows (contexts, e) := by
  cases e with
  | null => exact congrArg List.length h
  | _ => exact h

theorem handle_scalar (p : Parser) (v : JsonScalar) : p.handle v.event = p.setValue v.value := by
  cases v <;> rfl

/-- Values other than null begin with an event that needs their contexts. -/
theorem steps_eq_cons (contexts : List Context) (place : List Edge) (around : List Context)
    {v : JsonDocument} (h : v.isNull = false) :
    ∃ e rest, steps contexts place around v = (contexts, e) :: rest ∧
      ∀ p : Parser, p.Follows (contexts, e) → p.stack = contexts := by
  cases v with
  | null => cases h
  | scalar v => exact ⟨v.event, [], rfl, fun p hp => by cases v <;> exact hp⟩
  | array l => exact ⟨.startArray, _, rfl, fun p hp => hp⟩
  | object ms => exact ⟨.startObject, _, rfl, fun p hp => hp⟩

/-- What follows an element comes with the contexts of the array. -/
theorem elementSteps_eq_cons (place : List Edge) (i : Nat) (contexts : List Context)
    (l : List JsonDocument) :
    ∃ e rest, elementSteps place i contexts l ++ [(contexts, .endArray)] =
      (contexts, e) :: rest := by
  cases l with
  | nil => exact ⟨.endArray, [], rfl⟩
  | cons v l => cases v <;> exact ⟨_, _, rfl⟩

theorem length_of_follows {e : JsonEvent} (h : p.Follows (contexts, e)) :
    p.stack.length = contexts.length := by
  cases e with
  | null => exact h
  | _ => exact congrArg List.length h

/-- **A null in an array** takes the context of the array away. -/
theorem goes_null (l : List JsonDocument) (i : Nat) (next : Parser → Prop) :
    Goes ⟨T, openContext false place :: around⟩
      ((openContext false place :: around, .null) ::
        (elementSteps place i (openContext false place :: around) l ++
          [(openContext false place :: around, .endArray)])) next .irregular := by
  intro hsafe
  have hrest := hsafe.2.2 ⟨T, around⟩ rfl
  obtain ⟨e, rest, heq⟩ := elementSteps_eq_cons place i (openContext false place :: around) l
  rw [heq] at hrest
  have hlength : around.length = around.length + 1 := length_of_follows hrest.1
  omega

/-- **A value of a name that is repeated** comes with a node that is freed. -/
theorem goes_freed {v : JsonDocument} {rest : List Step} {next : Parser → Prop}
    (hnull : v.isNull = false) : Goes ⟨T, ⟨none, false, false⟩ :: contexts⟩
      (steps (valueContext place :: contexts) place contexts v ++ rest) next .irregular := by
  obtain ⟨e, more, heq, hstack⟩ :=
    steps_eq_cons (valueContext place :: contexts) place contexts hnull
  intro hsafe
  rw [heq] at hsafe
  have hcontexts := hstack _ hsafe.1
  cases hcontexts

/-- An element that does not have the type of its array. -/
theorem goes_mismatch {l : List JsonDocument} {v : JsonDocument} {rest : List Step} {i : Nat}
    {next : Parser → Prop} (hat : T.at_ place = some acc) (hacc : Holds (.array l) acc)
    (hnull : v.isNull = false) (htype : ¬(acc.type = .none ∨ acc.type = v.elementType)) :
    Goes ⟨T, openContext false place :: around⟩
      (steps (openContext false place :: around) (place ++ [.index i])
        (openContext false place :: around) v ++ rest) next .rejected := by
  have hopen : ∀ b, v.elementType = .arrayTree → ∃ e, e ≠ .freed ∧
      handle ⟨T, openContext false place :: around⟩ (openEvent b) = .error e := by
    intro b htree
    rw [htree] at htype
    obtain ⟨e, he, herror⟩ := hacc.appendTree_error htype
    refine ⟨e, he, (handle_open_item b hat false around).trans ?_⟩
    rw [herror]
    rfl
  cases v with
  | null => cases hnull
  | scalar v =>
    refine .rejected (follows_of_stack rfl _) ?_ (e := .mismatchedTypes) nofun
    rw [handle_scalar]
    refine (setValue_item hat false around v.value).trans ?_
    rw [hacc.appendValue_error v htype]
    rfl
  | array l' =>
    obtain ⟨e, he, herror⟩ := hopen false rfl
    exact .rejected (follows_of_stack rfl _) herror he
  | object ms =>
    obtain ⟨e, he, herror⟩ := hopen true rfl
    exact .rejected (follows_of_stack rfl _) herror he

/-- An element that is opened: what is in it is written to the node that is appended. -/
theorem goes_open_item (b : Bool) {v : JsonDocument} {l : List JsonDocument} {inner : List Step}
    {verdict : Verdict} (hat : T.at_ place = some acc) (hacc : Holds (.array l) acc)
    (htree : v.elementType = .arrayTree) (htype : acc.type = .none ∨ acc.type = v.elementType)
    (hinner : ∀ {T'}, T'.at_ (place ++ [.index l.length]) = some (openNode b) →
      Goes ⟨T', openContext b (place ++ [.index l.length]) :: openContext false place :: around⟩
        inner (fun p => ∃ t, v.Holds t ∧ p = ⟨replaceAt t (place ++ [.index l.length]) T',
          openContext false place :: around⟩) verdict) :
    Goes ⟨T, openContext false place :: around⟩
      ((openContext false place :: around, openEvent b) :: inner)
      (fun p => ∃ t, Holds (.array (l ++ [v])) t ∧ t.type = v.elementType ∧
        p = ⟨replaceAt t place T, openContext false place :: around⟩) verdict := by
  rw [htree] at htype ⊢
  obtain ⟨items, hlength, happend, hholds⟩ := hacc.appendTree htype
  have hopen := handle_open_item b hat false around
  rw [happend] at hopen
  rw [← hlength] at hinner hopen
  refine .cons (follows_of_stack rfl _) hopen ((hinner (at_child (child_last ..) hat)).mono ?_)
  rintro q ⟨t, ht, rfl⟩
  refine ⟨_, hholds ht, rfl, ?_⟩
  rw [replaceAt_child (child_last ..) t place hat, setChild_last]

section Key

variable {m : Keyed String ConfigTreeValue} {k : String}

/-- A name that is repeated: nothing is emplaced. -/
theorem handle_key_again (hat : T.at_ place = some (.map none m)) (hk : (m.find k).isSome) :
    handle ⟨T, openContext true place :: around⟩ (.key k) =
      .ok ⟨T, ⟨none, false, false⟩ :: openContext true place :: around⟩ := by
  obtain ⟨c, hc⟩ := Option.isSome_iff_exists.mp hk
  have hkey := key_top hat around k
  rw [hc] at hkey
  exact hkey

/-- A name with a null, where the name is repeated. -/
theorem goes_null_again (hat : T.at_ place = some (.map none m)) (hk : (m.find k).isSome) :
    Goes ⟨T, openContext true place :: around⟩
      ((openContext true place :: around, .key k) ::
        steps (valueContext (place ++ [.key k]) :: openContext true place :: around)
          (place ++ [.key k]) (openContext true place :: around) .null)
      (fun p => p = ⟨T, openContext true place :: around⟩) .fine :=
  .cons rfl (handle_key_again hat hk) (.single rfl rfl rfl)

/-- A name that is not repeated, with its value: what the value does to the new node is given. -/
theorem goes_new_name {v : JsonDocument} (hat : T.at_ place = some (.map none m))
    (hk : m.find k = none)
    (hvalue : ∀ {T'}, T'.at_ (place ++ [.key k]) = some fresh →
      Goes ⟨T', valueContext (place ++ [.key k]) :: openContext true place :: around⟩
        (steps (valueContext (place ++ [.key k]) :: openContext true place :: around)
          (place ++ [.key k]) (openContext true place :: around) v)
        (fun p => ∃ t, v.Holds t ∧ p = ⟨replaceAt t (place ++ [.key k]) T',
          openContext true place :: around⟩) v.verdict) :
    Goes ⟨T, openContext true place :: around⟩
      ((openContext true place :: around, .key k) ::
        steps (valueContext (place ++ [.key k]) :: openContext true place :: around)
          (place ++ [.key k]) (openContext true place :: around) v)
      (fun p => ∃ t, v.Holds t ∧ p = ⟨replaceAt (.map none (m.insert k t)) place T,
        openContext true place :: around⟩) v.verdict := by
  have hkey := key_top hat around k
  rw [hk] at hkey
  have hchild : (ConfigTreeValue.map none (m.insert k fresh)).child (.key k) = some fresh :=
    Keyed.find_insert_self k fresh m
  refine .cons rfl hkey ((hvalue (at_child hchild hat)).mono ?_)
  rintro q ⟨t, ht, rfl⟩
  have hset : (ConfigTreeValue.map none (m.insert k fresh)).setChild (.key k) t =
      .map none (m.insert k t) := congrArg (map none) (Keyed.insert_insert k fresh t m)
  refine ⟨t, ht, ?_⟩
  rw [replaceAt_child hchild t place hat, hset]

theorem isSome_find_insert {names : List String} (hnames : ∀ k, (m.find k).isSome ↔ k ∈ names)
    (t : ConfigTreeValue) (k' : String) :
    ((m.insert k t).find k').isSome ↔ k' ∈ k :: names := by
  rw [Keyed.find_insert, List.mem_cons, ← hnames]
  split
  next heq => exact iff_of_true rfl (.inl heq)
  next hne => exact (or_iff_right hne).symm

end Key

theorem holds_object {ms : List (String × JsonDocument)} {m : Keyed String ConfigTreeValue}
    (hkeys : ∀ k, (m.find k).isSome ↔ k ∈ ([] : List String) ∨ k ∈ ms.map Prod.fst)
    (hmap : MapHolds ms m) : Holds (.object ms) (.map none m) := by
  obtain ⟨value, hvalue, hholds⟩ := hmap
  refine .object ms m value (fun k => ?_) hvalue hholds
  rw [hkeys]
  simp

mutual

/-- A value with a node of its own. -/
theorem goes_value : ∀ (v : JsonDocument) {T : ConfigTreeValue} {place : List Edge}
    {around : List Context}, T.at_ place = some fresh →
    Goes ⟨T, valueContext place :: around⟩ (steps (valueContext place :: around) place around v)
      (fun p => ∃ t, v.Holds t ∧ p = ⟨replaceAt t place T, around⟩) v.verdict
  | .null, T, place, around, hat => by
    refine .single rfl (q := ⟨T, around⟩) rfl ⟨fresh, .null, ?_⟩
    rw [replaceAt_at place hat]
  | .scalar v, T, place, around, hat => by
    refine .single (follows_of_stack rfl _) ?_ ⟨_, .scalar v, rfl⟩
    rw [handle_scalar]
    exact setValue_top hat false around v.value
  | .array l, T, place, around, hat => by
    have hat' := at_replaceAt (openNode false) place hat
    have hgoes := goes_elements around l hat' .empty
    refine .cons rfl (handle_open_top false hat around) (hgoes.mono ?_)
    rintro q ⟨t, ht, rfl⟩
    exact ⟨t, ht, by rw [replaceAt_replaceAt _ t place hat]⟩
  | .object ms, T, place, around, hat => by
    have hat' := at_replaceAt (openNode true) place hat
    have hgoes := goes_members around [] ms ms hat' (fun k => by simp) .empty fun _ h => h
    refine .cons rfl (handle_open_top true hat around) (hgoes.mono ?_)
    rintro q ⟨m, hkeys, hmap, rfl⟩
    exact ⟨.map none m, holds_object hkeys hmap, by rw [replaceAt_replaceAt _ _ place hat]⟩

/-- An element that has the type of its array. -/
theorem goes_element : ∀ (v : JsonDocument) {l : List JsonDocument} {T acc : ConfigTreeValue}
    {place : List Edge} {around : List Context}, T.at_ place = some acc → Holds (.array l) acc →
    v.isNull = false → acc.type = .none ∨ acc.type = v.elementType →
    Goes ⟨T, openContext false place :: around⟩
      (steps (openContext false place :: around) (place ++ [.index l.length])
        (openContext false place :: around) v)
      (fun p => ∃ t, Holds (.array (l ++ [v])) t ∧ t.type = v.elementType ∧
        p = ⟨replaceAt t place T, openContext false place :: around⟩) v.verdict
  | .null, l, T, acc, place, around, hat, hacc, hnull, htype => nomatch hnull
  | .scalar v, l, T, acc, place, around, hat, hacc, hnull, htype => by
    obtain ⟨acc', happend, hacc', htype'⟩ := hacc.appendValue v htype
    refine .single (follows_of_stack rfl _) ?_ ⟨acc', hacc', htype', rfl⟩
    rw [handle_scalar]
    refine (setValue_item hat false around v.value).trans ?_
    rw [happend]
    rfl
  | .array l', l, T, acc, place, around, hat, hacc, hnull, htype =>
    goes_open_item false hat hacc rfl htype fun hat' => goes_elements _ l' hat' .empty
  | .object ms, l, T, acc, place, around, hat, hacc, hnull, htype => by
    refine goes_open_item true hat hacc rfl htype fun hat' => ?_
    refine (goes_members _ [] ms ms hat' (fun k => by simp) .empty fun _ h => h).mono ?_
    rintro q ⟨m, hkeys, hmap, rfl⟩
    exact ⟨.map none m, holds_object hkeys hmap, rfl⟩

theorem goes_elements (around : List Context) : ∀ (rest : List JsonDocument)
    {l : List JsonDocument} {T acc : ConfigTreeValue} {place : List Edge},
    T.at_ place = some acc → Holds (.array l) acc →
    Goes ⟨T, openContext false place :: around⟩
      (elementSteps place l.length (openContext false place :: around) rest ++
        [(openContext false place :: around, .endArray)])
      (fun p => ∃ t, Holds (.array (l ++ rest)) t ∧ p = ⟨replaceAt t place T, around⟩)
      (elementsVerdict acc.type rest)
  | [], l, T, acc, place, hat, hacc => by
    refine .single rfl (q := ⟨T, around⟩) rfl ⟨acc, ?_, ?_⟩
    · rwa [List.append_nil]
    · rw [replaceAt_at place hat]
  | v :: rest, l, T, acc, place, hat, hacc => by
    rw [elementSteps, elementsVerdict, List.append_assoc]
    split
    next hnull =>
      cases v with
      | null => exact goes_null rest _ _
      | _ => cases hnull
    next hnull =>
      have hnull := Bool.eq_false_of_not_eq_true hnull
      split
      next htype =>
        refine (goes_element v hat hacc hnull htype).append ?_
        rintro q ⟨acc', hacc', htype', rfl⟩
        have hgoes := goes_elements around rest (at_replaceAt acc' place hat) hacc'
        rw [List.length_append, htype'] at hgoes
        refine hgoes.mono ?_
        rintro q ⟨t, ht, rfl⟩
        refine ⟨t, ?_, ?_⟩
        · rwa [List.append_assoc] at ht
        · rw [replaceAt_replaceAt _ t place hat]
      next htype => exact goes_mismatch hat hacc hnull htype

theorem goes_members (around : List Context) (names : List String)
    (all : List (String × JsonDocument)) : ∀ (ms : List (String × JsonDocument))
    {m : Keyed String ConfigTreeValue} {T : ConfigTreeValue} {place : List Edge},
    T.at_ place = some (.map none m) →
    (∀ k, (m.find k).isSome ↔ k ∈ names) → MapHolds all m → (∀ x ∈ ms, x ∈ all) →
    Goes ⟨T, openContext true place :: around⟩
      (memberSteps place (openContext true place :: around) ms ++
        [(openContext true place :: around, .endObject)])
      (fun p => ∃ m', (∀ k, (m'.find k).isSome ↔ k ∈ names ∨ k ∈ ms.map Prod.fst) ∧
        MapHolds all m' ∧ p = ⟨replaceAt (.map none m') place T, around⟩) (membersVerdict names ms)
  | [], m, T, place, hat, hnames, hmap, hall => by
    refine .single rfl (q := ⟨T, around⟩) rfl ⟨m, fun k => ?_, hmap, ?_⟩
    · rw [hnames]
      simp
    · rw [replaceAt_at place hat]
  | (k, v) :: ms, m, T, place, hat, hnames, hmap, hall => by
    have hall' : ∀ x ∈ ms, x ∈ all := fun x hx => hall x (List.mem_cons_of_mem _ hx)
    rw [memberSteps, membersVerdict, List.cons_append, List.append_assoc]
    split
    next hk =>
      have hfind := (hnames k).mpr hk
      split
      next hnull =>
        cases v with
        | null =>
          refine (goes_null_again hat hfind).append ?_
          rintro q rfl
          refine (goes_members around names all ms hat hnames hmap hall').mono ?_
          rintro q ⟨m', hkeys, hmap', rfl⟩
          refine ⟨m', fun k' => ?_, hmap', rfl⟩
          rw [hkeys, List.map_cons, List.mem_cons]
          constructor
          · exact fun h => h.imp id .inr
          · rintro (h | rfl | h)
            · exact .inl h
            · exact .inl hk
            · exact .inr h
        | _ => cases hnull
      next hnull =>
        have hnull := Bool.eq_false_of_not_eq_true hnull
        exact .cons rfl (handle_key_again hat hfind) (goes_freed hnull)
    next hk =>
      have hfind : m.find k = none :=
        Option.not_isSome_iff_eq_none.mp fun h => hk ((hnames k).mp h)
      refine (goes_new_name hat hfind fun hat' => goes_value v hat').append ?_
      rintro q ⟨t, ht, rfl⟩
      refine (goes_members around (k :: names) all ms (at_replaceAt _ place hat)
        (isSome_find_insert hnames t) (hmap.insert (hall _ List.mem_cons_self) ht) hall').mono ?_
      rintro q ⟨m', hkeys, hmap', rfl⟩
      refine ⟨m', fun k' => ?_, hmap', ?_⟩
      · rw [hkeys, List.map_cons, List.mem_cons, List.mem_cons, or_assoc, or_left_comm]
      · rw [replaceAt_replaceAt _ _ place hat]

end

end Parser

namespace JsonDocument

/-- **The stack is safe** if and only if what is found first in the document, if anything is, is an
element without the type of its array. -/
theorem stackSafe_iff (d : JsonDocument) : d.StackSafe ↔ d.verdict ≠ .irregular := by
  have hgoes : start.Goes d.rootSteps
      (fun p => ∃ t, d.Holds t ∧ p = ⟨replaceAt t [] fresh, []⟩) d.verdict := goes_value d rfl
  constructor
  · intro h hverdict
    rw [hverdict] at hgoes
    exact hgoes h.safe
  · intro hverdict
    cases hd : d.verdict with
    | fine =>
      rw [hd] at hgoes
      obtain ⟨hsafe, q, hq, t, ht, rfl⟩ := hgoes
      refine ⟨hsafe, fun p hp => ?_⟩
      obtain rfl := Except.ok.inj (hq.symm.trans hp)
      exact ⟨rfl, ht⟩
    | rejected =>
      rw [hd] at hgoes
      obtain ⟨hsafe, e, he⟩ := hgoes
      refine ⟨hsafe, fun p hp => ?_⟩
      cases he.symm.trans hp
    | irregular => exact absurd hd hverdict

/-- The text `{"a":true,"a":false}`. -/
def repeatedName : JsonDocument :=
  .object [("a", .scalar (.bool true)), ("a", .scalar (.bool false))]

/-- The text `{"a":[null,true]}`. -/
def nullElement : JsonDocument := .object [("a", .array [.null, .scalar (.bool true)])]

/-- The second value of a name is written to a node that is freed.  What follows a null in an array
is written to the node of the object, which was the root. -/
theorem repeatedName_not_safe :
    start.run (repeatedName.rootSteps.map Prod.snd) = .error .freed ∧ ¬repeatedName.StackSafe ∧
    start.run ((nullElement.rootSteps.take 5).map Prod.snd) =
      .ok ⟨.scalar none (.bool true), []⟩ ∧ ¬nullElement.StackSafe := by
  refine ⟨rfl, fun h => ?_, rfl, fun h => ?_⟩
  · have hgoes : start.Goes repeatedName.rootSteps _ .irregular := goes_value repeatedName rfl
    exact hgoes h.safe
  · have hgoes : start.Goes nullElement.rootSteps _ .irregular := goes_value nullElement rfl
    exact hgoes h.safe

end JsonDocument

end Hatn.Base
