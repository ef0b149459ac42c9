import Hatn.Base.ConfigTree
import Hatn.Base.ConfigTreeValue

/-!
# Paths in a configuration tree

A path has sections, which are keys of maps or indices in arrays of nodes.  A path is looked for as
far as there are nodes (`doGet`), and may be created from there on (`buildPath`); `remove` takes the
entry of a map away.

Paths that are no parts of one another should have nothing to do with one another.  There are two
reasons that they may have (`pathRight_iff`).  A section is read as an index in a lenient way, so that
the node in an array is at many paths; and `remove` takes the parent of the path for a map, whatever
it is.
-/

namespace Hatn.Base

open Tables

/-- `numberAt` -/
def numberAt (s : String) : Option Nat := (Section.key s).number

namespace ConfigTreeValue

/-- One section of the path in `doGet`. -/
def step (t : ConfigTreeValue) (s : String) : Except ConfigTreeError (Edge × ConfigTreeValue) :=
  match t.asMap with
  | .ok m =>
    match m.find s with
    | none => .error .valueNotSet
    | some c => .ok (.key s, c)
  | .error e =>
    if t.type = .arrayTree then
      match numberAt s, t.asTrees with
      | none, _ => .error .stringNotNumber
      | some _, .error e => .error e
      | some pos, .ok items =>
        match items.find pos with
        | none => .error .resultOutOfRange
        | some c => .ok (.index pos, c)
    else .error e

/-- What `doGet` finds: the last node that it comes to and its place, and the sections from `depth`
on, which are left. -/
structure Lookup where
  place : List Edge
  current : ConfigTreeValue
  rest : List String
  error : Option ConfigTreeError

def doGet : List String → ConfigTreeValue → Lookup
  | [], t => ⟨[], t, [], none⟩
  | s :: path, t =>
    if s = "" then doGet path t
    else
      match t.step s with
      | .error error => ⟨[], t, s :: path, some error⟩
      | .ok (e, c) => { doGet path c with place := e :: (doGet path c).place }

/-- The node that a path resolves to, with its place. -/
def resolve (path : List String) (t : ConfigTreeValue) : Option (List Edge × ConfigTreeValue) :=
  match (doGet path t).error with
  | none => some ((doGet path t).place, (doGet path t).current)
  | some _ => none

/-- The tree with another node at a place. -/
def replaceAt (c : ConfigTreeValue) : List Edge → ConfigTreeValue → ConfigTreeValue
  | [], _ => c
  | e :: place, t =>
    match t.child e with
    | none => t
    | some t' => t.setChild e (replaceAt c place t')

/-- The node for a section in `buildPath`, and the position if it is an array. -/
def sectionNode (force : Bool) (s : String) (t : ConfigTreeValue) :
    Except ConfigTreeError (ConfigTreeValue × Nat) :=
  let t :=
    if !t.isSet || (t.type ≠ .map && t.type ≠ .arrayTree && force) then t.toMap else t
  if t.type = .arrayTree then
    match numberAt s with
    | some pos => .ok (t, pos)
    | none => if force then .ok (t.toMap, 0) else .error .stringNotNumber
  else .ok (t, 0)

/-- The loop of `buildPath`: the node with what is created below it, and the place of the last node
from there, or an error. -/
def build (force : Bool) :
    List String → ConfigTreeValue → ConfigTreeValue × Except ConfigTreeError (List Edge)
  | [], t => (t, .ok [])
  | s :: path, t =>
    if s = "" then build force path t
    else
      match sectionNode force s t with
      | .error error => (t, .error error)
      | .ok (t, pos) =>
        match t.asMap with
        | .ok m =>
          -- `emplace` leaves an entry that is there
          let r := build force path ((m.find s).getD fresh)
          (t.setChild (.key s) r.1, r.2.map (.key s :: ·))
        | .error error =>
          if t.type = .arrayTree then
            match t.asTrees with
            | .error error => (t, .error error)
            | .ok items =>
              if pos < items.size then
                let r := build force path fresh
                (t.setChild (.index pos) r.1, r.2.map (.index pos :: ·))
              else (t, .error .resultOutOfRange)
          else (t, .error error)

def buildPath (force : Bool) (path : List String) (t : ConfigTreeValue) :
    ConfigTreeValue × Except ConfigTreeError (List Edge) :=
  let r := doGet path t
  let b := build force r.rest r.current
  (replaceAt b.1 r.place t, b.2.map (r.place ++ ·))

/-- `getImpl` with `autoCreatePath` -/
def create (path : List String) (t : ConfigTreeValue) :
    ConfigTreeValue × Except ConfigTreeError (List Edge) :=
  match (doGet path t).error with
  | none => (t, .ok (doGet path t).place)
  | some _ => buildPath true path t

/-- `isSet` of a path -/
def isSetAt (path : List String) (t : ConfigTreeValue) : Bool :=
  match (doGet path t).error with
  | none => (doGet path t).current.isSet
  | some _ => false

/-- `remove`.  The check there is of the result that was checked before, so that the map is used
unchecked: then the result throws, and `remove` may not. -/
def remove (path : List String) (t : ConfigTreeValue) : Option ConfigTreeValue :=
  match path.getLast? with
  | none => some fresh
  | some back =>
    let r := doGet path.dropLast t
    match r.error with
    | some _ => some t
    | none =>
      match r.current.asMap with
      | .ok m => some (replaceAt (map r.current.default_ (m.erase back)) r.place t)
      | .error _ => none

/-! ### What paths are for -/

/-- What a path resolves to. -/
def node (path : List String) (t : ConfigTreeValue) : Option ConfigTreeValue :=
  (t.resolve path).map Prod.snd

/-- The path leads to an index that is not in its array. -/
def Outside (path : List String) (t : ConfigTreeValue) : Prop :=
  (doGet path t).error = some .resultOutOfRange

/-- A section of the path meets a scalar, an unset node, or an array as which it is no index. -/
def Excused (path : List String) (t : ConfigTreeValue) : Prop :=
  (doGet path t).error ≠ none ∧
    match (doGet path t).current with
    | unset _ | scalar _ _ => True
    | array _ _ | trees _ _ => ∃ s ∈ (doGet path t).rest.head?, numberAt s = none
    | map _ _ => False

/-- Creating `p` makes it resolve, and leaves what `q` resolves to. -/
structure Created (p q : List String) (t : ConfigTreeValue) : Prop where
  outside : t.Outside p → t.create p = (t, .error .resultOutOfRange)
  resolves : ¬ t.Outside p → ∃ place c, (t.create p).2 = .ok place ∧
    (t.create p).1.resolve p = some (place, c)
  left : ¬ t.Outside p → ¬ t.Excused p → (t.create p).1.node q = t.node q

/-- Removing `p` does not fail, `p` is not set then, and what `q` resolves to is left. -/
def Removed (p q : List String) (t : ConfigTreeValue) : Prop :=
  ∃ t', t.remove p = some t' ∧ t'.isSetAt p = false ∧ t'.node q = t.node q

/-- The paths do not resolve to the same node. -/
def Distinct (p q : List String) (t : ConfigTreeValue) : Prop :=
  ∀ place c d, t.resolve p = some (place, c) → t.resolve q ≠ some (place, d)

/-- **The path has nothing to do with others** that are not a part of it, nor it of them. -/
def PathRight (p : List String) (t : ConfigTreeValue) : Prop :=
  ∀ q, "" ∉ q → (p ≠ q → t.Distinct p q) ∧
    (¬ p <+: q → ¬ q <+: p → t.Created p q ∧ t.Removed p q)

/-- The parent of the path is a map, if it resolves; and the path leads through no array of nodes,
unless it ends where it may. -/
structure Plain (p : List String) (t : ConfigTreeValue) : Prop where
  parent : p ≠ [] → ∀ place c, t.resolve p.dropLast = some (place, c) → c.type = .map
  items : (∀ i, Edge.index i ∉ (doGet p t).place) ∨ t.Excused p ∨ t.Outside p

/-! ### Sections -/

variable {t c c' : ConfigTreeValue} {s : String} {p q : List String} {e : Edge}
  {place : List Edge} {error : ConfigTreeError}

theorem step_map (d : Option ConfigScalar) (m : Keyed String ConfigTreeValue) (s : String) :
    (map d m).step s = match m.find s with
      | none => .error .valueNotSet
      | some c => .ok (.key s, c) := rfl

theorem step_trees (d : Option ConfigScalar) (items : Items ConfigTreeValue) (s : String) :
    (trees d items).step s = match numberAt s with
      | none => .error .stringNotNumber
      | some i => match items.find i with
        | none => .error .resultOutOfRange
        | some c => .ok (.index i, c) := by
  have htype : (trees d items).type = .arrayTree := rfl
  rw [step]
  dsimp only [asMap, asTrees]
  rw [if_pos htype]
  cases numberAt s <;> rfl

theorem step_trees_of_find (d : Option ConfigScalar) {items : Items ConfigTreeValue} {i : Nat}
    (hs : numberAt s = some i) (h : items.find i = some c) :
    (trees d items).step s = .ok (.index i, c) := by
  rw [step_trees, hs]
  dsimp only
  rw [h]

/-- What a section does at a node. -/
theorem step_cases (t : ConfigTreeValue) (s : String) :
    (∃ d m, t = map d m ∧
      t.step s = match m.find s with
        | none => .error .valueNotSet
        | some c => .ok (.key s, c)) ∨
    (∃ d items, t = trees d items ∧
      t.step s = match numberAt s with
        | none => .error .stringNotNumber
        | some i => match items.find i with
          | none => .error .resultOutOfRange
          | some c => .ok (.index i, c)) ∨
    (t.type ≠ .map ∧ t.type ≠ .arrayTree ∧
      ∃ error, t.step s = .error error ∧ error ≠ .resultOutOfRange) := by
  cases t with
  | unset d => exact .inr (.inr ⟨nofun, nofun, _, rfl, nofun⟩)
  | scalar d v => exact .inr (.inr ⟨by cases v <;> nofun, by cases v <;> nofun, .invalidType,
      by cases v <;> rfl, nofun⟩)
  | array d a => exact .inr (.inr ⟨by cases a <;> nofun, by cases a <;> nofun, .invalidType,
      by cases a <;> rfl, nofun⟩)
  | trees d items =>
    exact .inr (.inl ⟨d, items, rfl, step_trees d items s⟩)
  | map d m => exact .inl ⟨d, m, rfl, step_map d m s⟩

theorem step_ok (h : t.step s = .ok (e, c)) :
    t.child e = some c ∧ ((e = .key s ∧ ∃ d m, t = map d m ∧ m.find s = some c) ∨
      ∃ i d items, e = .index i ∧ numberAt s = some i ∧ t = trees d items ∧
        items.find i = some c) := by
  obtain ⟨d, m, rfl, hstep⟩ | ⟨d, items, rfl, hstep⟩ | ⟨-, -, error, hstep, -⟩ := t.step_cases s
  · rw [hstep] at h
    cases hfind : m.find s with
    | none =>
      rw [hfind] at h
      cases h
    | some c' =>
      rw [hfind] at h
      cases h
      exact ⟨hfind, .inl ⟨rfl, d, m, rfl, hfind⟩⟩
  · rw [hstep] at h
    cases hnumber : numberAt s with
    | none =>
      rw [hnumber] at h
      cases h
    | some i =>
      cases hfind : items.find i with
      | none =>
        rw [hnumber] at h
        dsimp only at h
        rw [hfind] at h
        cases h
      | some c' =>
        rw [hnumber] at h
        dsimp only at h
        rw [hfind] at h
        cases h
        exact ⟨hfind, .inr ⟨i, d, items, rfl, rfl, rfl, hfind⟩⟩
  · rw [hstep] at h
    cases h

/-- The section leads to the node that is put at its edge. -/
theorem step_setChild (h : t.step s = .ok (e, c)) (c' : ConfigTreeValue) :
    (t.setChild e c').step s = .ok (e, c') := by
  obtain ⟨-, ⟨rfl, d, m, rfl, -⟩ | ⟨i, d, items, rfl, hs, rfl, hfind⟩⟩ := step_ok h
  · rw [setChild, step_map, Keyed.find_insert_self]
  · exact step_trees_of_find d hs (Items.find_set_self (Items.find_eq_some_iff.mp hfind).1 c')

theorem doGet_cons_ok (hs : s ≠ "") (h : t.step s = .ok (e, c)) (p : List String) :
    doGet (s :: p) t = { doGet p c with place := e :: (doGet p c).place } := by
  rw [doGet, if_neg hs, h]

theorem doGet_cons_error (hs : s ≠ "") (h : t.step s = .error error) (p : List String) :
    doGet (s :: p) t = ⟨[], t, s :: p, some error⟩ := by
  rw [doGet, if_neg hs, h]

@[simp] theorem resolve_nil (t : ConfigTreeValue) : t.resolve [] = some ([], t) := rfl

theorem resolve_cons_ok (hs : s ≠ "") (h : t.step s = .ok (e, c)) (p : List String) :
    t.resolve (s :: p) = (c.resolve p).map fun r => (e :: r.1, r.2) := by
  rw [resolve, doGet_cons_ok hs h, resolve]
  cases (doGet p c).error <;> rfl

theorem resolve_cons_error (hs : s ≠ "") (h : t.step s = .error error) (p : List String) :
    t.resolve (s :: p) = none := by
  rw [resolve, doGet_cons_error hs h]

theorem resolve_eq_some_iff : t.resolve p = some (place, c) ↔
    (doGet p t).error = none ∧ (doGet p t).place = place ∧ (doGet p t).current = c := by
  rw [resolve]
  cases (doGet p t).error with
  | none => simp
  | some error => simp

theorem node_cons_ok (hs : s ≠ "") (h : t.step s = .ok (e, c)) (p : List String) :
    t.node (s :: p) = c.node p := by
  rw [node, resolve_cons_ok hs h, Option.map_map]
  rfl

theorem node_cons_error (hs : s ≠ "") (h : t.step s = .error error) (p : List String) :
    t.node (s :: p) = none := by
  rw [node, resolve_cons_error hs h]
  rfl

theorem ne_of_not_mem (h : "" ∉ s :: p) : s ≠ "" ∧ "" ∉ p :=
  ⟨fun hs => h (hs ▸ List.mem_cons_self), fun hp => h (List.mem_cons_of_mem s hp)⟩

/-- Equal sections: the paths are parts of one another just when their ends are. -/
theorem cons_incomparable (h : ¬ s :: p <+: s :: q ∧ ¬ s :: q <+: s :: p) :
    ¬ p <+: q ∧ ¬ q <+: p :=
  ⟨fun hp => h.1 (List.cons_prefix_cons.mpr ⟨rfl, hp⟩),
    fun hq => h.2 (List.cons_prefix_cons.mpr ⟨rfl, hq⟩)⟩

/-! ### Replacing a node -/

theorem replaceAt_self (path : List String) : ∀ t : ConfigTreeValue, "" ∉ path →
    replaceAt (doGet path t).current (doGet path t).place t = t := by
  induction path with
  | nil => exact fun t _ => rfl
  | cons s path ih =>
    intro t hpath
    obtain ⟨hs, hpath⟩ := ne_of_not_mem hpath
    cases hstep : t.step s with
    | error error =>
      rw [doGet_cons_error hs hstep]
      rfl
    | ok r =>
      obtain ⟨e, c⟩ := r
      rw [doGet_cons_ok hs hstep, replaceAt, (step_ok hstep).1]
      dsimp only
      rw [ih c hpath]
      exact setChild_of_child (step_ok hstep).1

/-- The path leads to the node that replaces the one there. -/
theorem resolve_replaceAt (path : List String) : ∀ {t : ConfigTreeValue} {place : List Edge},
    "" ∉ path → t.resolve path = some (place, c) → ∀ c' : ConfigTreeValue,
      (replaceAt c' place t).resolve path = some (place, c') := by
  induction path with
  | nil =>
    intro t place _ h c'
    cases h
    rfl
  | cons s path ih =>
    intro t place hpath h c'
    obtain ⟨hs, hpath⟩ := ne_of_not_mem hpath
    cases hstep : t.step s with
    | error error =>
      rw [resolve_cons_error hs hstep] at h
      cases h
    | ok r =>
      obtain ⟨e, d⟩ := r
      rw [resolve_cons_ok hs hstep] at h
      obtain ⟨⟨place', c₁⟩, hr, heq⟩ := Option.map_eq_some_iff.mp h
      cases heq
      have hchild := (step_ok hstep).1
      rw [replaceAt, hchild]
      dsimp only
      rw [resolve_cons_ok hs (step_setChild hstep _), ih hpath hr c']
      rfl

/-! ### Creating a path -/

/-- A map is made of a node at which the section ends, if it is none, and has no entry for it. -/
theorem toMap_of_step (h : t.step s = .error error) (hout : error ≠ .resultOutOfRange) :
    ∃ d m pos, t.toMap = map d m ∧ m.find s = none ∧ sectionNode true s t = .ok (map d m, pos) := by
  cases t with
  | unset d => exact ⟨d, .empty, 0, rfl, Keyed.find_empty s, rfl⟩
  | scalar d v => exact ⟨d, .empty, 0, rfl, Keyed.find_empty s, by cases v <;> rfl⟩
  | array d a => exact ⟨d, .empty, 0, rfl, Keyed.find_empty s, by cases a <;> rfl⟩
  | trees d items =>
    rw [step_trees] at h
    cases hs : numberAt s with
    | none =>
      refine ⟨d, .empty, 0, rfl, Keyed.find_empty s, ?_⟩
      show (match numberAt s with | some pos => _ | none => _) = _
      rw [hs]
      rfl
    | some i =>
      rw [hs] at h
      dsimp only at h
      split at h
      · exact absurd (Except.error.inj h).symm hout
      · cases h
  | map d m =>
    rw [step_map] at h
    cases hfind : m.find s with
    | none => exact ⟨d, m, 0, rfl, hfind, rfl⟩
    | some c =>
      rw [hfind] at h
      cases h

/-- Where the section ends, it is created as a key. -/
theorem build_cons (hs : s ≠ "") (h : t.step s = .error error) (hout : error ≠ .resultOutOfRange)
    (p : List String) : build true (s :: p) t =
      (t.toMap.setChild (.key s) (build true p fresh).1,
        (build true p fresh).2.map (.key s :: ·)) := by
  obtain ⟨d, m, pos, hmap, hfind, hnode⟩ := toMap_of_step h hout
  rw [build, if_neg hs, hnode, hmap]
  dsimp only [asMap]
  rw [hfind, Option.getD_none]

theorem build_outside (hs : s ≠ "") (h : t.step s = .error .resultOutOfRange) (p : List String) :
    build true (s :: p) t = (t, .error .resultOutOfRange) := by
  obtain ⟨d, m, rfl, hstep⟩ | ⟨d, items, rfl, hstep⟩ | ⟨-, -, error, hstep, hne⟩ := t.step_cases s
  · rw [hstep] at h
    split at h <;> cases h
  · rw [hstep] at h
    cases hnumber : numberAt s with
    | none =>
      rw [hnumber] at h
      cases h
    | some i =>
      rw [hnumber] at h
      dsimp only at h
      split at h
      next hfind =>
        have hnode : sectionNode true s (trees d items) = .ok (trees d items, i) := by
          show (match numberAt s with | some pos => _ | none => _) = _
          rw [hnumber]
          rfl
        have hsize : ¬ i < items.size := Nat.not_lt_of_le (Items.find_eq_none_iff.mp hfind)
        have htype : (trees d items).type = .arrayTree := rfl
        rw [build, if_neg hs, hnode]
        dsimp only [asMap, asTrees]
        rw [if_pos htype, if_neg hsize]
      next => cases h
  · rw [hstep] at h
    exact absurd (Except.error.inj h) hne

theorem create_cons_ok (hs : s ≠ "") (h : t.step s = .ok (e, c)) (p : List String) :
    t.create (s :: p) =
      (t.setChild e (c.create p).1, (c.create p).2.map (e :: ·)) := by
  rw [create, doGet_cons_ok hs h, create]
  dsimp only
  cases hget : (doGet p c).error with
  | none => exact congrArg (·, _) (setChild_of_child (step_ok h).1).symm
  | some error =>
    dsimp only
    rw [buildPath, doGet_cons_ok hs h]
    dsimp only
    rw [replaceAt, (step_ok h).1, buildPath]
    dsimp only
    cases (build true (doGet p c).rest (doGet p c).current).2 <;> rfl

theorem create_cons_error (hs : s ≠ "") (h : t.step s = .error error) (p : List String) :
    t.create (s :: p) = build true (s :: p) t := by
  rw [create, doGet_cons_error hs h]
  dsimp only
  rw [buildPath, doGet_cons_error hs h]
  dsimp only
  rw [replaceAt]
  cases hbuild : build true (s :: p) t with
  | mk t' r => cases r <;> rfl

theorem step_toMap_setChild (h : t.step s = .error error) (hout : error ≠ .resultOutOfRange)
    (c : ConfigTreeValue) : (t.toMap.setChild (.key s) c).step s = .ok (.key s, c) := by
  obtain ⟨d, m, pos, hmap, -, -⟩ := toMap_of_step h hout
  rw [hmap, setChild, step_map, Keyed.find_insert_self]

theorem step_fresh (s : String) : fresh.step s = .error .valueNotSet := rfl

/-- What is built in a new node. -/
theorem build_fresh (p : List String) : "" ∉ p →
    (build true p fresh).2 = .ok (p.map Edge.key) ∧
      (build true p fresh).1.resolve p = some (p.map Edge.key, fresh) := by
  induction p with
  | nil => exact fun _ => ⟨rfl, rfl⟩
  | cons s p ih =>
    intro hp
    obtain ⟨hs, hp⟩ := ne_of_not_mem hp
    obtain ⟨hok, hresolve⟩ := ih hp
    have hne : ConfigTreeError.valueNotSet ≠ .resultOutOfRange := nofun
    rw [build_cons hs (step_fresh s) hne]
    constructor
    · rw [hok]
      rfl
    · rw [resolve_cons_ok hs (step_toMap_setChild (step_fresh s) hne _), hresolve]
      rfl

/-- **A path that is created** resolves then. -/
theorem create_resolves (p : List String) : ∀ {t : ConfigTreeValue}, "" ∉ p → ¬ t.Outside p →
    ∃ place c, (t.create p).2 = .ok place ∧ (t.create p).1.resolve p = some (place, c) := by
  induction p with
  | nil => exact fun {t} _ _ => ⟨[], t, rfl, rfl⟩
  | cons s p ih =>
    intro t hp hout
    obtain ⟨hs, hp⟩ := ne_of_not_mem hp
    cases hstep : t.step s with
    | ok r =>
      obtain ⟨e, c⟩ := r
      rw [Outside, doGet_cons_ok hs hstep] at hout
      obtain ⟨place, c', hok, hresolve⟩ := ih hp hout
      refine ⟨e :: place, c', ?_, ?_⟩
      · rw [create_cons_ok hs hstep, hok]
        rfl
      · rw [create_cons_ok hs hstep, resolve_cons_ok hs (step_setChild hstep _), hresolve]
        rfl
    | error error =>
      have hne : error ≠ .resultOutOfRange := by
        rw [Outside, doGet_cons_error hs hstep] at hout
        exact fun herror => hout (congrArg some herror)
      obtain ⟨hok, hresolve⟩ := build_fresh p hp
      refine ⟨.key s :: p.map .key, fresh, ?_, ?_⟩
      · rw [create_cons_error hs hstep, build_cons hs hstep hne, hok]
        rfl
      · rw [create_cons_error hs hstep, build_cons hs hstep hne,
          resolve_cons_ok hs (step_toMap_setChild hstep hne _), hresolve]
        rfl

/-- A path outside of an array is not created. -/
theorem create_outside (p : List String) : ∀ {t : ConfigTreeValue}, "" ∉ p → t.Outside p →
    t.create p = (t, .error .resultOutOfRange) := by
  induction p with
  | nil => exact fun _ h => nomatch h
  | cons s p ih =>
    intro t hp hout
    obtain ⟨hs, hp⟩ := ne_of_not_mem hp
    cases hstep : t.step s with
    | ok r =>
      obtain ⟨e, c⟩ := r
      rw [Outside, doGet_cons_ok hs hstep] at hout
      rw [create_cons_ok hs hstep, ih hp hout, setChild_of_child (step_ok hstep).1]
      rfl
    | error error =>
      rw [Outside, doGet_cons_error hs hstep] at hout
      cases hout
      rw [create_cons_error hs hstep, build_outside hs hstep]

/-! ### What is left of other paths -/

/-- Another section at a map with a new entry. -/
theorem node_setChild_of_ne {d : Option ConfigScalar} {m : Keyed String ConfigTreeValue}
    {s' : String} (hs' : s' ≠ "") (hne : s' ≠ s) (c : ConfigTreeValue) (q : List String) :
    ((map d m).setChild (.key s) c).node (s' :: q) = (map d m).node (s' :: q) := by
  have hstep : ((map d m).setChild (.key s) c).step s' = (map d m).step s' := by
    rw [setChild, step_map, step_map, Keyed.find_insert_of_ne hne]
  cases h : (map d m).step s' with
  | error error => rw [node_cons_error hs' (hstep.trans h), node_cons_error hs' h]
  | ok r => rw [node_cons_ok hs' (hstep.trans h), node_cons_ok hs' h]

theorem node_map_empty (hs : s ≠ "") (d : Option ConfigScalar) (q : List String) :
    (map d .empty).node (s :: q) = none :=
  node_cons_error hs (by rw [step_map, Keyed.find_empty]) q

/-- In a new node, nothing but the path is built. -/
theorem node_build_fresh (p : List String) : ∀ q : List String, "" ∉ p → "" ∉ q →
    ¬ p <+: q → ¬ q <+: p → (build true p fresh).1.node q = none := by
  induction p with
  | nil => exact fun q _ _ h _ => absurd List.nil_prefix h
  | cons s p ih =>
    intro q hp hq hpq hqp
    obtain ⟨hs, hp'⟩ := ne_of_not_mem hp
    have hne : ConfigTreeError.valueNotSet ≠ .resultOutOfRange := nofun
    rw [build_cons hs (step_fresh s) hne]
    cases q with
    | nil => exact absurd List.nil_prefix hqp
    | cons s' q =>
      obtain ⟨hs', hq'⟩ := ne_of_not_mem hq
      by_cases hsame : s' = s
      · subst hsame
        obtain ⟨hpq, hqp⟩ := cons_incomparable ⟨hpq, hqp⟩
        rw [node_cons_ok hs' (step_toMap_setChild (step_fresh s') hne _)]
        exact ih q hp' hq' hpq hqp
      · exact (node_setChild_of_ne hs' hsame _ q).trans (node_map_empty hs' none q)

/-- **Creating a path** through maps leaves what the other paths resolve to. -/
theorem node_create (p : List String) : ∀ {t : ConfigTreeValue} {q : List String}, "" ∉ p →
    "" ∉ q → ¬ p <+: q → ¬ q <+: p → (∀ i, Edge.index i ∉ (doGet p t).place) →
      ¬ t.Excused p → (t.create p).1.node q = t.node q := by
  induction p with
  | nil => exact fun _ _ h _ _ _ => absurd List.nil_prefix h
  | cons s p ih =>
    intro t q hp hq hpq hqp hkeys hexcused
    obtain ⟨hs, hp'⟩ := ne_of_not_mem hp
    cases q with
    | nil => exact absurd List.nil_prefix hqp
    | cons s' q =>
      obtain ⟨hs', hq'⟩ := ne_of_not_mem hq
      cases hstep : t.step s with
      | ok r =>
        obtain ⟨e, c⟩ := r
        rw [doGet_cons_ok hs hstep] at hkeys
        rw [create_cons_ok hs hstep]
        by_cases hsame : s' = s
        · subst hsame
          obtain ⟨hpq, hqp⟩ := cons_incomparable ⟨hpq, hqp⟩
          rw [node_cons_ok hs (step_setChild hstep _), node_cons_ok hs hstep]
          refine ih hp' hq' hpq hqp (fun i hi => hkeys i (List.mem_cons_of_mem _ hi)) fun he => ?_
          rw [Excused, doGet_cons_ok hs hstep] at hexcused
          exact hexcused he
        · obtain ⟨-, ⟨rfl, d, m, rfl, -⟩ | ⟨i, d, items, rfl, -⟩⟩ := step_ok hstep
          · exact node_setChild_of_ne hs' hsame _ q
          · exact absurd List.mem_cons_self (hkeys i)
      | error error =>
        rw [create_cons_error hs hstep]
        by_cases hout : error = .resultOutOfRange
        · rw [build_outside hs (hout ▸ hstep)]
        rw [build_cons hs hstep hout]
        by_cases hsame : s' = s
        · subst hsame
          obtain ⟨hpq, hqp⟩ := cons_incomparable ⟨hpq, hqp⟩
          rw [node_cons_ok hs (step_toMap_setChild hstep hout _), node_cons_error hs hstep]
          exact node_build_fresh p q hp' hq' hpq hqp
        · -- only an array with a section that is no index has nodes that the new map has not
          rw [Excused, doGet_cons_error hs hstep] at hexcused
          cases t with
          | unset d | scalar d v => exact absurd ⟨Option.some_ne_none _, trivial⟩ hexcused
          | array d a =>
            have herror : (array d a).step s' = .error .invalidType := by cases a <;> rfl
            rw [node_cons_error hs' herror]
            exact (node_setChild_of_ne hs' hsame _ q).trans (node_map_empty hs' d q)
          | trees d items =>
            have hnumber : numberAt s ≠ none := fun hn =>
              hexcused ⟨Option.some_ne_none _, s, rfl, hn⟩
            rw [step_trees] at hstep
            split at hstep
            next hn => exact absurd hn hnumber
            next => split at hstep <;> cases hstep; exact absurd rfl hout
          | map d m => exact node_setChild_of_ne hs' hsame _ q

/-- **Removing an entry** of a map at a path through maps leaves what the other paths resolve to. -/
theorem node_erase (r : List String) : ∀ {t : ConfigTreeValue} {q : List String}
    {place : List Edge} {d : Option ConfigScalar} {m : Keyed String ConfigTreeValue},
    "" ∉ r → "" ∉ q → ¬ r ++ [s] <+: q → ¬ q <+: r ++ [s] →
      t.resolve r = some (place, map d m) → (∀ i, Edge.index i ∉ place) →
        (replaceAt (map d (m.erase s)) place t).node q = t.node q := by
  induction r with
  | nil =>
    intro t q place d m _ hq hpq hqp hr _
    cases hr
    cases q with
    | nil => exact absurd List.nil_prefix hqp
    | cons s' q =>
      obtain ⟨hs', -⟩ := ne_of_not_mem hq
      have hne : s' ≠ s := fun hsame => hpq (hsame ▸ ⟨q, rfl⟩)
      have hstep : (map d (m.erase s)).step s' = (map d m).step s' := by
        rw [step_map, step_map, Keyed.find_erase_of_ne hne]
      show (map d (m.erase s)).node (s' :: q) = _
      cases h : (map d m).step s' with
      | error error => rw [node_cons_error hs' (hstep.trans h), node_cons_error hs' h]
      | ok r => rw [node_cons_ok hs' (hstep.trans h), node_cons_ok hs' h]
  | cons s₁ r ih =>
    intro t q place d m hr hq hpq hqp hresolve hkeys
    obtain ⟨hs₁, hr'⟩ := ne_of_not_mem hr
    cases q with
    | nil => exact absurd List.nil_prefix hqp
    | cons s' q =>
      obtain ⟨hs', hq'⟩ := ne_of_not_mem hq
      cases hstep : t.step s₁ with
      | error error =>
        rw [resolve_cons_error hs₁ hstep] at hresolve
        cases hresolve
      | ok r₁ =>
        obtain ⟨e, c⟩ := r₁
        rw [resolve_cons_ok hs₁ hstep] at hresolve
        obtain ⟨⟨place', c'⟩, hrest, heq⟩ := Option.map_eq_some_iff.mp hresolve
        cases heq
        rw [replaceAt, (step_ok hstep).1]
        dsimp only
        by_cases hsame : s' = s₁
        · subst hsame
          obtain ⟨hpq, hqp⟩ := cons_incomparable ⟨hpq, hqp⟩
          rw [node_cons_ok hs' (step_setChild hstep _), node_cons_ok hs' hstep]
          exact ih hr' hq' hpq hqp hrest fun i hi => hkeys i (List.mem_cons_of_mem _ hi)
        · obtain ⟨-, ⟨rfl, d', m', rfl, -⟩ | ⟨i, d', items, rfl, -⟩⟩ := step_ok hstep
          · exact node_setChild_of_ne hs' hsame _ q
          · exact absurd List.mem_cons_self (hkeys i)

/-! ### Other paths to the same node -/

theorem takeWhile_append_space (l : List Char) :
    (l ++ [' ']).takeWhile Char.isDigit = l.takeWhile Char.isDigit := by
  induction l with
  | nil => rfl
  | cons c l ih => rw [List.cons_append, List.takeWhile_cons, List.takeWhile_cons, ih]

/-- A space behind a number does not matter to `std::stoi`. -/
theorem stoi_append_space (s : String) : stoi (s ++ " ") = stoi s := by
  have hrest : ∀ l : List Char,
      (l ++ [' ']).dropWhile (fun c => c = ' ' ∨ 9 ≤ c.toNat ∧ c.toNat ≤ 13) =
        match l.dropWhile (fun c => c = ' ' ∨ 9 ≤ c.toNat ∧ c.toNat ≤ 13) with
        | [] => []
        | c :: rest => c :: (rest ++ [' ']) := by
    intro l
    induction l with
    | nil => rfl
    | cons c l ih =>
      rw [List.cons_append, List.dropWhile_cons, List.dropWhile_cons]
      split
      · exact ih
      · rfl
  rw [stoi, stoi, String.toList_append]
  dsimp only
  have hspace : " ".toList = [' '] := rfl
  rw [hspace, hrest]
  cases s.toList.dropWhile (fun c => c = ' ' ∨ 9 ≤ c.toNat ∧ c.toNat ≤ 13) with
  | nil => rfl
  | cons c rest =>
    dsimp only
    by_cases hminus : c = '-'
    · subst hminus
      simp only [takeWhile_append_space]
    by_cases hplus : c = '+'
    · subst hplus
      simp only [takeWhile_append_space]
    have hcons : (c :: (rest ++ [' '])).takeWhile Char.isDigit =
        (c :: rest).takeWhile Char.isDigit := takeWhile_append_space (c :: rest)
    split <;> split <;> simp_all

theorem numberAt_append_space (s : String) : numberAt (s ++ " ") = numberAt s := by
  rw [numberAt, Section.number, stoi_append_space]
  rfl

theorem append_space_ne (s : String) : s ++ " " ≠ s ∧ s ++ " " ≠ "" := by
  have hlength : (s ++ " ").length = s.length + 1 := String.length_append s " "
  constructor
  · intro h
    rw [h] at hlength
    omega
  · intro h
    rw [h] at hlength
    exact absurd hlength (Nat.succ_ne_zero s.length).symm

/-- A path that begins with another section. -/
theorem incomparable_of_ne {s' : String} (h : s' ≠ s) (p q : List String) :
    ¬ s :: p <+: s' :: q ∧ ¬ s' :: q <+: s :: p :=
  ⟨fun hp => h (List.cons_prefix_cons.mp hp).1.symm,
    fun hq => h (List.cons_prefix_cons.mp hq).1⟩

/-- **A node in an array of nodes** is at another path too. -/
theorem exists_same_node (p : List String) : ∀ {t : ConfigTreeValue} {place : List Edge} {i : Nat},
    "" ∉ p → t.resolve p = some (place, c) → Edge.index i ∈ place →
      ∃ q, "" ∉ q ∧ p ≠ q ∧ t.resolve q = some (place, c) := by
  induction p with
  | nil =>
    intro t place i _ h hi
    cases h
    cases hi
  | cons s p ih =>
    intro t place i hp h hi
    obtain ⟨hs, hp'⟩ := ne_of_not_mem hp
    cases hstep : t.step s with
    | error error =>
      rw [resolve_cons_error hs hstep] at h
      cases h
    | ok r =>
      obtain ⟨e, c₁⟩ := r
      rw [resolve_cons_ok hs hstep] at h
      obtain ⟨⟨place', c'⟩, hrest, heq⟩ := Option.map_eq_some_iff.mp h
      cases heq
      obtain ⟨-, ⟨rfl, -⟩ | ⟨j, d, items, rfl, hnumber, rfl, hfind⟩⟩ := step_ok hstep
      · obtain ⟨q, hq, hne, hresolve⟩ := ih hp' hrest ((List.mem_cons.mp hi).resolve_left nofun)
        refine ⟨s :: q, ?_, fun heq => hne (List.cons.inj heq).2, ?_⟩
        · exact fun hmem => (List.mem_cons.mp hmem).elim hs.symm hq
        · rw [resolve_cons_ok hs hstep, hresolve]
          rfl
      · obtain ⟨hne, hempty⟩ := append_space_ne s
        have hstep' : (trees d items).step (s ++ " ") = .ok (.index j, c₁) :=
          step_trees_of_find d ((numberAt_append_space s).trans hnumber) hfind
        refine ⟨(s ++ " ") :: p, ?_, fun heq => hne (List.cons.inj heq).1.symm, ?_⟩
        · exact fun hmem => (List.mem_cons.mp hmem).elim hempty.symm hp'
        · rw [resolve_cons_ok hempty hstep', hrest]
          rfl

/-- **A path that is created through an array of nodes** changes what another path resolves to. -/
theorem exists_node_create_ne (p : List String) : ∀ {t : ConfigTreeValue} {i : Nat},
    "" ∉ p → Edge.index i ∈ (doGet p t).place → t.resolve p = none → ¬ t.Outside p →
      ∃ q, "" ∉ q ∧ (¬ p <+: q ∧ ¬ q <+: p) ∧ (t.create p).1.node q ≠ t.node q := by
  induction p with
  | nil => exact fun _ hi _ _ => nomatch hi
  | cons s p ih =>
    intro t i hp hi hnone hout
    obtain ⟨hs, hp'⟩ := ne_of_not_mem hp
    cases hstep : t.step s with
    | error error =>
      rw [doGet_cons_error hs hstep] at hi
      cases hi
    | ok r =>
      obtain ⟨e, c⟩ := r
      rw [doGet_cons_ok hs hstep] at hi
      rw [resolve_cons_ok hs hstep, Option.map_eq_none_iff] at hnone
      rw [Outside, doGet_cons_ok hs hstep] at hout
      rw [create_cons_ok hs hstep]
      obtain ⟨-, ⟨rfl, -⟩ | ⟨j, d, items, rfl, hnumber, rfl, hfind⟩⟩ := step_ok hstep
      · have hi' := (List.mem_cons.mp hi).resolve_left nofun
        obtain ⟨q, hq, ⟨hpq, hqp⟩, hchanged⟩ := ih hp' hi' hnone hout
        refine ⟨s :: q, fun hmem => (List.mem_cons.mp hmem).elim hs.symm hq, ⟨?_, ?_⟩, ?_⟩
        · exact fun h => hpq (List.cons_prefix_cons.mp h).2
        · exact fun h => hqp (List.cons_prefix_cons.mp h).2
        · rwa [node_cons_ok hs (step_setChild hstep _), node_cons_ok hs hstep]
      · obtain ⟨hne, hempty⟩ := append_space_ne s
        have hnumber' := (numberAt_append_space s).trans hnumber
        have hstep' : ∀ {items' : Items ConfigTreeValue} {c' : ConfigTreeValue},
            items'.find j = some c' → (trees d items').node [s ++ " "] = some c' := fun h => by
          rw [node_cons_ok hempty (step_trees_of_find d hnumber' h)]
          rfl
        refine ⟨[s ++ " "], fun hmem => hempty (List.mem_singleton.mp hmem).symm,
          incomparable_of_ne hne p [], ?_⟩
        have hset := Items.find_set_self (Items.find_eq_some_iff.mp hfind).1 (c.create p).1
        rw [setChild, hstep' hset, hstep' hfind]
        intro hsame
        obtain ⟨place, c', -, hresolve⟩ := create_resolves p hp' hout
        rw [Option.some.inj hsame, hnone] at hresolve
        cases hresolve

/-- Through maps, the place of a node is its path. -/
theorem place_eq (p : List String) : ∀ {t : ConfigTreeValue} {place : List Edge}, "" ∉ p →
    t.resolve p = some (place, c) → (∀ i, Edge.index i ∉ place) → place = p.map .key := by
  induction p with
  | nil =>
    intro t place _ h _
    cases h
    rfl
  | cons s p ih =>
    intro t place hp h hkeys
    obtain ⟨hs, hp'⟩ := ne_of_not_mem hp
    cases hstep : t.step s with
    | error error =>
      rw [resolve_cons_error hs hstep] at h
      cases h
    | ok r =>
      obtain ⟨e, c₁⟩ := r
      rw [resolve_cons_ok hs hstep] at h
      obtain ⟨⟨place', c'⟩, hrest, heq⟩ := Option.map_eq_some_iff.mp h
      cases heq
      have hplace := ih hp' hrest fun i hi => hkeys i (List.mem_cons_of_mem e hi)
      obtain ⟨-, ⟨rfl, -⟩ | ⟨j, d, items, rfl, -⟩⟩ := step_ok hstep
      · rw [hplace]
        rfl
      · exact absurd List.mem_cons_self (hkeys j)

/-! ### Removing a path -/

theorem remove_concat (r : List String) (s : String) (t : ConfigTreeValue) :
    t.remove (r ++ [s]) = match t.resolve r with
      | none => some t
      | some (place, c) => match c.asMap with
        | .ok m => some (replaceAt (map c.default_ (m.erase s)) place t)
        | .error _ => none := by
  rw [remove, List.getLast?_concat]
  dsimp only
  rw [List.dropLast_concat, resolve]
  cases (doGet r t).error <;> rfl

theorem isSetAt_eq (p : List String) (t : ConfigTreeValue) :
    t.isSetAt p = match t.resolve p with
      | none => false
      | some (_, c) => c.isSet := by
  rw [isSetAt, resolve]
  cases (doGet p t).error <;> rfl

theorem resolve_concat (r : List String) : ∀ {t : ConfigTreeValue}, "" ∉ r → s ≠ "" →
    t.resolve (r ++ [s]) = (t.resolve r).bind fun x =>
      (x.2.resolve [s]).map fun y => (x.1 ++ y.1, y.2) := by
  induction r with
  | nil =>
    intro t _ hs
    rw [List.nil_append, resolve_nil, Option.bind_some]
    cases t.resolve [s] <;> rfl
  | cons s₁ r ih =>
    intro t hr hs
    obtain ⟨hs₁, hr'⟩ := ne_of_not_mem hr
    rw [List.cons_append]
    cases hstep : t.step s₁ with
    | error error => rw [resolve_cons_error hs₁ hstep, resolve_cons_error hs₁ hstep]; rfl
    | ok x =>
      obtain ⟨e, c⟩ := x
      rw [resolve_cons_ok hs₁ hstep, resolve_cons_ok hs₁ hstep, ih hr' hs]
      cases c.resolve r with
      | none => rfl
      | some y =>
        dsimp only [Option.bind_some, Option.map_some]
        cases y.2.resolve [s] <;> rfl

theorem map_of_type (h : c.type = .map) : ∃ d m, c = map d m := by
  cases c with
  | map d m => exact ⟨d, m, rfl⟩
  | scalar d v => cases v <;> cases h
  | array d a => cases a <;> cases h
  | _ => cases h

theorem asMap_of_type_ne (h : c.type ≠ .map) : ∃ error, c.asMap = .error error := by
  cases c with
  | map d m => exact absurd rfl h
  | unset d => exact ⟨_, rfl⟩
  | _ => exact ⟨.invalidType, rfl⟩

/-- **Removing** a path whose parent is a map, or does not resolve. -/
theorem removed_of_plain (hp : "" ∉ p) (h : t.Plain p) (hq : "" ∉ q) (hpq : ¬ p <+: q)
    (hqp : ¬ q <+: p) : t.Removed p q := by
  rcases List.eq_nil_or_concat p with rfl | ⟨r, s, rfl⟩
  · exact absurd List.nil_prefix hpq
  rw [List.concat_eq_append] at *
  have hr : "" ∉ r := fun hmem => hp (List.mem_append_left [s] hmem)
  have hs : s ≠ "" := fun hs => hp (List.mem_append_right r (hs ▸ List.mem_singleton_self s))
  have hparent := h.parent (List.append_ne_nil_of_right_ne_nil r (List.cons_ne_nil s []))
  rw [List.dropLast_concat] at hparent
  rw [Removed, remove_concat]
  cases hresolve : t.resolve r with
  | none =>
    refine ⟨t, rfl, ?_, rfl⟩
    rw [isSetAt_eq, resolve_concat r hr hs, hresolve]
    rfl
  | some x =>
    obtain ⟨place, c⟩ := x
    obtain ⟨d, m, rfl⟩ := map_of_type (hparent place c hresolve)
    refine ⟨_, rfl, ?_, ?_⟩
    · have herased := resolve_replaceAt r hr hresolve (map d (m.erase s))
      have hstep : (map d (m.erase s)).step s = .error .valueNotSet := by
        rw [step_map, Keyed.find_erase_self]
      rw [isSetAt_eq, resolve_concat r hr hs, default_, herased, Option.bind_some,
        resolve_cons_error hs hstep]
      rfl
    · cases hfind : m.find s with
      | none =>
        -- there is nothing to erase
        obtain ⟨-, hplace, hcurrent⟩ := resolve_eq_some_iff.mp hresolve
        have hself := replaceAt_self r t hr
        rw [hplace, hcurrent] at hself
        rw [default_, Keyed.erase_of_find hfind, hself]
      | some c =>
        have hstep : (map d m).step s = .ok (.key s, c) := by rw [step_map, hfind]
        have hfound : t.resolve (r ++ [s]) = some (place ++ [.key s], c) := by
          rw [resolve_concat r hr hs, hresolve, Option.bind_some, resolve_cons_ok hs hstep]
          rfl
        obtain ⟨herror, hplace, -⟩ := resolve_eq_some_iff.mp hfound
        have hkeys : ∀ i, Edge.index i ∉ place := by
          obtain hkeys | hexcused | hout := h.items
          · exact fun i hi => hkeys i (hplace ▸ List.mem_append_left _ hi)
          · exact absurd herror hexcused.1
          · rw [Outside, herror] at hout
            cases hout
        exact node_erase r hr hq hpq hqp hresolve hkeys

/-- **The paths that have nothing to do with others**: their parent is a map, if it resolves, and
they lead through no array of nodes, unless they end where they may. -/
theorem pathRight_iff (t : ConfigTreeValue) (p : List String) (hp : "" ∉ p) :
    t.PathRight p ↔ t.Plain p := by
  constructor
  · intro h
    constructor
    · intro hne place c hresolve
      by_contra htype
      -- any other path will do
      obtain ⟨s, p', rfl⟩ := List.exists_cons_of_ne_nil hne
      obtain ⟨hspace, hempty⟩ := append_space_ne s
      obtain ⟨hpq, hqp⟩ := incomparable_of_ne hspace p' []
      obtain ⟨t', hremove, -⟩ := ((h [s ++ " "]
        fun hmem => hempty (List.mem_singleton.mp hmem).symm).2 hpq hqp).2
      obtain ⟨error, hmap⟩ := asMap_of_type_ne htype
      have hlast : s :: p' = (s :: p').dropLast ++ [(s :: p').getLast hne] :=
        (List.dropLast_append_getLast hne).symm
      rw [hlast, remove_concat, hresolve] at hremove
      dsimp only at hremove
      rw [hmap] at hremove
      cases hremove
    · by_contra hitems
      rw [not_or, not_or, not_forall] at hitems
      obtain ⟨⟨i, hi⟩, hexcused, hout⟩ := hitems
      rw [not_not] at hi
      cases hresolve : t.resolve p with
      | none =>
        obtain ⟨q, hq, ⟨hpq, hqp⟩, hne⟩ := exists_node_create_ne p hp hi hresolve hout
        exact hne (((h q hq).2 hpq hqp).1.left hout hexcused)
      | some x =>
        obtain ⟨place, c⟩ := x
        obtain ⟨-, hplace, -⟩ := resolve_eq_some_iff.mp hresolve
        obtain ⟨q, hq, hne, hsame⟩ := exists_same_node p hp hresolve (hplace ▸ hi)
        exact (h q hq).1 hne place c c hresolve hsame
  · intro h q hq
    refine ⟨fun hne place c d hresolve hsame => ?_, fun hpq hqp => ⟨?_, ?_⟩⟩
    · obtain ⟨herror, hplace, -⟩ := resolve_eq_some_iff.mp hresolve
      obtain hkeys | hexcused | hout := h.items
      · rw [hplace] at hkeys
        have hp' := place_eq p hp hresolve hkeys
        have hq' := place_eq q hq hsame hkeys
        exact hne (List.map_injective_iff.mpr (fun _ _ hk => Edge.key.inj hk) (hp'.symm.trans hq'))
      · exact hexcused.1 herror
      · rw [Outside, herror] at hout
        cases hout
    · refine ⟨create_outside p hp, create_resolves p hp, fun hout hexcused => ?_⟩
      obtain hkeys | hexcused' | hout' := h.items
      · exact node_create p hp hq hpq hqp hkeys hexcused
      · exact absurd hexcused' hexcused
      · exact absurd hout' hout
    · exact removed_of_plain hp h hq hpq hqp

section Sample

/-- A map with one scalar in it. -/
def sampleTree : ConfigTreeValue := map none (Keyed.empty.insert "a" (scalar none (.bool true)))

/-- A path that is not there. -/
theorem pathRight_sample : sampleTree.PathRight ["b"] ↔ sampleTree.Plain ["b"] :=
  pathRight_iff sampleTree ["b"] (by decide)

/-- **Removing what is below a scalar** fails. -/
theorem sampleTree_not_right : ¬ sampleTree.PathRight ["a", "b"] := by
  intro h
  obtain ⟨t', hremove, -⟩ := ((h ["c"] (by decide)).2 (by decide) (by decide)).2
  cases hremove

end Sample

end ConfigTreeValue

end Hatn.Base
