import Hatn.Dataunit.ObjectId
import Mathlib.Logic.Relation

/-!
# The access checker

`checkAccess` looks for a role that relates an object to a subject, then for the rules of
that role, and where these do not grant the operation it goes on with the parents of the
subject and of the object.  Everything is passed on in callbacks.  A `Reply` keeps the
statuses that the callback is called with, so that a callback which is never called, or
is called twice, can be seen.
-/

namespace Hatn.Utility

open Hatn.Dataunit

inductive AccessStatus
  | unknown | grant | deny
  deriving DecidableEq, Repr

@[ext] structure ObjectWrapper where
  id : String
  topic : String
  model : String
  deriving DecidableEq, Repr

@[ext] structure Operation where
  familyName : String
  name : String
  accessMask : UInt32
  deriving DecidableEq

@[ext] structure AccessCheckerArgs where
  object : ObjectWrapper
  subject : ObjectWrapper
  operation : Operation
  deriving DecidableEq

/-! ## The tables -/

structure AclRelation where
  object : String
  subject : String
  role : ObjectId
  deriving DecidableEq

structure AclRoleOperation where
  role : ObjectId
  operation : String
  grant : Bool
  deriving DecidableEq

structure AclOpFamilyAccess where
  role : ObjectId
  opFamily : String
  access : UInt32
  deriving DecidableEq

/-- The rows of each topic, in the order of the index they are looked up with; a query
returns the first `defaultLimit` rows, or all of them if that is zero. -/
structure AclDb where
  relations : String → List AclRelation
  roleOperations : String → List AclRoleOperation
  opFamilyAccess : String → List AclOpFamilyAccess
  defaultLimit : Nat

def AclDb.cut {α : Type} (db : AclDb) (rows : List α) : List α :=
  if db.defaultLimit = 0 then rows else rows.take db.defaultLimit

namespace AccessCheckerArgs

variable (args : AccessCheckerArgs) (db : AclDb)

/-- The rows that the query for the relations of the pair matches. -/
def relations : List AclRelation :=
  (db.relations args.object.topic).filter fun rel =>
    rel.object = args.object.id ∧ rel.subject = args.subject.id

def roleOperations (roles : List ObjectId) : List AclRoleOperation :=
  (db.roleOperations args.object.topic).filter fun roleOp =>
    roleOp.role ∈ roles ∧ roleOp.operation = args.operation.name

def opFamilyAccess (roles : List ObjectId) : List AclOpFamilyAccess :=
  (db.opFamilyAccess args.object.topic).filter fun obj =>
    obj.role ∈ roles ∧ obj.opFamily = args.operation.familyName

def listRelations : List ObjectId := (db.cut (args.relations db)).map (·.role)

def listOperations (roles : List ObjectId) : List AclRoleOperation :=
  db.cut (args.roleOperations db roles)

def listOpFamilyAccess (roles : List ObjectId) : List AclOpFamilyAccess :=
  db.cut (args.opFamilyAccess db roles)

end AccessCheckerArgs

/-- Access is granted if at least one item grants it, and unknown without items. -/
def evaluate {α : Type} (grants : α → Bool) : AccessStatus → List α → AccessStatus
  | status, [] => status
  | _, item :: items => if grants item then .grant else evaluate grants .deny items

/-- The loop of `checkOperations`. -/
def operationStatus : List AclRoleOperation → AccessStatus :=
  evaluate (fun roleOp => roleOp.grant) .unknown

/-- The loop of `checkOpFamilyAccess`. -/
def familyStatus (args : AccessCheckerArgs) : List AclOpFamilyAccess → AccessStatus :=
  evaluate (fun obj => obj.access &&& args.operation.accessMask ≠ 0) .unknown

/-! ## Hierarchies -/

/-- A hierarchy is finite and acyclic: the parents of an item lie above it. -/
structure Hierarchy where
  parents : ObjectWrapper → List ObjectWrapper
  depth : ObjectWrapper → Nat
  depth_parents : ∀ x, ∀ p ∈ parents x, depth p < depth x

namespace Hierarchy

/-- `HierarchyNone` -/
def none : Hierarchy := ⟨fun _ => [], fun _ => 0, nofun⟩

/-- `p` is `x` or an ancestor of `x`. -/
def Above (h : Hierarchy) (x p : ObjectWrapper) : Prop :=
  Relation.ReflTransGen (fun x p => p ∈ h.parents x) x p

end Hierarchy

/-! ## Callbacks and the cache -/

/-- A cache answers `unknown` for an entry that was never stored. -/
structure AccessCache where
  stored : AccessCheckerArgs → Option AccessStatus

namespace AccessCache

def empty : AccessCache := ⟨fun _ => none⟩

def find (cache : AccessCache) (args : AccessCheckerArgs) : AccessStatus :=
  (cache.stored args).getD .unknown

def set (cache : AccessCache) (args _initialArgs : AccessCheckerArgs) (status : AccessStatus) :
    AccessCache :=
  ⟨Function.update cache.stored args (some status)⟩

end AccessCache

/-- The statuses a callback was called with, in order, and the cache that is left. -/
@[ext] structure Reply where
  calls : List AccessStatus
  cache : Option AccessCache

namespace Reply

/-- `cb` takes every call in turn. -/
def handle (cb : AccessStatus → Option AccessCache → Reply) :
    List AccessStatus → Option AccessCache → Reply
  | [], cache => ⟨[], cache⟩
  | status :: calls, cache =>
    let first := cb status cache
    let rest := handle cb calls first.cache
    ⟨first.calls ++ rest.calls, rest.cache⟩

end Reply

/-- Every parent is handed to its handler in turn, which asks for the next one or stops;
then the end is reported. -/
def eachParent {α : Type} (onParent : α → (Option AccessCache → Reply) → Option AccessCache → Reply)
    (onEnd : Option AccessCache → Reply) : List α → Option AccessCache → Reply
  | [] => onEnd
  | parent :: parents => onParent parent (eachParent onParent onEnd parents)

theorem eachParent_map {α β : Type} (f : α → β)
    (onParent : β → (Option AccessCache → Reply) → Option AccessCache → Reply)
    (onEnd : Option AccessCache → Reply) (parents : List α) :
    eachParent onParent onEnd (parents.map f) = eachParent (fun p => onParent (f p)) onEnd parents := by
  induction parents with
  | nil => rfl
  | cons p parents ih => rw [List.map_cons, eachParent, eachParent, ih]

/-- The handler of a parent: a status that breaks the iteration goes to the callback, any
other asks for the next parent. -/
def parentCb {α : Type} (breaks : AccessStatus → Bool) (check : α → Option AccessCache → Reply)
    (parent : α) (nextCb : Option AccessCache → Reply) (cache : Option AccessCache) : Reply :=
  let reply := check parent cache
  Reply.handle (fun status cache => if breaks status then ⟨[status], cache⟩ else nextCb cache)
    reply.calls reply.cache

/-! ## The checker -/

/-- What a checker without a MAC policy looks at. -/
structure AccessChecker where
  db : AclDb
  subjHierarchy : Option Hierarchy
  objHierarchy : Option Hierarchy

namespace AccessChecker

variable (checker : AccessChecker)

/-- A hierarchy that is not set has no parents. -/
def subjects : Hierarchy := checker.subjHierarchy.getD .none

def objects : Hierarchy := checker.objHierarchy.getD .none

def depth (args : AccessCheckerArgs) : Nat :=
  checker.objects.depth args.object + checker.subjects.depth args.subject

theorem depth_object {h : Hierarchy} (hs : checker.objHierarchy = some h)
    (args : AccessCheckerArgs) {p : ObjectWrapper} (hp : p ∈ h.parents args.object) :
    checker.depth { args with object := p } < checker.depth args := by
  have := h.depth_parents _ p hp
  simp only [depth, objects, hs, Option.getD_some]
  omega

theorem depth_subject {h : Hierarchy} (hs : checker.subjHierarchy = some h)
    (args : AccessCheckerArgs) {p : ObjectWrapper} (hp : p ∈ h.parents args.subject) :
    checker.depth { args with subject := p } < checker.depth args := by
  have := h.depth_parents _ p hp
  simp only [depth, subjects, hs, Option.getD_some]
  omega

mutual

/-- `AccessChecker_p::checkAccess`: a cache is given the callback of the caller. -/
def checkAccess (args initialArgs : AccessCheckerArgs) : Option AccessCache → Reply
  | some cache => ⟨[cache.find args], some cache⟩
  | none => find args initialArgs none
termination_by (checker.depth args, 3)

def find (args initialArgs : AccessCheckerArgs) (cache : Option AccessCache) : Reply :=
  let roles := args.listRelations checker.db
  if roles.isEmpty then iterateSubjHierarchy .unknown args initialArgs cache
  else
    match operationStatus (args.listOperations checker.db roles) with
    | .unknown =>
      match familyStatus args (args.listOpFamilyAccess checker.db roles) with
      | .grant => ⟨[.grant], cache.map (·.set args initialArgs .grant)⟩
      | status => iterateSubjHierarchy status args initialArgs cache
    | .deny => iterateSubjHierarchy .deny args initialArgs cache
    -- `checkOperations` has no branch for this status
    | .grant => ⟨[], cache⟩
termination_by (checker.depth args, 2)

def iterateSubjHierarchy (prevStatus : AccessStatus) (args initialArgs : AccessCheckerArgs)
    (cache : Option AccessCache) : Reply :=
  match _hs : checker.subjHierarchy with
  | none => iterateObjHierarchy prevStatus args initialArgs cache
  | some h =>
    eachParent
      (parentCb (· = .grant) fun parent cache =>
        checkAccess { args with subject := parent.1 } initialArgs cache)
      (iterateObjHierarchy prevStatus args initialArgs) (h.parents args.subject).attach cache
termination_by (checker.depth args, 1)
decreasing_by
  · exact Prod.Lex.right _ (by decide)
  · exact Prod.Lex.left _ _ (checker.depth_subject _hs args parent.2)
  · exact Prod.Lex.right _ (by decide)

def iterateObjHierarchy (prevStatus : AccessStatus) (args initialArgs : AccessCheckerArgs)
    (cache : Option AccessCache) : Reply :=
  match _hs : checker.objHierarchy with
  | none => ⟨[.deny], cache⟩
  | some h =>
    if prevStatus = .deny then ⟨[.deny], cache⟩
    else
      eachParent
        (parentCb (fun status => status = .grant ∨ status = .deny) fun parent cache =>
          checkAccess { args with object := parent.1 } initialArgs cache)
        (fun cache => ⟨[.deny], cache⟩) (h.parents args.object).attach cache
termination_by (checker.depth args, 0)
decreasing_by exact Prod.Lex.left _ _ (checker.depth_object _hs args parent.2)

end

theorem iterateSubjHierarchy_eq (prevStatus : AccessStatus) (args initialArgs : AccessCheckerArgs) :
    checker.iterateSubjHierarchy prevStatus args initialArgs =
      eachParent
        (parentCb (· = .grant) fun p => checker.checkAccess { args with subject := p } initialArgs)
        (checker.iterateObjHierarchy prevStatus args initialArgs)
        (checker.subjects.parents args.subject) := by
  funext cache
  rw [iterateSubjHierarchy]
  split
  · rename_i hs
    simp only [subjects, hs, Option.getD_none, Hierarchy.none, eachParent]
  · rename_i h hs
    simp only [subjects, hs, Option.getD_some]
    conv_rhs => rw [← List.attach_map_subtype_val (h.parents args.subject)]
    rw [eachParent_map]
    rfl

theorem iterateObjHierarchy_eq {prevStatus : AccessStatus} (hp : prevStatus ≠ .deny)
    (args initialArgs : AccessCheckerArgs) :
    checker.iterateObjHierarchy prevStatus args initialArgs =
      eachParent
        (parentCb (fun status => status = .grant ∨ status = .deny) fun p =>
          checker.checkAccess { args with object := p } initialArgs)
        (fun cache => ⟨[.deny], cache⟩) (checker.objects.parents args.object) := by
  funext cache
  rw [iterateObjHierarchy]
  split
  · rename_i hs
    simp only [objects, hs, Option.getD_none, Hierarchy.none, eachParent]
  · rename_i h hs
    simp only [objects, hs, Option.getD_some]
    conv_rhs => rw [← List.attach_map_subtype_val (h.parents args.object)]
    rw [if_neg hp, eachParent_map]
    rfl

theorem iterateObjHierarchy_deny (args initialArgs : AccessCheckerArgs)
    (cache : Option AccessCache) :
    checker.iterateObjHierarchy .deny args initialArgs cache = ⟨[.deny], cache⟩ := by
  rw [iterateObjHierarchy]
  split
  · rfl
  · rw [if_pos rfl]

/-- A call from outside: its arguments are the initial ones. -/
def call (args : AccessCheckerArgs) (cache : Option AccessCache) : Reply :=
  checker.checkAccess args args cache

/-- The calls of the callback in a sequence of calls. -/
def run : List AccessCheckerArgs → Option AccessCache → List (List AccessStatus)
  | [], _ => []
  | args :: rest, cache =>
    let reply := checker.call args cache
    reply.calls :: run rest reply.cache

end AccessChecker

end Hatn.Utility
