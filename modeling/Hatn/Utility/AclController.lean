import Hatn.Utility.AccessChecker
import Mathlib.Data.List.Basic

/-!
# The local controller of access rules

Roles, the operations of roles and the relations of subjects and objects are stored by
topics.  A role is looked up when an operation or a relation is added to it, and by nothing
else: the access checker takes the role of a relation as it is stored, and `removeRole` takes
the role away alone.

* `Integrity`: every stored operation and relation refers to a role that is stored.
* `AclOp.integrity_iff`: the step that can break it is a `removeRole` of a role that is still
  referred to.
* `aclRun_kept_iff`: the same for runs.
-/

namespace Hatn.Utility

open Hatn.Dataunit

/-! ### Tables -/

/-- The objects of a model by topics, each with its id. -/
abbrev AclTable (α : Type) := String → List (ObjectId × α)

namespace AclTable

variable {α : Type}

def read (t : AclTable α) (topic : String) (id : ObjectId) : Option α :=
  ((t topic).find? (·.1 = id)).map (·.2)

/-- An object is written over one that has its id. -/
def create (t : AclTable α) (topic : String) (id : ObjectId) (x : α) : AclTable α :=
  Function.update t topic ((t topic).filter (·.1 ≠ id) ++ [(id, x)])

def remove (t : AclTable α) (topic : String) (id : ObjectId) : AclTable α :=
  Function.update t topic ((t topic).filter (·.1 ≠ id))

theorem mem_create {t : AclTable α} {topic topic' : String} {id : ObjectId} {x : α}
    {p : ObjectId × α} (h : p ∈ t.create topic id x topic') :
    p ∈ t topic' ∨ topic' = topic ∧ p = (id, x) := by
  rw [create, Function.update_apply] at h
  split at h
  next e =>
    subst e
    rcases List.mem_append.mp h with h | h
    · exact .inl (List.mem_of_mem_filter h)
    · exact .inr ⟨rfl, List.mem_singleton.mp h⟩
  next => exact .inl h

theorem mem_remove {t : AclTable α} {topic topic' : String} {id : ObjectId} {p : ObjectId × α}
    (h : p ∈ t.remove topic id topic') : p ∈ t topic' := by
  rw [remove, Function.update_apply] at h
  split at h
  next e =>
    subst e
    exact List.mem_of_mem_filter h
  next => exact h

theorem read_isSome_iff {t : AclTable α} {topic : String} {id : ObjectId} :
    (t.read topic id).isSome = true ↔ ∃ p ∈ t topic, p.1 = id := by
  rw [read, Option.isSome_map, List.find?_isSome]
  simp

theorem read_create {t : AclTable α} {topic topic' : String} {id id' : ObjectId} {x : α}
    (h : (t.read topic' id').isSome = true) : ((t.create topic id x).read topic' id').isSome = true := by
  rw [read_isSome_iff] at h ⊢
  obtain ⟨p, hp, rfl⟩ := h
  rw [create, Function.update_apply]
  split
  next e =>
    subst e
    by_cases hid : p.1 = id
    · exact ⟨(id, x), by simp, hid.symm⟩
    · exact ⟨p, by simp [hp, hid], rfl⟩
  next => exact ⟨p, hp, rfl⟩

theorem read_remove {t : AclTable α} {topic topic' : String} {id id' : ObjectId} :
    ((t.remove topic id).read topic' id').isSome = true ↔
      (t.read topic' id').isSome = true ∧ ¬ (topic' = topic ∧ id' = id) := by
  rw [read_isSome_iff, read_isSome_iff, remove, Function.update_apply]
  split
  next e =>
    subst e
    constructor
    · rintro ⟨p, hp, rfl⟩
      rw [List.mem_filter, decide_eq_true_eq] at hp
      exact ⟨⟨p, hp.1, rfl⟩, fun h => hp.2 h.2⟩
    · rintro ⟨⟨p, hp, rfl⟩, h⟩
      exact ⟨p, List.mem_filter.mpr ⟨hp, decide_eq_true fun e => h ⟨rfl, e⟩⟩, rfl⟩
  next e => exact ⟨fun h => ⟨h, fun h' => e h'.1⟩, fun h => h.1⟩

end AclTable

/-! ### The controller -/

structure AclRole where
  name : String
  description : String
  deriving DecidableEq

/-- A relation as it is stored: with the topic of its role. -/
structure AclRelationObject extends AclRelation where
  roleTopic : String
  deriving DecidableEq

structure AclStore where
  roles : AclTable AclRole
  roleOperations : AclTable AclRoleOperation
  relations : AclTable AclRelationObject

def AclStore.empty : AclStore := ⟨fun _ => [], fun _ => [], fun _ => []⟩

/-- The steps of an operation that fail: the access check or the database before the change,
the change itself, and the journal behind it. -/
structure Faults where
  check : Bool
  change : Bool
  journal : Bool
  deriving DecidableEq

/-- No step fails. -/
def Faults.none : Faults := ⟨false, false, false⟩

/-- The operations, each with the faults that it meets; an id is the one that the object is
created with. -/
inductive AclOp
  | addRole (topic : String) (id : ObjectId) (role : AclRole)
  | removeRole (topic : String) (id : ObjectId)
  | addRoleOperation (topic : String) (id : ObjectId) (roleOperation : AclRoleOperation)
  | removeRoleOperation (topic : String) (id : ObjectId)
  | addRelation (topic : String) (id : ObjectId) (relation : AclRelationObject)
  | removeRelation (topic : String) (id : ObjectId)
  deriving DecidableEq

/-- What the callback is called with. -/
inductive AclResult
  | ok
  | unknownRole
  | failed
  deriving DecidableEq

namespace AclOp

/-- The operations of `LocalAclControllerImpl`. -/
def apply (faults : Faults) (s : AclStore) : AclOp → AclResult × AclStore
  | addRole topic id role =>
    if faults.check || faults.change then (.failed, s)
    else
      let s := { s with roles := s.roles.create topic id role }
      (if faults.journal then .failed else .ok, s)
  | removeRole topic id =>
    if faults.change then (.failed, s)
    else (.ok, { s with roles := s.roles.remove topic id })
  | addRoleOperation topic id roleOperation =>
    if faults.check then (.failed, s)
    else if (s.roles.read topic roleOperation.role).isNone then (.unknownRole, s)
    else if faults.change then (.failed, s)
    else (.ok, { s with roleOperations := s.roleOperations.create topic id roleOperation })
  | removeRoleOperation topic id =>
    if faults.change then (.failed, s)
    else (.ok, { s with roleOperations := s.roleOperations.remove topic id })
  | addRelation topic id relation =>
    if faults.check then (.failed, s)
    else if (s.roles.read relation.roleTopic relation.role).isNone then (.unknownRole, s)
    else if faults.change then (.failed, s)
    else (.ok, { s with relations := s.relations.create topic id relation })
  | removeRelation topic id =>
    if faults.change then (.failed, s)
    else (.ok, { s with relations := s.relations.remove topic id })

end AclOp

/-! ### References to roles -/

/-- Every operation of a role refers to a role of its topic, and every relation to one of the
topic that it names. -/
structure Integrity (s : AclStore) : Prop where
  roleOperations : ∀ topic, ∀ p ∈ s.roleOperations topic,
    (s.roles.read topic p.2.role).isSome = true
  relations : ∀ topic, ∀ p ∈ s.relations topic,
    (s.roles.read p.2.roleTopic p.2.role).isSome = true

/-- Nothing that is stored refers to the role. -/
structure Unreferenced (s : AclStore) (topic : String) (id : ObjectId) : Prop where
  roleOperations : ∀ p ∈ s.roleOperations topic, p.2.role ≠ id
  relations : ∀ topic', ∀ p ∈ s.relations topic', ¬ (p.2.roleTopic = topic ∧ p.2.role = id)

/-- What the access checker sees of the tables, with the rules of families of operations. -/
def AclStore.toDb (s : AclStore) (opFamilyAccess : String → List AclOpFamilyAccess)
    (defaultLimit : Nat) : AclDb where
  relations topic := (s.relations topic).map (·.2.toAclRelation)
  roleOperations topic := (s.roleOperations topic).map (·.2)
  opFamilyAccess := opFamilyAccess
  defaultLimit := defaultLimit

/-- No access check takes the role, the ids of roles being different, and no rule is left that
grants an operation to it. -/
def NoAccessThrough (s : AclStore) (topic : String) (id : ObjectId) : Prop :=
  (∀ p ∈ s.roleOperations topic, p.2.role ≠ id) ∧
    ((∀ topic', topic' ≠ topic → (s.roles.read topic' id).isSome = false) →
      ∀ (opFamilyAccess : String → List AclOpFamilyAccess) (defaultLimit : Nat)
        (args : AccessCheckerArgs), id ∉ args.listRelations (s.toDb opFamilyAccess defaultLimit))

theorem empty_integrity : Integrity AclStore.empty :=
  ⟨fun _ _ h => (nomatch h), fun _ _ h => nomatch h⟩

/-- A role that is not stored is not referred to. -/
theorem Integrity.unreferenced {s : AclStore} (h : Integrity s) {topic : String} {id : ObjectId}
    (hr : (s.roles.read topic id).isSome = false) : Unreferenced s topic id := by
  constructor
  · intro p hp e
    have := h.roleOperations topic p hp
    rw [e, hr] at this
    cases this
  · rintro topic' p hp ⟨e, e'⟩
    have := h.relations topic' p hp
    rw [e, e', hr] at this
    cases this

theorem mem_listRelations {s : AclStore} {opFamilyAccess : String → List AclOpFamilyAccess}
    {defaultLimit : Nat} {args : AccessCheckerArgs} {id : ObjectId}
    (h : id ∈ args.listRelations (s.toDb opFamilyAccess defaultLimit)) :
    ∃ p ∈ s.relations args.object.topic, p.2.role = id := by
  obtain ⟨rel, hrel, rfl⟩ := List.mem_map.mp h
  have hmem : rel ∈ args.relations (s.toDb opFamilyAccess defaultLimit) := by
    rw [AclDb.cut] at hrel
    split at hrel
    · exact hrel
    · exact List.mem_of_mem_take hrel
  obtain ⟨p, hp, rfl⟩ := List.mem_map.mp (List.mem_of_mem_filter hmem)
  exact ⟨p, hp, rfl⟩

/-- With all references kept, a role that is not stored gives no access. -/
theorem Integrity.noAccessThrough {s : AclStore} (h : Integrity s) {topic : String} {id : ObjectId}
    (hr : (s.roles.read topic id).isSome = false) : NoAccessThrough s topic id := by
  have hu := h.unreferenced hr
  refine ⟨hu.roleOperations, fun hother opFamilyAccess defaultLimit args hid => ?_⟩
  obtain ⟨p, hp, rfl⟩ := mem_listRelations hid
  have hs := h.relations _ p hp
  by_cases e : p.2.roleTopic = topic
  · exact hu.relations _ p hp ⟨e, rfl⟩
  · rw [hother _ e] at hs
    cases hs

/-! ### Steps -/

namespace AclOp

/-- A role is removed only when nothing refers to it. -/
def Regular (faults : Faults) (s : AclStore) : AclOp → Prop
  | removeRole topic id => faults.change = false → Unreferenced s topic id
  | _ => True

/-- What holds behind a step: the references are kept, and a role that was removed gives no
access. -/
def Kept (faults : Faults) (s : AclStore) (op : AclOp) : Prop :=
  Integrity (op.apply faults s).2 ∧
    ∀ topic id, op = removeRole topic id → (op.apply faults s).1 = .ok →
      NoAccessThrough (op.apply faults s).2 topic id

section
variable {faults : Faults} {s : AclStore} (hs : Integrity s)

include hs

theorem addRole_integrity (topic : String) (id : ObjectId) (role : AclRole) :
    Integrity ((addRole topic id role).apply faults s).2 := by
  rw [apply]
  split
  · exact hs
  · exact ⟨fun t p hp => AclTable.read_create (hs.roleOperations t p hp),
      fun t p hp => AclTable.read_create (hs.relations t p hp)⟩

theorem addRoleOperation_integrity (topic : String) (id : ObjectId)
    (roleOperation : AclRoleOperation) :
    Integrity ((addRoleOperation topic id roleOperation).apply faults s).2 := by
  rw [apply]
  split_ifs with h1 h2 h3
  · exact hs
  · exact hs
  · exact hs
  · refine ⟨fun t p hp => ?_, hs.relations⟩
    rcases AclTable.mem_create hp with hp | ⟨rfl, rfl⟩
    · exact hs.roleOperations t p hp
    · simpa [Option.isSome_iff_ne_none] using h2

theorem addRelation_integrity (topic : String) (id : ObjectId) (relation : AclRelationObject) :
    Integrity ((addRelation topic id relation).apply faults s).2 := by
  rw [apply]
  split_ifs with h1 h2 h3
  · exact hs
  · exact hs
  · exact hs
  · refine ⟨hs.roleOperations, fun t p hp => ?_⟩
    rcases AclTable.mem_create hp with hp | ⟨rfl, rfl⟩
    · exact hs.relations t p hp
    · simpa [Option.isSome_iff_ne_none] using h2

theorem removeRoleOperation_integrity (topic : String) (id : ObjectId) :
    Integrity ((removeRoleOperation topic id).apply faults s).2 := by
  rw [apply]
  split
  · exact hs
  · exact ⟨fun t p hp => hs.roleOperations t p (AclTable.mem_remove hp), hs.relations⟩

theorem removeRelation_integrity (topic : String) (id : ObjectId) :
    Integrity ((removeRelation topic id).apply faults s).2 := by
  rw [apply]
  split
  · exact hs
  · exact ⟨hs.roleOperations, fun t p hp => hs.relations t p (AclTable.mem_remove hp)⟩

/-- The references are kept by a `removeRole` if and only if there are none to the role. -/
theorem removeRole_integrity_iff (topic : String) (id : ObjectId) :
    Integrity ((removeRole topic id).apply faults s).2 ↔ (removeRole topic id).Regular faults s := by
  rw [apply, Regular]
  cases faults.change with
  | true => exact iff_of_true hs fun h => nomatch h
  | false =>
    simp only [Bool.false_eq_true, if_false, true_implies]
    constructor
    · intro h
      have hr : ((s.roles.remove topic id).read topic id).isSome = false := by
        rw [Bool.eq_false_iff]
        intro hr
        exact (AclTable.read_remove.mp hr).2 ⟨rfl, rfl⟩
      have hu := h.unreferenced hr
      exact ⟨hu.roleOperations, hu.relations⟩
    · intro h
      refine ⟨fun t p hp => ?_, fun t p hp => ?_⟩
      · refine AclTable.read_remove.mpr ⟨hs.roleOperations t p hp, ?_⟩
        rintro ⟨rfl, e⟩
        exact h.roleOperations p hp e
      · exact AclTable.read_remove.mpr ⟨hs.relations t p hp, h.relations t p hp⟩

/-- **A step keeps what is claimed if and only if it removes no role that is referred to.** -/
theorem integrity_iff (op : AclOp) : op.Kept faults s ↔ op.Regular faults s := by
  cases op with
  | addRole topic id role =>
    exact iff_of_true ⟨addRole_integrity hs topic id role, fun _ _ h => nomatch h⟩ trivial
  | addRoleOperation topic id roleOperation =>
    exact iff_of_true ⟨addRoleOperation_integrity hs topic id roleOperation,
      fun _ _ h => nomatch h⟩ trivial
  | removeRoleOperation topic id =>
    exact iff_of_true ⟨removeRoleOperation_integrity hs topic id, fun _ _ h => nomatch h⟩ trivial
  | addRelation topic id relation =>
    exact iff_of_true ⟨addRelation_integrity hs topic id relation, fun _ _ h => nomatch h⟩ trivial
  | removeRelation topic id =>
    exact iff_of_true ⟨removeRelation_integrity hs topic id, fun _ _ h => nomatch h⟩ trivial
  | removeRole topic id =>
    rw [← removeRole_integrity_iff hs]
    refine ⟨fun h => h.1, fun h => ⟨h, ?_⟩⟩
    intro topic' id' e hok
    injection e with e e'
    subst e e'
    refine h.noAccessThrough ?_
    rw [apply] at hok ⊢
    split at hok
    · cases hok
    · next hc =>
      rw [if_neg hc, Bool.eq_false_iff]
      intro hr
      exact (AclTable.read_remove.mp hr).2 ⟨rfl, rfl⟩

end

end AclOp

/-! ### Runs -/

/-- Completed operations, one after the other, each with its faults. -/
abbrev AclRun := List (Faults × AclOp)

/-- What is claimed holds behind every operation. -/
def KeptRun : AclRun → AclStore → Prop
  | [], _ => True
  | (faults, op) :: run, s => op.Kept faults s ∧ KeptRun run (op.apply faults s).2

/-- No operation removes a role that is referred to. -/
def RegularRun : AclRun → AclStore → Prop
  | [], _ => True
  | (faults, op) :: run, s => op.Regular faults s ∧ RegularRun run (op.apply faults s).2

theorem Integrity.keptRun_iff : ∀ {run : AclRun} {s : AclStore}, Integrity s →
    (KeptRun run s ↔ RegularRun run s) := by
  intro run
  induction run with
  | nil => intro s _; exact Iff.rfl
  | cons o run ih =>
    obtain ⟨faults, op⟩ := o
    intro s hs
    constructor
    · rintro ⟨h, hrun⟩
      exact ⟨(op.integrity_iff hs).mp h, (ih h.1).mp hrun⟩
    · rintro ⟨h, hrun⟩
      have hk := (op.integrity_iff hs).mpr h
      exact ⟨hk, (ih hk.1).mpr hrun⟩

/-- **The references to roles are kept through a run** of operations, and no access is granted
through a role that was removed, if and only if no role is removed while an operation or a
relation refers to it. -/
theorem aclRun_kept_iff (run : AclRun) : KeptRun run .empty ↔ RegularRun run .empty :=
  empty_integrity.keptRun_iff

def sampleRole : ObjectId := ⟨1, 1, 1⟩

def sampleRelation : AclRelationObject := ⟨⟨"o", "s", sampleRole⟩, "system"⟩

/-- A role is removed that has a relation. -/
def sampleAclRun : AclRun :=
  [(.none, .addRole "system" sampleRole ⟨"reader", ""⟩),
    (.none, .addRelation "t" ⟨2, 2, 2⟩ sampleRelation),
    (.none, .removeRole "system" sampleRole)]

theorem not_kept_sampleAclRun : ¬ KeptRun sampleAclRun .empty := by
  intro h
  have hr := (empty_integrity.keptRun_iff.mp h).2.2.1 rfl
  have hmem : (⟨2, 2, 2⟩, sampleRelation) ∈
      (AclOp.apply .none (AclOp.apply .none .empty
        (.addRole "system" sampleRole ⟨"reader", ""⟩)).2
          (.addRelation "t" ⟨2, 2, 2⟩ sampleRelation)).2.relations "t" := by
    decide
  exact hr.relations "t" _ hmem ⟨rfl, rfl⟩

end Hatn.Utility
