import Hatn.Utility.AccessChecker

/-!
# Decisions of the access checker

Without a cache the checker is a depth-first search over pairs of an object and a
subject (`find_none`): the first pair whose rules grant decides.  The search goes through
all ancestors of the subject, but only through the first parent of each object, since the
check of a parent never ends with an unknown status; and a pair at which a role operation
grants leaves the callback without a call.
-/

namespace Hatn.Utility

open Hatn.Dataunit

/-! ## One pair -/

theorem evaluate_deny_eq_grant {α : Type} {grants : α → Bool} (items : List α) :
    evaluate grants .deny items = .grant ↔ ∃ item ∈ items, grants item := by
  induction items with
  | nil => simp [evaluate]
  | cons item items ih =>
    rw [evaluate]
    split
    · rename_i hg
      simp [hg]
    · rename_i hg
      simp [hg, ih]

theorem evaluate_eq_grant {α : Type} {grants : α → Bool} (items : List α) :
    evaluate grants .unknown items = .grant ↔ ∃ item ∈ items, grants item := by
  cases items with
  | nil => simp [evaluate]
  | cons item items =>
    rw [evaluate]
    split
    · rename_i hg
      simp [hg]
    · rename_i hg
      simp [hg, evaluate_deny_eq_grant]

theorem evaluate_ne_deny {α : Type} {grants : α → Bool} {items : List α}
    (hg : ∀ item ∈ items, grants item) : evaluate grants .unknown items ≠ .deny := by
  cases items with
  | nil => nofun
  | cons item items => simp [evaluate, hg item List.mem_cons_self]

theorem evaluate_eq_unknown {α : Type} {grants : α → Bool} (items : List α) :
    evaluate grants .unknown items = .unknown ↔ items = [] := by
  have hdeny : ∀ items, evaluate grants .deny items ≠ .unknown := by
    intro items
    induction items with
    | nil => nofun
    | cons item items ih =>
      rw [evaluate]
      split
      · nofun
      · exact ih
  cases items with
  | nil => simp [evaluate]
  | cons item items =>
    rw [evaluate]
    split
    · simp
    · simpa using hdeny items

/-- What the rules of the roles of one pair say. -/
inductive Verdict
  | unknown | deny | byOperation | byFamily
  deriving DecidableEq, Repr

def Verdict.decides : Verdict → Bool
  | byOperation | byFamily => true
  | _ => false

/-- The steps of `find` up to the hierarchies. -/
def AccessCheckerArgs.verdict (args : AccessCheckerArgs) (db : AclDb) : Verdict :=
  let roles := args.listRelations db
  if roles.isEmpty then .unknown
  else
    match operationStatus (args.listOperations db roles) with
    | .grant => .byOperation
    | .deny => .deny
    | .unknown =>
      match familyStatus args (args.listOpFamilyAccess db roles) with
      | .grant => .byFamily
      | .deny => .deny
      | .unknown => .unknown

namespace AccessChecker

variable (checker : AccessChecker)

abbrev verdict (args : AccessCheckerArgs) : Verdict := args.verdict checker.db

theorem find_eq_verdict (args initialArgs : AccessCheckerArgs) :
    checker.find args initialArgs none =
      match checker.verdict args with
      | .byOperation => ⟨[], none⟩
      | .byFamily => ⟨[.grant], none⟩
      | .deny => checker.iterateSubjHierarchy .deny args initialArgs none
      | .unknown => checker.iterateSubjHierarchy .unknown args initialArgs none := by
  rw [find, verdict, AccessCheckerArgs.verdict]
  by_cases hr : (args.listRelations checker.db).isEmpty
  · simp only [hr, if_true]
  · simp only [hr, Bool.false_eq_true, if_false]
    cases operationStatus (args.listOperations checker.db (args.listRelations checker.db)) with
    | grant => rfl
    | deny => rfl
    | unknown =>
      cases familyStatus args (args.listOpFamilyAccess checker.db
        (args.listRelations checker.db)) <;> rfl

/-! ## The order of the search -/

/-- The pairs in the order in which they are looked at while no pair decides. -/
def searched (args : AccessCheckerArgs) : List AccessCheckerArgs :=
  args :: ((checker.subjects.parents args.subject).attach.flatMap
      fun p => searched { args with subject := p.1 }) ++
    if checker.verdict args = .deny then []
    else ((checker.objects.parents args.object).take 1).attach.flatMap
      fun p => searched { args with object := p.1 }
termination_by checker.depth args
decreasing_by
  · have := checker.subjects.depth_parents _ p.1 p.2
    simp only [depth]
    omega
  · have := checker.objects.depth_parents _ p.1 (List.mem_of_mem_take p.2)
    simp only [depth]
    omega

theorem searched_eq (args : AccessCheckerArgs) :
    checker.searched args =
      args :: ((checker.subjects.parents args.subject).flatMap
          fun p => checker.searched { args with subject := p }) ++
        if checker.verdict args = .deny then []
        else ((checker.objects.parents args.object).take 1).flatMap
          fun p => checker.searched { args with object := p } := by
  rw [searched]
  simp

abbrev decides (args : AccessCheckerArgs) : Bool := (checker.verdict args).decides

/-- The calls of the callback when the search ends at a pair, or without one. -/
def outcome : Option AccessCheckerArgs → List AccessStatus
  | none => [.deny]
  | some args => if checker.verdict args = .byOperation then [] else [.grant]

theorem outcome_some (args : AccessCheckerArgs) :
    checker.outcome (some args) = [] ∨ checker.outcome (some args) = [.grant] := by
  rw [outcome]
  split
  · exact .inl rfl
  · exact .inr rfl

section Iteration

variable {α : Type} {check : α → Option AccessCache → Reply}
  {found : α → Option AccessCheckerArgs}

/-- Subjects are iterated up to the first one whose check does not end in a denial. -/
theorem eachParent_subjects {onEnd : Option AccessCache → Reply} {last : Option AccessCheckerArgs}
    (he : onEnd none = ⟨checker.outcome last, none⟩) :
    ∀ parents : List α, (∀ p ∈ parents, check p none = ⟨checker.outcome (found p), none⟩) →
      eachParent (parentCb (· = .grant) check) onEnd parents none =
        ⟨checker.outcome ((parents.findSome? found).or last), none⟩ := by
  intro parents
  induction parents with
  | nil => exact fun _ => he
  | cons p parents ih =>
    intro hc
    have hrest := ih fun q hq => hc q (List.mem_cons_of_mem p hq)
    rw [eachParent, parentCb, hc p List.mem_cons_self, List.findSome?_cons]
    cases hp : found p with
    | none => simp [outcome, Reply.handle, hrest]
    | some args =>
      obtain h | h := checker.outcome_some args
      · simp [h, Reply.handle]
      · simp [h, Reply.handle]

/-- The first parent of an object ends the iteration, whatever its check ends in. -/
theorem eachParent_objects (parents : List α)
    (hc : ∀ p ∈ parents, check p none = ⟨checker.outcome (found p), none⟩) :
    eachParent (parentCb (fun status => status = .grant ∨ status = .deny) check)
        (fun cache => ⟨[.deny], cache⟩) parents none =
      ⟨checker.outcome ((parents.take 1).findSome? found), none⟩ := by
  cases parents with
  | nil => rfl
  | cons p parents =>
    rw [eachParent, parentCb, hc p List.mem_cons_self]
    cases hp : found p with
    | none => simp [outcome, Reply.handle, hp]
    | some args =>
      obtain h | h := checker.outcome_some args
      · simp [h, Reply.handle, hp]
      · simp [h, Reply.handle, hp]

end Iteration

/-- The pair found first from `args` on. -/
def found (args : AccessCheckerArgs) : Option AccessCheckerArgs :=
  (checker.searched args).find? checker.decides

theorem checkAccess_none (args initialArgs : AccessCheckerArgs) :
    checker.checkAccess args initialArgs none = checker.find args initialArgs none := by
  rw [checkAccess]

theorem iterateObjHierarchy_none {prevStatus : AccessStatus} {args initialArgs : AccessCheckerArgs}
    (ih : ∀ p ∈ checker.objects.parents args.object,
      checker.find { args with object := p } initialArgs none =
        ⟨checker.outcome (checker.found { args with object := p }), none⟩) :
    checker.iterateObjHierarchy prevStatus args initialArgs none =
      ⟨checker.outcome (if prevStatus = .deny then none
        else ((checker.objects.parents args.object).take 1).findSome?
          fun p => checker.found { args with object := p }), none⟩ := by
  by_cases hs : prevStatus = .deny
  · rw [hs, iterateObjHierarchy_deny, if_pos rfl]
    rfl
  · rw [checker.iterateObjHierarchy_eq hs, if_neg hs]
    exact checker.eachParent_objects _ fun p hp => by rw [checkAccess_none, ih p hp]

/-- The pair found first from `args`: that pair itself, else one found from a parent of the
subject, else one found from the first parent of the object. -/
theorem found_eq (args : AccessCheckerArgs) :
    checker.found args =
      if checker.decides args then some args
      else ((checker.subjects.parents args.subject).findSome?
          fun p => checker.found { args with subject := p }).or
        (if checker.verdict args = .deny then none
          else ((checker.objects.parents args.object).take 1).findSome?
            fun p => checker.found { args with object := p }) := by
  rw [found, searched_eq, List.cons_append, List.find?_cons, List.find?_append,
    List.find?_flatMap]
  cases hd : checker.decides args with
  | true => rfl
  | false =>
    dsimp only [found]
    rw [if_neg Bool.false_ne_true]
    by_cases hv : checker.verdict args = .deny
    · rw [if_pos hv, if_pos hv, List.find?_nil]
    · rw [if_neg hv, if_neg hv, List.find?_flatMap]

/-- Without a cache the callback is called with the outcome of the search. -/
theorem find_none (args initialArgs : AccessCheckerArgs) :
    checker.find args initialArgs none = ⟨checker.outcome (checker.found args), none⟩ := by
  induction hn : checker.depth args using Nat.strong_induction_on generalizing args with
  | _ n ih =>
    have hsubj : ∀ p ∈ checker.subjects.parents args.subject,
        checker.find { args with subject := p } initialArgs none =
          ⟨checker.outcome (checker.found { args with subject := p }), none⟩ := by
      intro p hp
      have := checker.subjects.depth_parents _ p hp
      exact ih _ (by simp only [← hn, depth]; omega) _ rfl
    have hobj : ∀ p ∈ checker.objects.parents args.object,
        checker.find { args with object := p } initialArgs none =
          ⟨checker.outcome (checker.found { args with object := p }), none⟩ := by
      intro p hp
      have := checker.objects.depth_parents _ p hp
      exact ih _ (by simp only [← hn, depth]; omega) _ rfl
    have hiter : ∀ prevStatus, checker.iterateSubjHierarchy prevStatus args initialArgs none =
        ⟨checker.outcome (((checker.subjects.parents args.subject).findSome?
            fun p => checker.found { args with subject := p }).or
          (if prevStatus = .deny then none
            else ((checker.objects.parents args.object).take 1).findSome?
              fun p => checker.found { args with object := p })), none⟩ := by
      intro prevStatus
      rw [iterateSubjHierarchy_eq]
      exact checker.eachParent_subjects (checker.iterateObjHierarchy_none hobj) _
        fun p hp => by rw [checkAccess_none, hsubj p hp]
    rw [find_eq_verdict, found_eq, decides]
    cases hv : checker.verdict args with
    | byOperation => simp [Verdict.decides, outcome, hv]
    | byFamily => simp [Verdict.decides, outcome, hv]
    | deny => exact hiter .deny
    | unknown => exact hiter .unknown

end AccessChecker

/-! ## What the tables say -/

/-- A role related to the pair has a grant rule for the operation, or these roles have no
rule for it and one of them has a family mask with the operation's bit. -/
def AccessCheckerArgs.Grants (args : AccessCheckerArgs) (db : AclDb) : Prop :=
  let roles := (args.relations db).map (·.role)
  (∃ roleOp ∈ args.roleOperations db roles, roleOp.grant) ∨
    args.roleOperations db roles = [] ∧
      ∃ obj ∈ args.opFamilyAccess db roles, obj.access &&& args.operation.accessMask ≠ 0

/-- No rule for the operation denies it. -/
structure AclDb.NoDenial (db : AclDb) (operation : Operation) : Prop where
  operations : ∀ topic, ∀ roleOp ∈ db.roleOperations topic,
    roleOp.operation = operation.name → roleOp.grant
  families : ∀ topic, ∀ obj ∈ db.opFamilyAccess topic,
    obj.opFamily = operation.familyName → obj.access &&& operation.accessMask ≠ 0

namespace AclDb

variable (db : AclDb)

theorem cut_sublist {α : Type} (rows : List α) : (db.cut rows).Sublist rows := by
  rw [cut]
  split
  · exact List.Sublist.refl rows
  · exact List.take_sublist _ rows

theorem cut_eq_nil {α : Type} {rows : List α} : db.cut rows = [] ↔ rows = [] := by
  rw [cut]
  split
  · rfl
  · rename_i hl
    rw [List.take_eq_nil_iff]
    exact ⟨fun h => h.resolve_left hl, .inr⟩

end AclDb

namespace AccessCheckerArgs

variable {args : AccessCheckerArgs} {db : AclDb}

theorem listRelations_subset :
    args.listRelations db ⊆ (args.relations db).map (·.role) :=
  ((db.cut_sublist _).map _).subset

theorem verdict_byFamily_iff :
    args.verdict db = .byFamily ↔
      args.roleOperations db (args.listRelations db) = [] ∧
        ∃ obj ∈ args.listOpFamilyAccess db (args.listRelations db),
          obj.access &&& args.operation.accessMask ≠ 0 := by
  have hops : operationStatus (args.listOperations db (args.listRelations db)) = .unknown ↔
      args.roleOperations db (args.listRelations db) = [] :=
    (evaluate_eq_unknown _).trans db.cut_eq_nil
  have hfam : familyStatus args (args.listOpFamilyAccess db (args.listRelations db)) = .grant ↔
      ∃ obj ∈ args.listOpFamilyAccess db (args.listRelations db),
        obj.access &&& args.operation.accessMask ≠ 0 := by
    rw [familyStatus, evaluate_eq_grant]
    simp
  rw [← hops, ← hfam, verdict]
  by_cases hr : (args.listRelations db).isEmpty
  · have hnil : args.listRelations db = [] := List.isEmpty_iff.mp hr
    have : args.listOpFamilyAccess db [] = [] := by
      simp [listOpFamilyAccess, opFamilyAccess, AclDb.cut_eq_nil]
    simp [hnil, this, familyStatus, evaluate]
  · simp only [hr, Bool.false_eq_true, if_false]
    cases operationStatus (args.listOperations db (args.listRelations db)) with
    | grant => simp
    | deny => simp
    | unknown =>
      cases familyStatus args (args.listOpFamilyAccess db (args.listRelations db)) <;> simp

/-- Without denials a pair whose rows are seen to grant does grant. -/
theorem grants_of_byFamily (hn : db.NoDenial args.operation) (hv : args.verdict db = .byFamily) :
    args.Grants db := by
  obtain ⟨-, obj, hobj, hmask⟩ := verdict_byFamily_iff.mp hv
  cases hops : args.roleOperations db ((args.relations db).map (·.role)) with
  | nil =>
    refine .inr ⟨hops, obj, ?_, hmask⟩
    have hmem := (db.cut_sublist _).subset hobj
    simp only [opFamilyAccess, List.mem_filter, decide_eq_true_eq] at hmem ⊢
    exact ⟨hmem.1, listRelations_subset hmem.2.1, hmem.2.2⟩
  | cons roleOp rest =>
    have hmem : roleOp ∈ args.roleOperations db ((args.relations db).map (·.role)) := by simp [hops]
    refine .inl ⟨roleOp, hmem, ?_⟩
    simp only [roleOperations, List.mem_filter, decide_eq_true_eq] at hmem
    exact hn.operations _ roleOp hmem.1 hmem.2.2

theorem verdict_ne_deny (hn : db.NoDenial args.operation) : args.verdict db ≠ .deny := by
  have hops : operationStatus (args.listOperations db (args.listRelations db)) ≠ .deny := by
    refine evaluate_ne_deny fun roleOp hmem => ?_
    have hrow := (db.cut_sublist _).subset hmem
    simp only [roleOperations, List.mem_filter, decide_eq_true_eq] at hrow
    exact hn.operations _ roleOp hrow.1 hrow.2.2
  have hfam : familyStatus args (args.listOpFamilyAccess db (args.listRelations db)) ≠ .deny := by
    refine evaluate_ne_deny fun obj hmem => ?_
    have hrow := (db.cut_sublist _).subset hmem
    simp only [opFamilyAccess, List.mem_filter, decide_eq_true_eq] at hrow
    simpa using hn.families _ obj hrow.1 hrow.2.2
  rw [verdict]
  by_cases hr : (args.listRelations db).isEmpty
  · simp [hr]
  · simp only [hr, Bool.false_eq_true, if_false]
    split
    · nofun
    · exact fun _ => hops (by assumption)
    · split
      · nofun
      · exact fun _ => hfam (by assumption)
      · nofun

end AccessCheckerArgs

namespace Hierarchy

/-- `p` is `x` or is reached from it through first parents. -/
def FirstAbove (h : Hierarchy) (x p : ObjectWrapper) : Prop :=
  Relation.ReflTransGen (fun x p => (h.parents x).head? = some p) x p

theorem FirstAbove.above {h : Hierarchy} {x p : ObjectWrapper} (hx : h.FirstAbove x p) :
    h.Above x p :=
  Relation.ReflTransGen.mono (fun _ _ hp => List.mem_of_mem_head? (by exact hp)) x p hx

end Hierarchy

namespace AccessChecker

variable (checker : AccessChecker)

/-- A searched pair consists of ancestors, those of the object on the line of first parents. -/
theorem above_of_mem_searched {args a : AccessCheckerArgs} (ha : a ∈ checker.searched args) :
    checker.objects.FirstAbove args.object a.object ∧
      checker.subjects.Above args.subject a.subject ∧ a.operation = args.operation := by
  induction hn : checker.depth args using Nat.strong_induction_on generalizing args with
  | _ n ih =>
    rw [searched_eq, List.cons_append, List.mem_cons, List.mem_append, List.mem_flatMap] at ha
    obtain rfl | ⟨p, hp, ha⟩ | ha := ha
    · exact ⟨.refl, .refl, rfl⟩
    · have := checker.subjects.depth_parents _ p hp
      obtain ⟨ho, hs, hop⟩ := ih _ (by simp only [← hn, depth]; omega) ha rfl
      exact ⟨ho, .head hp hs, hop⟩
    · split at ha
      · simp at ha
      · obtain ⟨p, hp, ha⟩ := List.mem_flatMap.mp ha
        have := checker.objects.depth_parents _ p (List.mem_of_mem_take hp)
        obtain ⟨ho, hs, hop⟩ := ih _ (by simp only [← hn, depth]; omega) ha rfl
        refine ⟨.head ?_ ho, hs, hop⟩
        cases hps : checker.objects.parents args.object with
        | nil => simp [hps] at hp
        | cons q qs => simpa [hps, eq_comm] using hp

theorem searched_subject_subset {args : AccessCheckerArgs} {p : ObjectWrapper}
    (hp : p ∈ checker.subjects.parents args.subject) :
    checker.searched { args with subject := p } ⊆ checker.searched args := by
  intro a ha
  rw [checker.searched_eq args, List.mem_append]
  exact .inl (List.mem_cons_of_mem _ (List.mem_flatMap.mpr ⟨p, hp, ha⟩))

theorem searched_object_subset {args : AccessCheckerArgs} {p : ObjectWrapper}
    (hn : checker.db.NoDenial args.operation)
    (hp : (checker.objects.parents args.object).head? = some p) :
    checker.searched { args with object := p } ⊆ checker.searched args := by
  intro a ha
  rw [checker.searched_eq args, List.mem_append,
    if_neg (AccessCheckerArgs.verdict_ne_deny hn)]
  refine .inr (List.mem_flatMap.mpr ⟨p, ?_, ha⟩)
  obtain ⟨ps, hps⟩ := List.head?_eq_some_iff.mp hp
  simp [hps]

/-- Without denials every pair on these lines is searched. -/
theorem mem_searched {operation : Operation} {o o' s s' : ObjectWrapper}
    (hn : checker.db.NoDenial operation) (ho : checker.objects.FirstAbove o o')
    (hs : checker.subjects.Above s s') :
    ⟨o', s', operation⟩ ∈ checker.searched ⟨o, s, operation⟩ := by
  induction ho using Relation.ReflTransGen.head_induction_on with
  | refl =>
    induction hs using Relation.ReflTransGen.head_induction_on with
    | refl =>
      rw [searched_eq, List.cons_append]
      exact List.mem_cons_self
    | head hp _ ih => exact checker.searched_subject_subset hp ih
  | head hp _ ih => exact checker.searched_object_subset hn hp ih

/-! ## The decision -/

abbrev Grants (args : AccessCheckerArgs) : Prop := args.Grants checker.db

/-- Some pair of the object or an ancestor and the subject or an ancestor grants. -/
def AncestorsGrant (args : AccessCheckerArgs) : Prop :=
  ∃ o s, checker.objects.Above args.object o ∧ checker.subjects.Above args.subject s ∧
    checker.Grants ⟨o, s, args.operation⟩

/-- What a call without a cache is to do. -/
structure Decides (args : AccessCheckerArgs) : Prop where
  once : (checker.call args none).calls = [.grant] ∨ (checker.call args none).calls = [.deny]
  grant_of_grants : checker.Grants args → (checker.call args none).calls = [.grant]
  grant_iff : checker.db.NoDenial args.operation →
    ((checker.call args none).calls = [.grant] ↔ checker.AncestorsGrant args)

/-- The rows that the queries return suffice to decide, and no rule for the operation
itself does.  -/
structure DecidedByFamily (args : AccessCheckerArgs) : Prop where
  first : ∀ a, (checker.searched args).find? checker.decides = some a →
    checker.verdict a = .byFamily
  seen : checker.Grants args → ∃ a ∈ checker.searched args, checker.verdict a = .byFamily
  onFirstParents : checker.db.NoDenial args.operation → checker.AncestorsGrant args →
    ∃ o s, checker.objects.FirstAbove args.object o ∧ checker.subjects.Above args.subject s ∧
      checker.verdict ⟨o, s, args.operation⟩ = .byFamily

theorem call_none (args : AccessCheckerArgs) :
    (checker.call args none).calls = checker.outcome (checker.found args) := by
  rw [call, checkAccess_none, find_none]

theorem outcome_eq_grant {found : Option AccessCheckerArgs} :
    checker.outcome found = [.grant] ↔ ∃ a, found = some a ∧ checker.verdict a ≠ .byOperation := by
  cases found with
  | none => simp [outcome]
  | some a =>
    rw [outcome]
    split <;> simp_all

theorem found_some {args a : AccessCheckerArgs} (ha : checker.found args = some a) :
    a ∈ checker.searched args ∧ (checker.verdict a).decides :=
  ⟨List.mem_of_find?_eq_some ha, List.find?_some (p := checker.decides) ha⟩

theorem byFamily_of_decides {v : Verdict} (hd : v.decides) (hv : v ≠ .byOperation) :
    v = .byFamily := by
  cases v with
  | byFamily => rfl
  | byOperation => exact absurd rfl hv
  | unknown | deny => cases hd

/-- Access is granted when a mask decides first, and there is a pair where one does. -/
theorem call_grant_iff (args : AccessCheckerArgs) :
    (checker.call args none).calls = [.grant] ↔
      ∃ a, checker.found args = some a ∧ checker.verdict a = .byFamily := by
  rw [call_none, outcome_eq_grant]
  refine exists_congr fun a => and_congr_right fun ha => ⟨fun hv => ?_, fun hv => ?_⟩
  · exact byFamily_of_decides (checker.found_some ha).2 hv
  · rw [hv]
    nofun

theorem exists_found {args a : AccessCheckerArgs} (ha : a ∈ checker.searched args)
    (hv : checker.verdict a = .byFamily) : ∃ b, checker.found args = some b := by
  refine Option.isSome_iff_exists.mp ?_
  rw [found, List.find?_isSome]
  exact ⟨a, ha, by rw [decides, hv]; rfl⟩

/-- A call decides as it is to if and only if the first pair that decides does so by a
family mask, and the granting roles are found among the pairs that are searched. -/
theorem decides_iff (args : AccessCheckerArgs) :
    checker.Decides args ↔ checker.DecidedByFamily args := by
  constructor
  · intro h
    refine ⟨fun a ha => ?_, fun hg => ?_, fun hn hg => ?_⟩
    · by_contra hv
      have hop : checker.verdict a = .byOperation := by
        by_contra hop
        exact hv (byFamily_of_decides (checker.found_some ha).2 hop)
      have hlost : (checker.call args none).calls = [] := by
        rw [call_none, found, ha, outcome, if_pos hop]
      simpa [hlost] using h.once
    · obtain ⟨a, ha, hv⟩ := (checker.call_grant_iff args).mp (h.grant_of_grants hg)
      exact ⟨a, (checker.found_some ha).1, hv⟩
    · obtain ⟨a, ha, hv⟩ := (checker.call_grant_iff args).mp ((h.grant_iff hn).mpr hg)
      obtain ⟨ho, hs, hop⟩ := checker.above_of_mem_searched (checker.found_some ha).1
      refine ⟨a.object, a.subject, ho, hs, ?_⟩
      rwa [← hop]
  · intro h
    have hgrant : ∀ a ∈ checker.searched args, checker.verdict a = .byFamily →
        (checker.call args none).calls = [.grant] := by
      intro a ha hv
      obtain ⟨b, hb⟩ := checker.exists_found ha hv
      exact (checker.call_grant_iff args).mpr ⟨b, hb, h.first b hb⟩
    refine ⟨?_, fun hg => ?_, fun hn => ⟨fun hc => ?_, fun hg => ?_⟩⟩
    · cases hf : checker.found args with
      | none =>
        right
        rw [call_none, hf, outcome]
      | some a => exact .inl ((checker.call_grant_iff args).mpr ⟨a, hf, h.first a hf⟩)
    · obtain ⟨a, ha, hv⟩ := h.seen hg
      exact hgrant a ha hv
    · obtain ⟨a, ha, hv⟩ := (checker.call_grant_iff args).mp hc
      obtain ⟨ho, hs, hop⟩ := checker.above_of_mem_searched (checker.found_some ha).1
      have hg := AccessCheckerArgs.grants_of_byFamily (hop ▸ hn) hv
      refine ⟨a.object, a.subject, ho.above, hs, ?_⟩
      rwa [← hop]
    · obtain ⟨o, s, ho, hs, hv⟩ := h.onFirstParents hn hg
      exact hgrant _ (checker.mem_searched hn ho hs) hv

/-- A role of the pair has a grant rule for the operation. -/
def granted : AccessChecker where
  db :=
    { relations := fun _ => [⟨"obj", "subj", ⟨1, 0, 0⟩⟩]
      roleOperations := fun _ => [⟨⟨1, 0, 0⟩, "read", true⟩]
      opFamilyAccess := fun _ => []
      defaultLimit := 100 }
  subjHierarchy := none
  objHierarchy := none

def readCall : AccessCheckerArgs :=
  ⟨⟨"obj", "topic", "doc"⟩, ⟨"subj", "topic", "user"⟩, ⟨"docs", "read", 2⟩⟩

/-- The role grants, and the callback is not called. -/
theorem not_decides_granted :
    granted.Grants readCall ∧ (granted.call readCall none).calls = [] ∧
      ¬ granted.Decides readCall := by
  have hv : granted.verdict readCall = .byOperation := by decide
  have hcalls : (granted.call readCall none).calls = [] := by
    rw [call_none, found_eq, if_pos (by rw [decides, hv]; rfl), outcome, if_pos hv]
  refine ⟨.inl ⟨⟨⟨1, 0, 0⟩, "read", true⟩, by decide, rfl⟩, hcalls, fun h => ?_⟩
  simpa [hcalls] using h.once

/-! ## The cache -/

theorem call_some (args : AccessCheckerArgs) (cache : AccessCache) :
    checker.call args (some cache) = ⟨[cache.find args], some cache⟩ := by
  rw [call, checkAccess]

theorem call_none_cache (args : AccessCheckerArgs) : (checker.call args none).cache = none := by
  rw [call, checkAccess_none, find_none]

/-- A cache hands the callback of the caller its own answer, so nothing is ever stored. -/
theorem run_empty (calls : List AccessCheckerArgs) :
    checker.run calls (some .empty) = calls.map fun _ => [.unknown] := by
  induction calls with
  | nil => rfl
  | cons args calls ih =>
    rw [run, call_some, List.map_cons, ih]
    rfl

theorem run_none (calls : List AccessCheckerArgs) :
    checker.run calls none = calls.map fun args => checker.outcome (checker.found args) := by
  induction calls with
  | nil => rfl
  | cons args calls ih => rw [run, call_none_cache, call_none, List.map_cons, ih]

theorem outcome_ne_unknown (found : Option AccessCheckerArgs) :
    checker.outcome found ≠ [.unknown] := by
  cases found with
  | none => nofun
  | some a =>
    obtain h | h := checker.outcome_some a
    · rw [h]
      nofun
    · rw [h]
      nofun

/-- With a cache no call reports what it reports without one. -/
theorem run_empty_eq_iff (calls : List AccessCheckerArgs) :
    checker.run calls (some .empty) = checker.run calls none ↔ calls = [] := by
  constructor
  · intro h
    cases calls with
    | nil => rfl
    | cons args calls =>
      rw [run_empty, run_none, List.map_cons, List.map_cons, List.cons.injEq] at h
      exact absurd h.1.symm (checker.outcome_ne_unknown _)
  · rintro rfl
    rfl

/-- A subject without roles. -/
def otherCall : AccessCheckerArgs := { readCall with subject := ⟨"other", "topic", "user"⟩ }

/-- A call that is denied without a cache is answered as unknown by an empty one. -/
theorem run_empty_ne_granted :
    granted.run [otherCall] (some .empty) = [[.unknown]] ∧
      granted.run [otherCall] none = [[.deny]] ∧
      granted.run [otherCall] (some .empty) ≠ granted.run [otherCall] none := by
  have hf : granted.found otherCall = none := by
    rw [found_eq, if_neg (by decide)]
    rfl
  have hnone : granted.run [otherCall] none = [[.deny]] := by
    rw [run_none, List.map_singleton, hf, outcome]
  have hempty : granted.run [otherCall] (some .empty) = [[.unknown]] := granted.run_empty _
  refine ⟨hempty, hnone, ?_⟩
  rw [hempty, hnone]
  decide

end AccessChecker

end Hatn.Utility
