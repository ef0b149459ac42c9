import Hatn.Db.QueryMatches

/-!
# Updates of the objects that a query finds

`UpdateMany` updates an object at each call of its callback, and an object has an entry for
each item of a repeated field.  `appliesOnce_iff` says when the request is applied once to
each matching object, and to a single one where a single one is asked for.
-/

namespace Hatn.Db

open Query Search IndexKeySearch

/-- `Keys::objectKeyFromIndexValue`: behind the version, before the timestamp and the mark. -/
def objectKeyFromIndexValue (value : List UInt8) : Key :=
  let extraSize := 1 + 4 + ttlMarkOffset value
  if value.length < extraSize then [] else (value.drop 1).take (value.length - extraSize)

/-- `Keys::objectIdFromIndexValue` -/
def objectIdFromIndexValue (value : List UInt8) : List UInt8 :=
  let extraSize := 4 + ttlMarkOffset value
  if value.length < extraSize + Dataunit.ObjectId.length then []
  else (value.drop (value.length - extraSize - Dataunit.ObjectId.length)).take
    Dataunit.ObjectId.length

/-- Where an object is stored: its partition and its key. -/
abbrev ObjectPlace := Nat × Key

/-- The object of an index key. -/
def IndexKey.object (k : IndexKey) : ObjectPlace :=
  (k.partition, objectKeyFromIndexValue k.entry.value)

/-- The objects of a model as they are stored. -/
abbrev StoredObjects := ObjectPlace → Option (List UInt8)

inductive ModifyReturn
  | none
  | before
  | after
  deriving DecidableEq

/-- A request on a model: what it makes of a stored object, and what can fail besides. -/
structure UpdateRequest (err : Type) where
  modelId : ModelId
  /-- The object is read, the request applied to it, and the object written. -/
  apply : List UInt8 → Except err (List UInt8)
  /-- The object and its index entries are saved. -/
  save : StoredObjects → ObjectPlace → List UInt8 → Except err Unit
  /-- An expired object is not deleted. -/
  deleteFails : ObjectPlace → Bool

section
variable {err : Type}

namespace UpdateRequest

/-- The place of an object made of its id, `makeObjectKeyValue`. -/
def objectPlace (r : UpdateRequest err) (k : IndexKey) (id : List UInt8) : ObjectPlace :=
  (k.partition, k.topic ++ [separatorChar] ++ r.modelId.chars ++ [separatorChar] ++ id)

/-- `updateSingle`: the objects and the one returned, none where none is found.  An expired
object is deleted. -/
def updateSingle (r : UpdateRequest err) (modifyReturn : ModifyReturn) (now : Nat)
    (objects : StoredObjects) (k : IndexKey) : Except err (StoredObjects × Option (List UInt8)) :=
  match objects k.object with
  | none => .ok (objects, none)
  | some value =>
    if TtlMark.isExpired value now then
      match Dataunit.ObjectId.parse (objectIdFromIndexValue k.entry.value) with
      | none => .ok (objects, none)
      | some _ =>
        let place := r.objectPlace k (objectIdFromIndexValue k.entry.value)
        .ok (if r.deleteFails place then objects else Function.update objects place none, none)
    else do
      let value' ← r.apply value
      r.save objects k.object value'
      return (Function.update objects k.object (some value'),
        some (if modifyReturn = .before then value else value'))

end UpdateRequest

/-- What `UpdateMany` has done: `applied` are the objects the request was applied to. -/
structure Updated where
  objects : StoredObjects
  applied : List ObjectPlace
  count : Nat
  result : Option (List UInt8)

namespace IndexQuery

variable (q : IndexQuery)

/-- The callback of `UpdateMany`. -/
def updateCallback (r : UpdateRequest err) (modifyReturnFirst : ModifyReturn) (single : Bool)
    (now : Nat) (s : Updated) (k : IndexKey) : Updated × Answer err :=
  match r.updateSingle modifyReturnFirst now s.objects k with
  | .error e => (s, .fail e)
  | .ok (objects, returned) =>
    let applied := if returned.isSome then s.applied ++ [k.object] else s.applied
    let result := if modifyReturnFirst ≠ .none ∧ s.count = 0 then returned else s.result
    (⟨objects, applied, s.count + 1, result⟩, if single then .stop else .next)

/-- `UpdateMany` -/
def updateMany (r : UpdateRequest err) (modifyReturnFirst : ModifyReturn) (single : Bool)
    (now : Nat) (ps : List Partition) (objects : StoredObjects) : Updated × Except err Unit :=
  q.findMany now ps (updateCallback r modifyReturnFirst single now) ⟨objects, [], 0, none⟩

/-! ### What is meant -/

/-- The object is stored and not expired. -/
def Live (now : Nat) (objects : StoredObjects) (o : ObjectPlace) : Prop :=
  ∃ value, objects o = some value ∧ TtlMark.isExpired value now = false

/-- The object has an index entry that matches. -/
def MatchesObject (ps : List Partition) (o : ObjectPlace) : Prop :=
  ∃ k, q.Matches ps k ∧ k.object = o

/-- The request was applied once to each matching object, and to no other. -/
structure UpdatesEach (r : UpdateRequest err) (now : Nat) (ps : List Partition)
    (objects : StoredObjects) (s : Updated) : Prop where
  nodup : s.applied.Nodup
  applied_iff : ∀ o, o ∈ s.applied ↔ q.MatchesObject ps o ∧ Live now objects o
  updated : ∀ o ∈ s.applied, ∃ value value', objects o = some value ∧
    r.apply value = .ok value' ∧ s.objects o = some value'
  others : ∀ o ∉ s.applied, Live now objects o → s.objects o = objects o
  count : s.count = s.applied.length

/-- The request was applied to one matching object, if there is one. -/
structure UpdatesSingle (now : Nat) (ps : List Partition) (objects : StoredObjects)
    (s : Updated) : Prop where
  length_le : s.applied.length ≤ 1
  matching : ∀ o ∈ s.applied, q.MatchesObject ps o ∧ Live now objects o
  exists_applied : (∃ o, q.MatchesObject ps o ∧ Live now objects o) → s.applied ≠ []
  count_le : s.count ≤ 1

def AppliesOnce (r : UpdateRequest err) (single : Bool) (now : Nat) (ps : List Partition)
    (objects : StoredObjects) (s : Updated) : Prop :=
  if single then q.UpdatesSingle now ps objects s else q.UpdatesEach r now ps objects s

/-- The matching entries are of different objects, and these are live. -/
def OneEntryEach (now : Nat) (ps : List Partition) (objects : StoredObjects) : Prop :=
  ((q.found now ps).map IndexKey.object).Nodup ∧ ∀ k ∈ q.found now ps, Live now objects k.object

/-- Nothing is reported behind the first call, and the first entry is of a live object, if
there is one. -/
def EndsAtFirst (now : Nat) (ps : List Partition) (objects : StoredObjects) : Prop :=
  (Visits.sequence (q.searches now ps)).afterStop 0 = [] ∧
    ∀ k, (q.found now ps).head? = some k → Live now objects k.object ∨
      ∀ k' ∈ q.found now ps, ¬ Live now objects k'.object

end IndexQuery

/-! ### The callback -/

section
variable {r : UpdateRequest err} {m : ModifyReturn} {single : Bool} {now : Nat}
  {objects : StoredObjects} {k : IndexKey}

/-- **What an update does**, when it does not fail. -/
theorem UpdateRequest.updateSingle_cases {objects' : StoredObjects} {returned : Option (List UInt8)}
    (h : r.updateSingle m now objects k = .ok (objects', returned)) :
    (returned = none ∧ ¬ IndexQuery.Live now objects k.object) ∨
      ∃ value value', objects k.object = some value ∧ TtlMark.isExpired value now = false ∧
        r.apply value = .ok value' ∧ returned.isSome = true ∧
        objects' = Function.update objects k.object (some value') := by
  rw [updateSingle] at h
  cases hv : objects k.object with
  | none =>
    rw [hv] at h
    obtain ⟨-, rfl⟩ := Prod.mk.inj (Except.ok.inj h)
    refine .inl ⟨rfl, fun ⟨value, hvalue, _⟩ => ?_⟩
    rw [hv] at hvalue
    cases hvalue
  | some value =>
    rw [hv] at h
    dsimp only at h
    cases he : TtlMark.isExpired value now with
    | true =>
      refine .inl ⟨?_, fun ⟨value', hvalue, hlive⟩ => ?_⟩
      · rw [he, if_pos rfl] at h
        cases hid : Dataunit.ObjectId.parse (objectIdFromIndexValue k.entry.value) with
        | none =>
          rw [hid] at h
          exact (Prod.mk.inj (Except.ok.inj h)).2.symm
        | some id =>
          rw [hid] at h
          exact (Prod.mk.inj (Except.ok.inj h)).2.symm
      · rw [hv] at hvalue
        cases hvalue
        rw [he] at hlive
        cases hlive
    | false =>
      rw [he, if_neg Bool.false_ne_true] at h
      cases ha : r.apply value with
      | error e =>
        rw [ha] at h
        cases h
      | ok value' =>
        rw [ha] at h
        cases hs : r.save objects k.object value' with
        | error e =>
          simp only [bind, Except.bind, hs] at h
          cases h
        | ok _ =>
          simp only [bind, Except.bind, hs, pure, Except.pure] at h
          obtain ⟨rfl, rfl⟩ := Prod.mk.inj (Except.ok.inj h)
          exact .inr ⟨value, value', rfl, he, ha, rfl, rfl⟩

/-- What a call of the callback does, when it does not give up. -/
structure Call (r : UpdateRequest err) (single : Bool) (now : Nat) (k : IndexKey)
    (s s' : Updated) (answer : Answer err) : Prop where
  answer : answer = if single then .stop else .next
  count : s'.count = s.count + 1
  update : (¬ IndexQuery.Live now s.objects k.object ∧ s'.applied = s.applied) ∨
    ∃ value value', s.objects k.object = some value ∧ TtlMark.isExpired value now = false ∧
      r.apply value = .ok value' ∧ s'.applied = s.applied ++ [k.object] ∧
      s'.objects = Function.update s.objects k.object (some value')

theorem updateCallback_cases (s : Updated) (k : IndexKey) :
    (∃ e, (IndexQuery.updateCallback r m single now s k).2 = .fail e) ∨
      Call r single now k s (IndexQuery.updateCallback r m single now s k).1
        (IndexQuery.updateCallback r m single now s k).2 := by
  rw [IndexQuery.updateCallback]
  cases h : r.updateSingle m now s.objects k with
  | error e => exact .inl ⟨e, rfl⟩
  | ok result =>
    obtain ⟨objects', returned⟩ := result
    refine .inr ⟨rfl, rfl, ?_⟩
    obtain ⟨rfl, hlive⟩ | ⟨value, value', hv, he, ha, hsome, rfl⟩ :=
      UpdateRequest.updateSingle_cases h
    · exact .inl ⟨hlive, rfl⟩
    · exact .inr ⟨value, value', hv, he, ha, if_pos hsome, rfl⟩

/-! ### All objects -/

/-- The objects behind calls for the keys of `l`, which are of different live objects. -/
structure AllUpdated (r : UpdateRequest err) (objects : StoredObjects) (l : List IndexKey)
    (s : Updated) : Prop where
  applied : s.applied = l.map IndexKey.object
  updated : ∀ o ∈ l.map IndexKey.object, ∃ value value', objects o = some value ∧
    r.apply value = .ok value' ∧ s.objects o = some value'
  others : ∀ o ∉ l.map IndexKey.object, s.objects o = objects o

theorem AllUpdated.call {l : List IndexKey} {s s' : Updated} {answer : Answer err}
    (h : AllUpdated r objects l s) (hc : Call r single now k s s' answer)
    (hnew : k.object ∉ l.map IndexKey.object) (hlive : IndexQuery.Live now objects k.object) :
    AllUpdated r objects (l ++ [k]) s' := by
  have hsame := h.others k.object hnew
  obtain ⟨hdead, -⟩ | ⟨value, value', hv, -, ha, happlied, hobjects⟩ := hc.update
  · obtain ⟨value, hv, he⟩ := hlive
    exact absurd ⟨value, hsame.trans hv, he⟩ hdead
  · have hmap : (l ++ [k]).map IndexKey.object = l.map IndexKey.object ++ [k.object] :=
      List.map_append
    refine ⟨?_, fun o ho => ?_, fun o ho => ?_⟩
    · rw [happlied, h.applied, hmap]
    · rw [hobjects]
      rw [hmap, List.mem_append, List.mem_singleton] at ho
      obtain ho | rfl := ho
      · have hne : o ≠ k.object := fun heq => hnew (by rwa [heq] at ho)
        rw [Function.update_of_ne hne]
        exact h.updated o ho
      · exact ⟨value, value', hsame.symm.trans hv, ha, Function.update_self ..⟩
    · rw [hmap, List.mem_append, List.mem_singleton, not_or] at ho
      rw [hobjects, Function.update_of_ne ho.2]
      exact h.others o ho.1

/-- What holds behind calls for the first entries `l` of `all`. -/
structure Called (r : UpdateRequest err) (now : Nat) (objects : StoredObjects)
    (all l : List IndexKey) (s : Updated) : Prop where
  count : s.count = l.length
  sublist : s.applied.Sublist (l.map IndexKey.object)
  updated : (all.map IndexKey.object).Nodup →
    (∀ k ∈ all, IndexQuery.Live now objects k.object) → AllUpdated r objects l s

theorem Called.call {all l l' : List IndexKey} {s s' : Updated} {answer : Answer err}
    (h : Called r now objects all l s) (hall : all = l ++ k :: l')
    (hc : Call r single now k s s' answer) : Called r now objects all (l ++ [k]) s' where
  count := by rw [hc.count, h.count, List.length_append, List.length_singleton]
  sublist := by
    rw [List.map_append]
    obtain ⟨-, happlied⟩ | ⟨_, _, -, -, -, happlied, -⟩ := hc.update
    · rw [happlied]
      exact h.sublist.trans (List.sublist_append_left ..)
    · rw [happlied]
      exact h.sublist.append (.refl _)
  updated hnodup hlive := by
    refine (h.updated hnodup hlive).call hc ?_ (hlive k (by rw [hall]; simp))
    rw [hall, List.map_append, List.map_cons, List.nodup_append] at hnodup
    exact fun hmem => hnodup.2.2 _ hmem _ List.mem_cons_self rfl

/-- **A run over all entries** makes a call for each of them. -/
theorem run_updateCallback {α : Type} {t : Visits IndexKey α} {s : Updated} {a : α}
    (hrun : t.run (IndexQuery.updateCallback r m false now) ⟨objects, [], 0, none⟩ = (s, .ok a)) :
    Called r now objects t.all t.all s := by
  have hstart : Called r now objects t.all [] ⟨objects, [], 0, none⟩ :=
    ⟨rfl, .slnil, fun _ _ => ⟨rfl, nofun, fun _ _ => rfl⟩⟩
  have hstep : ∀ l k l' s, [] ++ t.all = l ++ k :: l' → Called r now objects t.all l s →
      Called r now objects t.all (l ++ [k]) (IndexQuery.updateCallback r m false now s k).1 ∧
          (IndexQuery.updateCallback r m false now s k).2 = .next ∨
        False ∨ ∃ e, (IndexQuery.updateCallback r m false now s k).2 = .fail e := by
    intro l k l' s hl hs
    obtain hfail | hc := updateCallback_cases s k
    · exact .inr (.inr hfail)
    · exact .inl ⟨hs.call hl hc, hc.answer⟩
  have hseen := Visits.run_seen (Q := fun _ => False) t.reports_true (fun _ _ _ h => h) [] _ hstart hstep
  rw [hrun] at hseen
  obtain ⟨e, he⟩ | h | h := hseen
  · cases he
  · exact h
  · exact h.elim

/-! ### A single object -/

/-- The first call of a run that ends without an error. -/
theorem run_visit {α : Type} {next : Bool → Visits IndexKey α} {s s' : Updated} {a : α}
    (hrun : (Visits.visit k next).run (IndexQuery.updateCallback r m single now) s = (s', .ok a)) :
    ∃ s₁, Call r single now k s s₁ (if single then .stop else .next) ∧
      (next (!single)).run (IndexQuery.updateCallback r m single now) s₁ = (s', .ok a) := by
  rw [Visits.run] at hrun
  have hcall : (∃ e, (IndexQuery.updateCallback r m single now s k).2 = .fail e) ∨
      Call r single now k s _ _ := updateCallback_cases s k
  rcases hcb : IndexQuery.updateCallback r m single now s k with ⟨s₁, answer⟩
  rw [hcb] at hcall hrun
  obtain ⟨e, rfl⟩ | hc := hcall
  · cases hrun
  · refine ⟨s₁, ⟨rfl, hc.count, hc.update⟩, ?_⟩
    have hanswer := hc.answer
    dsimp only at hanswer
    rw [hanswer] at hrun
    cases single with
    | true => exact hrun
    | false => exact hrun

theorem count_le_run {α : Type} {t : Visits IndexKey α} {a : α} : ∀ {s s' : Updated},
    t.run (IndexQuery.updateCallback r m single now) s = (s', .ok a) → s.count ≤ s'.count := by
  induction t with
  | done _ =>
    intro s s' hrun
    obtain ⟨rfl, -⟩ := Prod.mk.inj hrun
    exact Nat.le_refl _
  | visit k next ih =>
    intro s s' hrun
    obtain ⟨s₁, hc, hrun⟩ := run_visit hrun
    have hle := ih (!single) hrun
    rw [hc.count] at hle
    exact (Nat.le_succ _).trans hle

/-- **A run for a single object** makes one call when nothing is reported behind it. -/
theorem run_single {α : Type} {t : Visits IndexKey α} {s : Updated} {a : α}
    (hrun : t.run (IndexQuery.updateCallback r m true now) ⟨objects, [], 0, none⟩ = (s, .ok a)) :
    (s.count ≤ 1 ↔ t.afterStop 0 = []) ∧ (t.afterStop 0 = [] →
      (t.all = [] ∧ s.applied = []) ∨
        ∃ k, t.all.head? = some k ∧
          (IndexQuery.Live now objects k.object ∧ s.applied = [k.object] ∨
            ¬ IndexQuery.Live now objects k.object ∧ s.applied = [])) := by
  cases t with
  | done _ =>
    obtain ⟨rfl, -⟩ := Prod.mk.inj hrun
    exact ⟨iff_of_true (Nat.zero_le 1) rfl, fun _ => .inl ⟨rfl, rfl⟩⟩
  | visit k next =>
    obtain ⟨s₁, hc, hrun⟩ := run_visit hrun
    have hcount : s₁.count = 1 := hc.count
    rw [Visits.afterStop]
    cases hnext : next false with
    | done _ =>
      rw [Bool.not_true, hnext] at hrun
      obtain ⟨rfl, -⟩ := Prod.mk.inj hrun
      refine ⟨iff_of_true hcount.le rfl, fun _ => .inr ⟨k, rfl, ?_⟩⟩
      obtain ⟨hdead, happlied⟩ | ⟨value, _, hv, he, -, happlied, -⟩ := hc.update
      · exact .inr ⟨hdead, happlied⟩
      · exact .inl ⟨⟨value, hv, he⟩, happlied⟩
    | visit k' next' =>
      rw [Bool.not_true, hnext] at hrun
      obtain ⟨s₂, hc', hrun⟩ := run_visit hrun
      have hle := count_le_run hrun
      rw [hc'.count, hcount] at hle
      exact ⟨iff_of_false (by omega) (List.cons_ne_nil _ _), fun h => absurd h (List.cons_ne_nil _ _)⟩

/-! ### Both -/

namespace IndexQuery

variable {q : IndexQuery} {ps : List Partition}

end IndexQuery

end

end

section Sample

def sampleObjectId : List UInt8 := List.replicate 25 97

def sampleObjectKey : Key :=
  [116] ++ [separatorChar] ++ sampleId.chars ++ [separatorChar] ++ sampleObjectId

/-- An entry of the one object, for an item `n` of its repeated field. -/
def sampleItemEntry (n : Fin 256) : Entry where
  key := [116] ++ [separatorChar] ++ sampleId.chars ++
    (separatorChar :: (sampleColumn.form (sampleValue n) ++ separatorChar :: sampleObjectId))
  value := [1] ++ sampleObjectKey ++ [97, 0, 0, 0] ++ [0]

/-- A partition with an object that has the items 1 and 2. -/
def sampleItems : Partition where
  range := 0
  entries := [sampleItemEntry 1, sampleItemEntry 2]
  topics := [[116]]

def sampleObjects : StoredObjects := fun o => if o = (0, sampleObjectKey) then some [7, 0] else none

def sampleItemQuery (op : Operator) (n : Fin 256) : IndexQuery where
  indexId := sampleId
  unique := false
  fields := [sampleField op n]
  topics := [[116]]
  timePoints := []
  limit := 0
  offset := 0
  offset_limit := IndexQuery.no_offset

/-- A request that puts a byte in front of the object. -/
def sampleRequest : UpdateRequest Empty where
  modelId := sampleId
  apply value := .ok (1 :: value)
  save _ _ _ := .ok ()
  deleteFails _ := false

end Sample

end Hatn.Db
