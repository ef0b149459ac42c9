import Hatn.Db.Relations
import Mathlib.Algebra.BigOperators.Group.List.Basic
import Mathlib.Data.List.Induction

/-!
# Objects and their counts

Objects are written and deleted in transactions.  A transaction collects its writes in a
batch, which is applied when it is committed; the relations between models and topics are
updated beside it, at once.  This file follows the objects and the relations over whole
runs: `counted_of_regular` says in which runs the counts are those of the objects.
-/

namespace Hatn.Db

open ModelTopics

/-- The key of an object. -/
structure Place where
  partition : Nat
  modelId : ModelId
  topic : List UInt8
  id : List UInt8
  deriving DecidableEq

/-- Stored objects, each with its mark of expiration. -/
abbrev Objects := AList fun _ : Place => TtlMark

/-- One write of a batch. -/
inductive Write
  | put (place : Place) (ttlMark : TtlMark)
  | delete (place : Place)

namespace Write

def place : Write → Place
  | put place _ => place
  | delete place => place

def apply (objects : Objects) : Write → Objects
  | put place ttlMark => objects.insert place ttlMark
  | delete place => objects.erase place

end Write

def applyBatch (objects : Objects) (batch : List Write) : Objects :=
  batch.foldl Write.apply objects

/-- The partitions of date ranges, by their values, and the models that use them. -/
structure Handler where
  partitions : List Nat
  nodup : partitions.Nodup
  isDatePartitioned : ModelId → Bool

/-- The value of the null range, that of the default partition. -/
def defaultPartition : Nat := 0

namespace Handler

/-- `objectPartition` -/
def objectPartition (handler : Handler) (modelId : ModelId) (range : Nat) : Option Nat :=
  if handler.isDatePartitioned modelId then
    if range ∈ handler.partitions then some range else none
  else some defaultPartition

/-- The partitions that `count` sums up. -/
def countPartitions (handler : Handler) (modelId : ModelId) : List Nat :=
  if handler.isDatePartitioned modelId then handler.partitions else [defaultPartition]

def partitionRanges (handler : Handler) : List Nat := defaultPartition :: handler.partitions

theorem objectPartition_eq_some {handler : Handler} {m : ModelId} {range p : Nat}
    (h : handler.objectPartition m range = some p) : p ∈ handler.countPartitions m := by
  rw [objectPartition] at h
  rw [countPartitions]
  split at h
  · rename_i hm
    split at h
    · rename_i hr
      cases h
      rwa [if_pos hm]
    · cases h
  · rename_i hm
    cases h
    rw [if_neg hm]
    exact List.mem_singleton.mpr rfl

theorem mem_partitionRanges {handler : Handler} {m : ModelId} {p : Nat}
    (h : p ∈ handler.countPartitions m) : p ∈ handler.partitionRanges := by
  rw [countPartitions] at h
  split at h
  · exact List.mem_cons_of_mem _ h
  · rw [List.mem_singleton.mp h]
    exact List.mem_cons_self

theorem countPartitions_nodup (handler : Handler) (m : ModelId) :
    (handler.countPartitions m).Nodup := by
  rw [countPartitions]
  split
  · exact handler.nodup
  · exact List.nodup_singleton _

end Handler

/-! ### Operations -/

/-- What fails in an operation: the read or the write of the object, the indexes behind it,
the relation, the commit. -/
structure Faults where
  object : Bool
  indexes : Bool
  relation : Bool
  commit : Bool

def Faults.none : Faults := ⟨false, false, false, false⟩

structure State where
  objects : Objects
  relations : Relations
  now : Nat
  tx : Option (List Write)

namespace State

/-- The objects as the open transaction sees them. -/
def view (s : State) : Objects := applyBatch s.objects (s.tx.getD [])

/-- What runs in a transaction: from the batch and the relations to both and the success. -/
abbrev TransactionFn := List Write → Relations → List Write × Relations × Bool

/-- `RocksdbHandler::transaction`: within a transaction the function runs in it. -/
def transaction (s : State) (commitFails : Bool) (fn : TransactionFn) : State × Bool :=
  match s.tx with
  | some batch =>
    let (batch', relations, ok) := fn batch s.relations
    ({ s with tx := some batch', relations := relations }, ok)
  | none =>
    let (batch', relations, ok) := fn [] s.relations
    if ok ∧ !commitFails then
      ({ s with objects := applyBatch s.objects batch', relations := relations }, true)
    else ({ s with relations := relations }, false)

/-- `saveObject` and what is saved behind it. -/
def saveObject (place : Place) (ttlMark : TtlMark) (faults : Faults) : TransactionFn :=
  fun batch relations =>
    if faults.object then (batch, relations, false)
    else (batch ++ [.put place ttlMark], relations, !faults.indexes)

/-- `CreateObject`: the relation is updated behind the transaction. -/
def createObject (handler : Handler) (s : State) (modelId : ModelId) (topic : List UInt8)
    (id : List UInt8) (range : Nat) (ttlMark : TtlMark) (faults : Faults) : State :=
  match handler.objectPartition modelId range with
  | none => s
  | some partition =>
    let (s', ok) := s.transaction faults.commit
      (saveObject ⟨partition, modelId, topic, id⟩ ttlMark faults)
    if ok ∧ !faults.relation then
      { s' with relations := s'.relations.update partition modelId topic .add }
    else s'

/-- `doDelete`: the relation is updated within the transaction. -/
def doDelete (objects : Objects) (place : Place) (faults : Faults) : TransactionFn :=
  fun batch relations =>
    if faults.object then (batch, relations, false)
    else if place ∉ applyBatch objects batch then (batch, relations, true)
    else if faults.indexes then (batch ++ [.delete place], relations, false)
    else if faults.relation then (batch ++ [.delete place], relations, true)
    else (batch ++ [.delete place],
      relations.update place.partition place.modelId place.topic .del, true)

def deletePlace (s : State) (place : Place) (faults : Faults) : State × Bool :=
  s.transaction faults.commit (doDelete s.objects place faults)

def deleteObject (handler : Handler) (s : State) (modelId : ModelId) (topic : List UInt8)
    (id : List UInt8) (range : Nat) (faults : Faults) : State :=
  match handler.objectPartition modelId range with
  | none => s
  | some partition => (s.deletePlace ⟨partition, modelId, topic, id⟩ faults).1

/-- The objects whose index keys the search visits, until an error. -/
def deleteAll (objects : Objects) : List (Place × Faults) → TransactionFn
  | [] => fun batch relations => (batch, relations, true)
  | (place, faults) :: visits => fun batch relations =>
    let (batch', relations', ok) := doDelete objects place faults batch relations
    if ok then deleteAll objects visits batch' relations' else (batch', relations', false)

theorem deleteAll_cons {objects : Objects} {place : Place} {faults : Faults}
    {visits : List (Place × Faults)} {batch batch' : List Write} {relations relations' : Relations}
    {ok : Bool} (h : doDelete objects place faults batch relations = (batch', relations', ok)) :
    deleteAll objects ((place, faults) :: visits) batch relations =
      if ok then deleteAll objects visits batch' relations' else (batch', relations', false) := by
  simp only [deleteAll, h]

/-- `DeleteMany` in bulk: one transaction for all, rolled back when the search fails. -/
def deleteManyBulk (s : State) (visits : List (Place × Faults)) (searchFails commitFails : Bool) :
    State :=
  (s.transaction commitFails fun batch relations =>
    let (batch', relations', ok) := deleteAll s.objects visits batch relations
    (batch', relations', ok && !searchFails)).1

/-- `DeleteMany`: a transaction for each. -/
def deleteMany : State → List (Place × Faults) → State
  | s, [] => s
  | s, (place, faults) :: visits =>
    let (s', ok) := s.deletePlace place faults
    if ok then deleteMany s' visits else s'

end State

/-- What happens in a run: operations, the begin and the end of a transaction of the user,
and, from outside, time and the work of the store in the background. -/
inductive Step
  | create (modelId : ModelId) (topic id : List UInt8) (range : Nat) (ttlMark : TtlMark)
    (faults : Faults)
  | delete (modelId : ModelId) (topic id : List UInt8) (range : Nat) (faults : Faults)
  | deleteMany (visits : List (Place × Faults))
  | deleteManyBulk (visits : List (Place × Faults)) (searchFails commitFails : Bool)
  | begin
  | finish (ok commitFails : Bool)
  | tick (now : Nat)
  | filter (place : Place)
  | background (key : Nat × List UInt8) (work : Relations.Work)

namespace State

def step (handler : Handler) (s : State) : Step → State
  | .create modelId topic id range ttlMark faults =>
    s.createObject handler modelId topic id range ttlMark faults
  | .delete modelId topic id range faults => s.deleteObject handler modelId topic id range faults
  | .deleteMany visits => s.deleteMany visits
  | .deleteManyBulk visits searchFails commitFails =>
    s.deleteManyBulk visits searchFails commitFails
  | .begin =>
    match s.tx with
    | some _ => s
    | none => { s with tx := some [] }
  | .finish ok commitFails =>
    match s.tx with
    | none => s
    | some batch =>
      if ok ∧ !commitFails then { s with objects := applyBatch s.objects batch, tx := none }
      else { s with tx := none }
  | .tick now => { s with now := now }
  | .filter place =>
    match s.objects.lookup place with
    | none => s
    | some ttlMark =>
      if TtlMark.isExpired ttlMark.bytes s.now then { s with objects := s.objects.erase place }
      else s
  | .background key work => { s with relations := s.relations.background s.now key work }

def run (handler : Handler) (s : State) (steps : List Step) : State :=
  steps.foldl (step handler) s

/-- No objects and no relations. -/
def start (now : Nat) : State := ⟨∅, ∅, now, none⟩

/-- The objects of the model in the topic that are not expired. -/
def liveObjects (s : State) (modelId : ModelId) (topic : List UInt8) : Nat :=
  s.objects.entries.countP fun e => e.1.modelId = modelId ∧ e.1.topic = topic ∧
    !TtlMark.isExpired e.2.bytes s.now

/-- Outside of transactions, the count of each model and topic is that of the live objects,
and the topic is listed when there are any. -/
def Counted (handler : Handler) (s : State) : Prop :=
  s.tx = none → ∀ modelId topic,
    (s.relations.count (handler.countPartitions modelId) modelId topic).map UInt64.toNat =
        some (s.liveObjects modelId topic) ∧
      (topic ∈ s.relations.modelTopics handler.partitionRanges modelId ↔
        0 < s.liveObjects modelId topic)

/-! ### Numbers of objects -/

end State

/-- The number of objects in a partition. -/
def number (objects : Objects) (p : Nat) (m : ModelId) (t : List UInt8) : Nat :=
  objects.keys.countP fun q => q.partition = p ∧ q.modelId = m ∧ q.topic = t

/-- The number of objects in all partitions. -/
def total (objects : Objects) (m : ModelId) (t : List UInt8) : Nat :=
  objects.keys.countP fun q => q.modelId = m ∧ q.topic = t

theorem number_pos_iff {objects : Objects} {p : Nat} {m : ModelId} {t : List UInt8} :
    0 < number objects p m t ↔
      ∃ q ∈ objects, q.partition = p ∧ q.modelId = m ∧ q.topic = t := by
  rw [number, List.countP_pos_iff]
  simp only [decide_eq_true_eq]
  rfl

theorem total_pos_iff {objects : Objects} {m : ModelId} {t : List UInt8} :
    0 < total objects m t ↔ ∃ q ∈ objects, q.modelId = m ∧ q.topic = t := by
  rw [total, List.countP_pos_iff]
  simp only [decide_eq_true_eq]
  rfl

theorem number_le_total (objects : Objects) (p : Nat) (m : ModelId) (t : List UInt8) :
    number objects p m t ≤ total objects m t :=
  List.countP_mono_left fun q _ h => by
    simp only [decide_eq_true_eq] at h ⊢
    exact h.2

theorem number_insert {objects : Objects} {q : Place} (h : q ∉ objects) (ttlMark : TtlMark)
    (p : Nat) (m : ModelId) (t : List UInt8) : number (objects.insert q ttlMark) p m t =
      number objects p m t +
        if q.partition = p ∧ q.modelId = m ∧ q.topic = t then 1 else 0 := by
  rw [number, AList.keys_insert, List.erase_of_not_mem h, List.countP_cons]
  simp only [decide_eq_true_eq]
  rfl

theorem total_insert {objects : Objects} {q : Place} (h : q ∉ objects) (ttlMark : TtlMark)
    (m : ModelId) (t : List UInt8) : total (objects.insert q ttlMark) m t =
      total objects m t + if q.modelId = m ∧ q.topic = t then 1 else 0 := by
  rw [total, AList.keys_insert, List.erase_of_not_mem h, List.countP_cons]
  simp only [decide_eq_true_eq]
  rfl

theorem number_erase {objects : Objects} {q : Place} (h : q ∈ objects) (p : Nat) (m : ModelId)
    (t : List UInt8) : number (objects.erase q) p m t +
        (if q.partition = p ∧ q.modelId = m ∧ q.topic = t then 1 else 0) =
      number objects p m t := by
  have hperm : objects.keys.Perm (q :: objects.keys.erase q) := List.perm_cons_erase h
  rw [number, AList.keys_erase, number, hperm.countP_eq, List.countP_cons]
  simp only [decide_eq_true_eq]

theorem total_erase_le (objects : Objects) (q : Place) (m : ModelId) (t : List UInt8) :
    total (objects.erase q) m t ≤ total objects m t := by
  rw [total, AList.keys_erase]
  exact List.Sublist.countP_le List.erase_sublist

theorem sum_indicator (a : Nat) (ps : List Nat) :
    (ps.map fun p => if a = p then 1 else 0).sum = ps.count a := by
  induction ps with
  | nil => rfl
  | cons p ps ih =>
    rw [List.map_cons, List.sum_cons, ih, List.count_cons, Nat.add_comm]
    by_cases h : a = p
    · rw [if_pos h, if_pos (beq_iff_eq.mpr h.symm)]
    · rw [if_neg h, if_neg fun hp => h (beq_iff_eq.mp hp).symm]

/-- The partitions split the objects of a model and a topic. -/
theorem sum_number {objects : Objects} {ps : List Nat} (hps : ps.Nodup) {m : ModelId}
    {t : List UInt8}
    (h : ∀ q ∈ objects, q.modelId = m → q.partition ∈ ps) :
    (ps.map fun p => number objects p m t).sum = total objects m t := by
  simp only [number, total]
  have h : ∀ q ∈ objects.keys, q.modelId = m → q.partition ∈ ps := h
  generalize objects.keys = keys at h
  induction keys with
  | nil => simp
  | cons q l ih =>
    have ih := ih fun q' hq' => h q' (List.mem_cons_of_mem _ hq')
    simp only [List.countP_cons, decide_eq_true_eq, List.sum_map_add, ih, Nat.add_left_cancel_iff]
    by_cases hq : q.modelId = m ∧ q.topic = t
    · have hmem : q.partition ∈ ps := h q List.mem_cons_self hq.1
      simp only [hq, and_true, if_true]
      rw [sum_indicator, List.count_eq_one_of_mem hps hmem]
    · simp only [hq, and_false, if_false]
      simp

/-! ### Runs in which all objects are counted -/

/-- Each topic that the batch has touched has objects behind it. -/
def KeepsTopics (objects : Objects) (batch : List Write) : Prop :=
  ∀ w ∈ batch, 0 < total (applyBatch objects batch) w.place.modelId w.place.topic

/-- The batch leaves the numbers of objects as they were. -/
def KeepsNumbers (objects : Objects) (batch : List Write) : Prop :=
  ∀ p m t, number (applyBatch objects batch) p m t = number objects p m t

/-- A transaction ends well when it does not take the last object of a topic, and if it is
rolled back, has not changed a number of objects. -/
def EndsWell (objects : Objects) (batch : List Write) (committed : Bool) : Prop :=
  KeepsTopics objects batch ∧ (committed = false → KeepsNumbers objects batch)

/-- The visits delete and count what they find, up to an error.  Behind them, `ends` holds
of the batch and the success, or `breaks` where the indexes of an object are not deleted. -/
def DeletesRegular (objects : Objects) (ends : List Write → Bool → Prop)
    (breaks : List Write → Prop) : List Write → List (Place × Faults) → Prop
  | batch, [] => ends batch true
  | batch, (place, faults) :: visits =>
    if faults.object then ends batch false
    else if place ∉ applyBatch objects batch then
      DeletesRegular objects ends breaks batch visits
    else if faults.indexes then breaks batch
    else faults.relation = false ∧
      DeletesRegular objects ends breaks (batch ++ [.delete place]) visits

namespace State

/-- Within a transaction no delete breaks off in the middle; a transaction of its own ends
well. -/
def DeleteRegular (s : State) (searchFails commitFails : Bool)
    (visits : List (Place × Faults)) : Prop :=
  match s.tx with
  | some batch => DeletesRegular s.objects (fun _ _ => True) (fun _ => False) batch visits
  | none =>
    DeletesRegular s.objects
      (fun batch ok => EndsWell s.objects batch ((ok && !searchFails) && !commitFails))
      (fun batch => EndsWell s.objects batch false) [] visits

/-- A create fails before it writes, or is rolled back as a whole, or all of it goes well
with an object that is new and not expired. -/
def CreateRegular (s : State) (place : Place) (ttlMark : TtlMark) (faults : Faults) : Prop :=
  faults.object = true ∨
  s.tx = none ∧ (faults.indexes = true ∨ faults.commit = true) ∨
  faults.indexes = false ∧ faults.relation = false ∧ place ∉ s.view ∧
    TtlMark.isExpired ttlMark.bytes s.now = false ∧
    total s.view place.modelId place.topic + 1 < 2 ^ 64

def DeleteEachRegular : State → List (Place × Faults) → Prop
  | _, [] => True
  | s, (place, faults) :: visits =>
    s.DeleteRegular false faults.commit [(place, faults)] ∧
      ((s.deletePlace place faults).2 = true →
        DeleteEachRegular (s.deletePlace place faults).1 visits)

/-- The condition on a step. -/
def Regular (handler : Handler) (s : State) : Step → Prop
  | .create modelId topic id range ttlMark faults => ∀ partition,
    handler.objectPartition modelId range = some partition →
      s.CreateRegular ⟨partition, modelId, topic, id⟩ ttlMark faults
  | .delete modelId topic id range faults => ∀ partition,
    handler.objectPartition modelId range = some partition →
      s.DeleteRegular false faults.commit [(⟨partition, modelId, topic, id⟩, faults)]
  | .deleteMany visits => s.DeleteEachRegular visits
  | .deleteManyBulk visits searchFails commitFails =>
    s.DeleteRegular searchFails commitFails visits
  | .begin => True
  | .finish ok commitFails => ∀ batch, s.tx = some batch →
    EndsWell s.objects batch (ok && !commitFails)
  | .tick now =>
    (∀ q ttlMark, s.objects.lookup q = some ttlMark →
      TtlMark.isExpired ttlMark.bytes now = false) ∧
    ∀ q ttlMark, Write.put q ttlMark ∈ s.tx.getD [] →
      TtlMark.isExpired ttlMark.bytes now = false
  | .filter _ => True
  | .background key work => s.relations.Harmless key work

def RegularRun (handler : Handler) : State → List Step → Prop
  | _, [] => True
  | s, x :: steps => s.Regular handler x ∧ RegularRun handler (s.step handler x) steps

end State

/-! ### The invariant -/

/-- The relations count the objects. -/
structure Agrees (r : Relations) (objects : Objects) : Prop where
  sound : r.Sound
  count : ∀ p m t, r.countAt (p, fillRelationKey m t) =
    some (UInt64.ofNat (number objects p m t))
  bounded : ∀ m t, total objects m t < 2 ^ 64

/-- An object in a partition of its model, that is not expired. -/
structure Valid (handler : Handler) (now : Nat) (q : Place) (ttlMark : TtlMark) : Prop where
  placed : q.partition ∈ handler.countPartitions q.modelId
  unexpired : TtlMark.isExpired ttlMark.bytes now = false

/-- What holds of the objects, the open batch and the relations. -/
structure Inv (handler : Handler) (now : Nat) (objects : Objects) (batch : List Write)
    (r : Relations) : Prop where
  agrees : Agrees r (applyBatch objects batch)
  valid : ∀ q ttlMark, objects.lookup q = some ttlMark → Valid handler now q ttlMark
  validPut : ∀ q ttlMark, Write.put q ttlMark ∈ batch → Valid handler now q ttlMark
  backed : ∀ p m t, (p, fillRelationKey m t) ∈ r → 0 < total objects m t ∨
    ∃ w ∈ batch, w.place.modelId = m ∧ w.place.topic = t

theorem relationKey_eq_iff {p p' : Nat} {m m' : ModelId} {t t' : List UInt8} :
    (p', fillRelationKey m' t') = (p, fillRelationKey m t) ↔ p = p' ∧ m = m' ∧ t = t' := by
  constructor
  · intro h
    obtain ⟨hm, ht⟩ := fillRelationKey_inj (Prod.mk.inj h).2
    exact ⟨(Prod.mk.inj h).1.symm, hm.symm, ht.symm⟩
  · rintro ⟨rfl, rfl, rfl⟩
    rfl

/-- **A new object** is counted by an `add`. -/
theorem Agrees.insert {r : Relations} {objects : Objects} (h : Agrees r objects) {q : Place}
    (hq : q ∉ objects) (ttlMark : TtlMark)
    (hbound : total objects q.modelId q.topic + 1 < 2 ^ 64) :
    Agrees (r.update q.partition q.modelId q.topic .add) (objects.insert q ttlMark) where
  sound := h.sound.update ..
  count p m t := by
    rw [Relations.countAt_update, number_insert hq, h.count]
    by_cases hk : q.partition = p ∧ q.modelId = m ∧ q.topic = t
    · rw [if_pos (relationKey_eq_iff.mpr hk), if_pos hk, Option.map_some, UInt64.ofNat_add]
      rfl
    · rw [if_neg fun hk' => hk (relationKey_eq_iff.mp hk'), if_neg hk, Nat.add_zero]
  bounded m t := by
    rw [total_insert hq]
    by_cases hk : q.modelId = m ∧ q.topic = t
    · obtain ⟨rfl, rfl⟩ := hk
      rw [if_pos ⟨rfl, rfl⟩]
      exact hbound
    · rw [if_neg hk]
      exact h.bounded m t

/-- **A deleted object** is counted by a `del`. -/
theorem Agrees.erase {r : Relations} {objects : Objects} (h : Agrees r objects) {q : Place}
    (hq : q ∈ objects) :
    Agrees (r.update q.partition q.modelId q.topic .del) (objects.erase q) where
  sound := h.sound.update ..
  count p m t := by
    have herase := number_erase hq p m t
    rw [Relations.countAt_update, h.count]
    by_cases hk : q.partition = p ∧ q.modelId = m ∧ q.topic = t
    · rw [if_pos hk] at herase
      have hlt : number objects p m t < 2 ^ 64 :=
        Nat.lt_of_le_of_lt (number_le_total ..) (h.bounded m t)
      have hpos : 0 < UInt64.ofNat (number objects p m t) := by
        rw [UInt64.lt_iff_toNat_lt, UInt64.toNat_ofNat', Nat.mod_eq_of_lt hlt]
        show 0 < _
        omega
      have hone : UInt64.ofNat (number objects p m t) =
          UInt64.ofNat (number (objects.erase q) p m t) + 1 := by
        rw [← herase, UInt64.ofNat_add]
        rfl
      rw [if_pos (relationKey_eq_iff.mpr hk), Option.map_some, countAfter, if_pos hpos, hone,
        countAfter]
      congr 1
      grind
    · rw [if_neg hk, Nat.add_zero] at herase
      rw [if_neg fun hk' => hk (relationKey_eq_iff.mp hk'), herase]
  bounded m t := Nat.lt_of_le_of_lt (total_erase_le ..) (h.bounded m t)

theorem applyBatch_concat (objects : Objects) (batch : List Write) (w : Write) :
    applyBatch objects (batch ++ [w]) = w.apply (applyBatch objects batch) := by
  rw [applyBatch, List.foldl_append]
  rfl

/-- An object that no write of the batch is about stays. -/
theorem mem_applyBatch {objects : Objects} {q : Place} : ∀ {batch : List Write},
    (∀ w ∈ batch, w.place ≠ q) → q ∈ objects → q ∈ applyBatch objects batch := by
  intro batch
  induction batch using List.reverseRecOn with
  | nil => intro _ hq; exact hq
  | append_singleton batch w ih =>
    intro hw hq
    have hne : q ≠ w.place := (hw w (by simp)).symm
    have ih := ih (fun w' hw' => hw w' (by simp [hw'])) hq
    rw [applyBatch_concat]
    cases w with
    | put q' ttlMark => exact (AList.mem_insert _).mpr (.inr ih)
    | delete q' => exact AList.mem_erase.mpr ⟨hne, ih⟩

namespace Inv

variable {handler : Handler} {now : Nat} {objects : Objects} {batch : List Write}
  {r : Relations}

theorem put (h : Inv handler now objects batch r) {q : Place} {ttlMark : TtlMark}
    (hq : q ∉ applyBatch objects batch) (hv : Valid handler now q ttlMark)
    (hbound : total (applyBatch objects batch) q.modelId q.topic + 1 < 2 ^ 64) :
    Inv handler now objects (batch ++ [.put q ttlMark])
      (r.update q.partition q.modelId q.topic .add) where
  agrees := by
    rw [applyBatch_concat]
    exact h.agrees.insert hq ttlMark hbound
  valid := h.valid
  validPut q' ttlMark' hmem := by
    obtain hmem | hmem := List.mem_append.mp hmem
    · exact h.validPut q' ttlMark' hmem
    · cases List.mem_singleton.mp hmem
      exact hv
  backed p m t hk := by
    obtain hk | hk := Relations.mem_update.mp hk
    · obtain ⟨-, rfl, rfl⟩ := relationKey_eq_iff.mp hk
      exact .inr ⟨_, List.mem_concat_self, rfl, rfl⟩
    · obtain hk | ⟨w, hw, hk⟩ := h.backed p m t hk
      · exact .inl hk
      · exact .inr ⟨w, List.mem_append_left _ hw, hk⟩

theorem delete (h : Inv handler now objects batch r) {q : Place}
    (hq : q ∈ applyBatch objects batch) :
    Inv handler now objects (batch ++ [.delete q])
      (r.update q.partition q.modelId q.topic .del) where
  agrees := by
    rw [applyBatch_concat]
    exact h.agrees.erase hq
  valid := h.valid
  validPut q' ttlMark' hmem := by
    obtain hmem | hmem := List.mem_append.mp hmem
    · exact h.validPut q' ttlMark' hmem
    · cases List.mem_singleton.mp hmem
  backed p m t hk := by
    obtain hk | hk := Relations.mem_update.mp hk
    · obtain ⟨-, rfl, rfl⟩ := relationKey_eq_iff.mp hk
      exact .inr ⟨_, List.mem_concat_self, rfl, rfl⟩
    · obtain hk | ⟨w, hw, hk⟩ := h.backed p m t hk
      · exact .inl hk
      · exact .inr ⟨w, List.mem_append_left _ hw, hk⟩

/-- What is written behind the batch is valid. -/
theorem valid_applyBatch (h : Inv handler now objects batch r) :
    ∀ q ttlMark, (applyBatch objects batch).lookup q = some ttlMark →
      Valid handler now q ttlMark := by
  obtain ⟨-, hv, hput, -⟩ := h
  induction batch using List.reverseRecOn with
  | nil => exact hv
  | append_singleton batch w ih =>
    intro q ttlMark hq
    have ih := ih (fun q' m' hm => hput q' m' (List.mem_append_left _ hm)) q ttlMark
    rw [applyBatch_concat] at hq
    cases w with
    | put q' ttlMark' =>
      rw [Write.apply] at hq
      by_cases hqq : q = q'
      · subst hqq
        rw [AList.lookup_insert] at hq
        cases hq
        exact hput q ttlMark List.mem_concat_self
      · rw [AList.lookup_insert_ne hqq] at hq
        exact ih hq
    | delete q' =>
      rw [Write.apply] at hq
      by_cases hqq : q = q'
      · rw [hqq, AList.lookup_erase] at hq
        cases hq
      · rw [AList.lookup_erase_ne hqq] at hq
        exact ih hq

theorem total_pos_of_untouched {m : ModelId} {t : List UInt8}
    (hw : ¬ ∃ w ∈ batch, w.place.modelId = m ∧ w.place.topic = t) (h : 0 < total objects m t) :
    0 < total (applyBatch objects batch) m t := by
  obtain ⟨q, hq, hm⟩ := total_pos_iff.mp h
  refine total_pos_iff.mpr ⟨q, mem_applyBatch (fun w hw' he => hw ⟨w, hw', ?_⟩) hq, hm⟩
  rw [he]
  exact hm

/-- **A transaction that ends well** keeps the invariant. -/
theorem ends (h : Inv handler now objects batch r) {committed : Bool}
    (he : EndsWell objects batch committed) :
    Inv handler now (if committed then applyBatch objects batch else objects) [] r := by
  have htouched : ∀ p m t, (p, fillRelationKey m t) ∈ r →
      0 < total (applyBatch objects batch) m t := by
    intro p m t hk
    by_cases hw : ∃ w ∈ batch, w.place.modelId = m ∧ w.place.topic = t
    · obtain ⟨w, hw, rfl, rfl⟩ := hw
      exact he.1 w hw
    · obtain hpos | htouch := h.backed p m t hk
      · exact total_pos_of_untouched hw hpos
      · exact absurd htouch hw
  cases committed with
  | true => exact ⟨h.agrees, h.valid_applyBatch, nofun, fun p m t hk => .inl (htouched p m t hk)⟩
  | false =>
    have hnumber : ∀ p m t, number (applyBatch objects batch) p m t = number objects p m t :=
      he.2 rfl
    have hplaced : ∀ objects' : Objects, (∀ q ttlMark, objects'.lookup q = some ttlMark →
        Valid handler now q ttlMark) → ∀ m, ∀ q ∈ objects', q.modelId = m →
          q.partition ∈ handler.countPartitions m := by
      rintro objects' hv m q hq rfl
      obtain ⟨ttlMark, hlookup⟩ := Option.isSome_iff_exists.mp (AList.lookup_isSome.mpr hq)
      exact (hv q ttlMark hlookup).placed
    have htotal : ∀ m t, total (applyBatch objects batch) m t = total objects m t := by
      intro m t
      rw [← sum_number (handler.countPartitions_nodup m) (hplaced _ h.valid_applyBatch m),
        ← sum_number (handler.countPartitions_nodup m) (hplaced _ h.valid m)]
      simp only [hnumber]
    refine ⟨⟨h.agrees.sound, fun p m t => ?_, fun m t => ?_⟩, h.valid, nofun, fun p m t hk =>
      .inl ?_⟩
    · show r.countAt _ = some (UInt64.ofNat (number objects p m t))
      rw [← hnumber]
      exact h.agrees.count p m t
    · show total objects m t < _
      rw [← htotal]
      exact h.agrees.bounded m t
    · show 0 < total objects m t
      rw [← htotal]
      exact htouched p m t hk

/-- **The visits of a search** delete and count: what they leave is as good as a batch that
the condition has been asked for. -/
theorem deleteAll {ends : List Write → Bool → Prop} {breaks : List Write → Prop} :
    ∀ {visits : List (Place × Faults)} {batch : List Write} {r : Relations},
      Inv handler now objects batch r →
      DeletesRegular objects ends breaks batch visits →
      ∃ counted, Inv handler now objects counted (State.deleteAll objects visits batch r).2.1 ∧
        (counted = (State.deleteAll objects visits batch r).1 ∧
            ends counted (State.deleteAll objects visits batch r).2.2 ∨
          (State.deleteAll objects visits batch r).2.2 = false ∧ breaks counted) := by
  intro visits
  induction visits with
  | nil => exact fun h he => ⟨_, h, .inl ⟨rfl, he⟩⟩
  | cons visit visits ih =>
    obtain ⟨q, faults⟩ := visit
    intro batch r h hreg
    rw [DeletesRegular] at hreg
    by_cases hobject : faults.object = true
    · rw [if_pos hobject] at hreg
      have hd : State.doDelete objects q faults batch r = (batch, r, false) := by
        simp only [State.doDelete, if_pos hobject]
      rw [State.deleteAll_cons hd]
      exact ⟨batch, h, .inl ⟨rfl, hreg⟩⟩
    rw [if_neg hobject] at hreg
    by_cases hq : q ∉ applyBatch objects batch
    · rw [if_pos hq] at hreg
      have hd : State.doDelete objects q faults batch r = (batch, r, true) := by
        simp only [State.doDelete, if_neg hobject, if_pos hq]
      rw [State.deleteAll_cons hd]
      exact ih h hreg
    rw [if_neg hq] at hreg
    by_cases hindexes : faults.indexes = true
    · rw [if_pos hindexes] at hreg
      have hd : State.doDelete objects q faults batch r = (batch ++ [.delete q], r, false) := by
        simp only [State.doDelete, if_neg hobject, if_neg hq, if_pos hindexes]
      rw [State.deleteAll_cons hd]
      exact ⟨batch, h, .inr ⟨rfl, hreg⟩⟩
    rw [if_neg hindexes] at hreg
    have hrelation : ¬ faults.relation = true := by
      rw [hreg.1]
      decide
    have hd : State.doDelete objects q faults batch r = (batch ++ [.delete q],
        r.update q.partition q.modelId q.topic .del, true) := by
      simp only [State.doDelete, if_neg hobject, if_neg hq, if_neg hindexes, if_neg hrelation]
    rw [State.deleteAll_cons hd]
    exact ih (h.delete (not_not.mp hq)) hreg.2

end Inv

namespace State

variable {handler : Handler} {s : State}

def Holds (handler : Handler) (s : State) : Prop :=
  Inv handler s.now s.objects (s.tx.getD []) s.relations

theorem holds_start (handler : Handler) (now : Nat) : (start now).Holds handler where
  agrees := ⟨Relations.sound_empty, fun p m t => Relations.countAt_of_notMem (AList.notMem_empty _),
    fun m t => Nat.two_pow_pos 64⟩
  valid q ttlMark hq := by simp [start] at hq
  validPut q ttlMark hq := nomatch hq
  backed p m t hk := absurd hk (AList.notMem_empty _)

theorem holds_deleteManyBulk (h : s.Holds handler) {searchFails commitFails : Bool}
    {visits : List (Place × Faults)} (hreg : s.DeleteRegular searchFails commitFails visits) :
    (s.deleteManyBulk visits searchFails commitFails).Holds handler := by
  rw [DeleteRegular] at hreg
  rw [deleteManyBulk, transaction]
  rw [Holds] at h
  cases htx : s.tx with
  | some batch =>
    rw [htx] at h hreg
    obtain ⟨counted, hinv, ⟨rfl, -⟩ | ⟨-, hbreak⟩⟩ := Inv.deleteAll h hreg
    · exact hinv
    · exact absurd hbreak id
  | none =>
    rw [htx] at h hreg
    rw [Option.getD_none] at h
    obtain ⟨counted, hinv, hcase⟩ := Inv.deleteAll h hreg
    dsimp only
    generalize deleteAll s.objects visits [] s.relations = res at hinv hcase ⊢
    obtain ⟨batch, r, ok⟩ := res
    dsimp only at hinv hcase ⊢
    split
    · rename_i hok
      have hcommit : ((ok && !searchFails) && !commitFails) = true := Bool.and_eq_true_iff.mpr hok
      obtain ⟨rfl, hends⟩ | ⟨rfl, -⟩ := hcase
      · rw [hcommit] at hends
        exact hinv.ends hends
      · exact nomatch hok.1
    · rename_i hok
      have hends : EndsWell s.objects counted false := by
        obtain ⟨rfl, hends⟩ | ⟨-, hends⟩ := hcase
        · rwa [Bool.eq_false_iff.mpr fun hcommit => hok (Bool.and_eq_true_iff.mp hcommit)] at hends
        · exact hends
      exact hinv.ends hends

theorem deleteManyBulk_single (s : State) (place : Place) (faults : Faults) :
    s.deleteManyBulk [(place, faults)] false faults.commit = (s.deletePlace place faults).1 := by
  have hfn : (fun batch relations =>
      let (batch', relations', ok) := deleteAll s.objects [(place, faults)] batch relations
      (batch', relations', ok && !false)) = doDelete s.objects place faults := by
    funext batch relations
    rcases hd : doDelete s.objects place faults batch relations with ⟨batch', relations', ok⟩
    rw [deleteAll_cons hd]
    cases ok <;> rfl
  rw [deleteManyBulk, hfn, deletePlace]

theorem holds_deletePlace (h : s.Holds handler) {place : Place} {faults : Faults}
    (hreg : s.DeleteRegular false faults.commit [(place, faults)]) :
    (s.deletePlace place faults).1.Holds handler := by
  rw [← deleteManyBulk_single]
  exact holds_deleteManyBulk h hreg

theorem holds_deleteMany : ∀ {visits : List (Place × Faults)} {s : State}, s.Holds handler →
    s.DeleteEachRegular visits → (s.deleteMany visits).Holds handler := by
  intro visits
  induction visits with
  | nil => exact fun h _ => h
  | cons visit visits ih =>
    obtain ⟨place, faults⟩ := visit
    intro s h hreg
    have hone := holds_deletePlace h hreg.1
    rw [deleteMany]
    dsimp only
    split
    · rename_i hok
      exact ih hone (hreg.2 hok)
    · exact hone

theorem saveObject_fails {faults : Faults} (h : faults.object = true) (place : Place)
    (ttlMark : TtlMark) (batch : List Write) (relations : Relations) :
    saveObject place ttlMark faults batch relations = (batch, relations, false) :=
  if_pos h

theorem saveObject_writes {faults : Faults} (h : ¬ faults.object = true) (place : Place)
    (ttlMark : TtlMark) (batch : List Write) (relations : Relations) :
    saveObject place ttlMark faults batch relations =
      (batch ++ [.put place ttlMark], relations, !faults.indexes) :=
  if_neg h

theorem holds_create (h : s.Holds handler) {modelId : ModelId} {topic id : List UInt8}
    {range : Nat} {ttlMark : TtlMark} {faults : Faults}
    (hreg : s.Regular handler (.create modelId topic id range ttlMark faults)) :
    (s.createObject handler modelId topic id range ttlMark faults).Holds handler := by
  rw [createObject]
  cases hp : handler.objectPartition modelId range with
  | none => exact h
  | some partition =>
    have hreg := hreg partition hp
    have hplaced := Handler.objectPartition_eq_some hp
    dsimp only
    rw [Holds] at h
    -- what goes well is counted, in the open batch or in one of its own
    have hput : ¬ faults.object = true → ¬ (s.tx = none ∧ (faults.indexes = true ∨
        faults.commit = true)) → faults.indexes = false ∧ faults.relation = false ∧
        Inv handler s.now s.objects
          (s.tx.getD [] ++ [.put ⟨partition, modelId, topic, id⟩ ttlMark])
          (s.relations.update partition modelId topic .add) := by
      intro hobject hrolled
      obtain hreg | hreg | ⟨hindexes, hrelation, hq, hexpired, hbound⟩ := hreg
      · exact absurd hreg hobject
      · exact absurd hreg hrolled
      · exact ⟨hindexes, hrelation, h.put hq ⟨hplaced, hexpired⟩ hbound⟩
    cases htx : s.tx with
    | some batch =>
      rw [htx] at h hput
      by_cases hobject : faults.object = true
      · simp only [transaction, htx, saveObject_fails hobject]
        exact h
      · obtain ⟨hindexes, hrelation, hinv⟩ := hput hobject fun hnone => nomatch hnone.1
        simp only [transaction, htx, saveObject_writes hobject, hindexes, hrelation]
        exact hinv
    | none =>
      rw [htx] at h hput
      by_cases hobject : faults.object = true
      · simp only [transaction, htx, saveObject_fails hobject]
        exact h
      by_cases hrolled : faults.indexes = true ∨ faults.commit = true
      · have hfails : ¬ ((!faults.indexes) = true ∧ (!faults.commit) = true) := by
          obtain hrolled | hrolled := hrolled <;> simp [hrolled]
        simp only [transaction, htx, saveObject_writes hobject, if_neg hfails]
        exact h
      · obtain ⟨hindexes, hrelation, hinv⟩ := hput hobject fun hnone => hrolled hnone.2
        have hcommit : faults.commit = false :=
          Bool.eq_false_iff.mpr fun hcommit => hrolled (.inr hcommit)
        simp only [transaction, htx, saveObject_writes hobject, hindexes, hrelation, hcommit]
        have hends : EndsWell s.objects [.put ⟨partition, modelId, topic, id⟩ ttlMark] true := by
          refine ⟨fun w hw => ?_, nofun⟩
          cases List.mem_singleton.mp hw
          exact total_pos_iff.mpr ⟨_, (AList.mem_insert _).mpr (.inl rfl), rfl, rfl⟩
        exact hinv.ends hends

/-- **One step** keeps the invariant when it meets the condition. -/
theorem holds_step (h : s.Holds handler) {x : Step} (hreg : s.Regular handler x) :
    (s.step handler x).Holds handler := by
  cases x with
  | create modelId topic id range ttlMark faults => exact holds_create h hreg
  | delete modelId topic id range faults =>
    rw [step, deleteObject]
    cases hp : handler.objectPartition modelId range with
    | none => exact h
    | some partition => exact holds_deletePlace h (hreg partition hp)
  | deleteMany visits => exact holds_deleteMany h hreg
  | deleteManyBulk visits searchFails commitFails => exact holds_deleteManyBulk h hreg
  | begin =>
    rw [step]
    cases htx : s.tx with
    | some batch => exact h
    | none =>
      rw [Holds, htx] at h
      exact h
  | finish ok commitFails =>
    rw [step]
    cases htx : s.tx with
    | none => exact h
    | some batch =>
      have hends := hreg batch htx
      rw [Holds, htx] at h
      dsimp only
      split
      · rename_i hok
        rw [Bool.and_eq_true_iff.mpr hok] at hends
        exact Inv.ends h hends
      · rename_i hok
        rw [Bool.eq_false_iff.mpr fun hcommit => hok (Bool.and_eq_true_iff.mp hcommit)] at hends
        exact Inv.ends h hends
  | tick now =>
    exact ⟨h.agrees, fun q ttlMark hq => ⟨(h.valid q ttlMark hq).placed, hreg.1 q ttlMark hq⟩,
      fun q ttlMark hq => ⟨(h.validPut q ttlMark hq).placed, hreg.2 q ttlMark hq⟩, h.backed⟩
  | filter place =>
    rw [step]
    cases hplace : s.objects.lookup place with
    | none => exact h
    | some ttlMark =>
      dsimp only
      rw [(h.valid place ttlMark hplace).unexpired]
      exact h
  | background key work =>
    refine ⟨⟨h.agrees.sound.background .., fun p m t => ?_, h.agrees.bounded⟩, h.valid, h.validPut,
      fun p m t hk => h.backed p m t (Relations.mem_of_mem_background hk)⟩
    exact (Relations.countAt_background h.agrees.sound hreg s.now _).trans (h.agrees.count p m t)

/-- The run keeps it. -/
theorem holds_run : ∀ {steps : List Step} {s : State}, s.Holds handler →
    s.RegularRun handler steps → (s.run handler steps).Holds handler := by
  intro steps
  induction steps with
  | nil => exact fun h _ => h
  | cons x steps ih => exact fun h hreg => ih (holds_step h hreg.1) hreg.2

theorem regularRun_before : ∀ {before steps : List Step} {s : State}, before <+: steps →
    s.RegularRun handler steps → s.RegularRun handler before := by
  intro before
  induction before with
  | nil => exact fun _ _ => trivial
  | cons x before ih =>
    rintro _ s ⟨rest, rfl⟩ hreg
    exact ⟨hreg.1, ih ⟨rest, rfl⟩ hreg.2⟩

/-! ### What is counted -/

theorem liveObjects_eq (h : s.Holds handler) (m : ModelId) (t : List UInt8) :
    s.liveObjects m t = total s.objects m t := by
  have hkeys : s.objects.keys = s.objects.entries.map Sigma.fst := rfl
  rw [liveObjects, total, hkeys, List.countP_map]
  refine List.countP_congr fun e he => ?_
  have hlookup : s.objects.lookup e.1 = some e.2 := AList.mem_lookup_iff.mpr he
  simp [(h.valid e.1 e.2 hlookup).unexpired]

theorem count_eq {r : Relations} {objects : Objects} (h : Agrees r objects) (ps : List Nat)
    (m : ModelId) (t : List UInt8) : r.count ps m t =
      some (UInt64.ofNat ((ps.map fun p => number objects p m t).sum)) := by
  have hfold : ∀ n : Nat, ps.foldlM (fun n p =>
      ((r.cell (p, fillRelationKey m t)).count).map (n + ·)) (UInt64.ofNat n) =
        some (UInt64.ofNat (n + (ps.map fun p => number objects p m t).sum)) := by
    induction ps with
    | nil => exact fun _ => rfl
    | cons p ps ih =>
      intro n
      have hp : (r.cell (p, fillRelationKey m t)).count = _ := h.count p m t
      rw [List.foldlM_cons, hp, Option.map_some, ← UInt64.ofNat_add]
      show ps.foldlM _ _ = _
      rw [ih, List.map_cons, List.sum_cons, Nat.add_assoc]
  have hzero := hfold 0
  rw [Nat.zero_add] at hzero
  exact hzero

theorem counted_of_holds (h : s.Holds handler) : s.Counted handler := by
  intro htx m t
  have hlive := liveObjects_eq h m t
  rw [Holds, htx] at h
  have hagrees : Agrees s.relations s.objects := h.agrees
  have hplaced : ∀ q ∈ s.objects, q.modelId = m → q.partition ∈ handler.countPartitions m := by
    rintro q hq rfl
    obtain ⟨ttlMark, hlookup⟩ := Option.isSome_iff_exists.mp (AList.lookup_isSome.mpr hq)
    exact (h.valid q ttlMark hlookup).placed
  rw [hlive]
  constructor
  · rw [count_eq hagrees, sum_number (handler.countPartitions_nodup m) hplaced, Option.map_some,
      UInt64.toNat_ofNat', Nat.mod_eq_of_lt (hagrees.bounded m t)]
  · rw [Relations.mem_modelTopics_iff hagrees.sound]
    constructor
    · rintro ⟨p, -, hk⟩
      obtain hpos | ⟨w, hw, -⟩ := h.backed p m t hk
      · exact hpos
      · exact absurd hw List.not_mem_nil
    · intro hpos
      obtain ⟨q, hq, hm, ht⟩ := total_pos_iff.mp hpos
      refine ⟨q.partition, Handler.mem_partitionRanges (hplaced q hq hm), ?_⟩
      by_contra hk
      have hnumber : 0 < number s.objects q.partition m t :=
        number_pos_iff.mpr ⟨q, hq, rfl, hm, ht⟩
      have hlt : number s.objects q.partition m t < 2 ^ 64 :=
        Nat.lt_of_le_of_lt (number_le_total ..) (hagrees.bounded m t)
      have hcount := hagrees.count q.partition m t
      rw [Relations.countAt_of_notMem hk, Option.some.injEq] at hcount
      have hcount := congrArg UInt64.toNat hcount
      rw [UInt64.toNat_ofNat', Nat.mod_eq_of_lt hlt, UInt64.toNat_zero] at hcount
      omega

/-- **The relations count the objects** in each state that a run of regular steps reaches. -/
theorem counted_of_regular (handler : Handler) (now : Nat) {steps : List Step}
    (h : (start now).RegularRun handler steps) :
    ∀ before, before <+: steps → ((start now).run handler before).Counted handler :=
  fun _ hbefore =>
    counted_of_holds (holds_run (holds_start handler now) (regularRun_before hbefore h))

/-- No date partitions. -/
def plainHandler : Handler := ⟨[], List.nodup_nil, fun _ => false⟩

def sampleModel : ModelId := ⟨[49, 50, 51, 52, 53, 54, 55, 56], rfl⟩

/-- Two objects are created, and one of them is deleted. -/
def sampleRun : List Step :=
  [.create sampleModel [116] [1] 0 .null .none, .create sampleModel [116] [2] 0 .null .none,
    .delete sampleModel [116] [1] 0 .none]

theorem counted_sampleRun : ((start 0).run plainHandler sampleRun).Counted plainHandler := by
  have hregular : (start 0).RegularRun plainHandler sampleRun := by
    refine ⟨fun p hp => ?_, fun p hp => ?_, fun p hp => ?_, trivial⟩
    · cases hp
      exact .inr (.inr (by decide +kernel))
    · cases hp
      exact .inr (.inr (by decide +kernel))
    · cases hp
      show DeletesRegular _ _ _ [] _
      rw [DeletesRegular, if_neg (by decide), if_neg (by decide +kernel), if_neg (by decide)]
      refine ⟨rfl, fun w hw => ?_, nofun⟩
      cases List.mem_singleton.mp hw
      decide +kernel
  exact counted_of_regular plainHandler 0 hregular sampleRun (List.prefix_refl _)

/-- A transaction creates an object and is rolled back: the object stays counted. -/
theorem not_counted_rolledBack : ¬ ∀ (handler : Handler) (now : Nat) (steps : List Step),
    ((start now).run handler steps).Counted handler := by
  intro h
  have h := h plainHandler 0 [.begin, .create sampleModel [116] [1] 0 .null .none,
    .finish false false] rfl sampleModel [116]
  revert h
  decide +kernel

end State

end Hatn.Db
