import Hatn.Db.IndexKeySearch
import Hatn.Search.OrderedSet

/-!
# Index keys found in partitions and topics

`FindMany` and `indexKeys` search in all topics of all partitions of a query, with a cursor
for each.  `FindMany` hands the entries to a callback; `indexKeys` collects them in a set in
the order of `IndexKeyCompare`, and cuts the set to the offset and the limit of the query.
-/

namespace Hatn.Db

open Query Search

/-- A partition: the entries of its index column family in the order of their keys, and the
topics of the model, as `ModelTopics::modelTopics` lists them. -/
structure Partition where
  range : Nat
  entries : List Entry
  topics : List (List UInt8)

/-- `ModelIndexQuery`; an offset is used with a limit only. -/
structure IndexQuery where
  indexId : ModelId
  unique : Bool
  fields : List Field
  topics : List (List UInt8)
  timePoints : List (Query.Interval Nat)
  limit : Nat
  offset : Nat
  offset_limit : offset = 0 ∨ limit ≠ 0

theorem IndexQuery.no_offset : 0 = 0 ∨ 0 ≠ 0 := .inl rfl

/-- `IndexKey`, without the parts of its key. -/
structure IndexKey where
  partition : Nat
  topic : List UInt8
  entry : Entry
  deriving DecidableEq

namespace IndexKey

/-- The loop of `fillKeyParts`, with the part read so far. -/
def splitParts : Key → Key → List Key
  | _, [] => []
  | part, c :: k =>
    if c = separatorChar then part :: splitParts [c] k else splitParts (part ++ [c]) k

/-- `fillKeyParts`: all parts but the first begin with a separator. -/
def keyParts (k : IndexKey) (unique : Bool) : List Key :=
  let size := if unique then k.entry.key.length else k.entry.key.length - Dataunit.ObjectId.length
  splitParts [] ((k.entry.key.take size).drop (IndexKeySearch.fieldsOffset + k.topic.length))

/-- The loop of `IndexKeyCompare`; `full` compares the full keys. -/
def compareParts (full : Bool) : List Field → List Key → List Key → Bool
  | [], _, _ => full
  | f :: fs, l :: ls, r :: rs =>
    if l = r then compareParts full fs ls rs
    else match f.order with
      | .asc => l < r
      | .desc => r < l
  | _ :: _, _, _ => false

end IndexKey

namespace IndexQuery

variable (q : IndexQuery)

/-- `IndexKeyCompare` -/
def indexKeyCompare (l r : IndexKey) : Bool :=
  if l.entry.value = r.entry.value then false
  else IndexKey.compareParts (l.entry.key < r.entry.key) q.fields
    (l.keyParts q.unique) (r.keyParts q.unique)

/-! ### The searches -/

/-- The topics to search in: those of the query, or all of the model. -/
def topicsOf (p : Partition) : List (List UInt8) := if q.topics.isEmpty then p.topics else q.topics

def source (now : Nat) (p : Partition) (topic : List UInt8) : IndexKeySearch.Source :=
  ⟨p.entries, topic, q.indexId, now, q.timePoints⟩

/-- `eachTopic`: the search with a new cursor. -/
def searchTopic (now : Nat) (p : Partition) (topic : List UInt8) : Visits IndexKey Key :=
  (IndexKeySearch.searchTopic (q.source now p topic) q.fields).map (⟨p.range, topic, ·⟩)

def searchPartition (now : Nat) (p : Partition) : List (Visits IndexKey Key) :=
  (q.topicsOf p).map (q.searchTopic now p)

/-- The searches in the partitions, one after the other. -/
def searches (now : Nat) (ps : List Partition) : List (Visits IndexKey Key) :=
  ps.flatMap (q.searchPartition now)

/-- `FindMany`: the first error of the callback ends it. -/
def findMany {σ err : Type} (now : Nat) (ps : List Partition)
    (keyCallback : σ → IndexKey → σ × Answer err) (s : σ) : σ × Except err Unit :=
  (Visits.sequence (q.searches now ps)).run keyCallback s

/-! ### `indexKeys` -/

/-- What `indexKeys` collects: the set of keys, and the count of keys met in a topic. -/
structure Collected where
  keys : List IndexKey
  partitionCount : Nat

/-- In a single partition and topic, the keys before the offset are skipped. -/
def skipBeforeOffset (ps : List Partition) : Bool :=
  q.offset ≠ 0 ∧ ps.length * q.topics.length = 1

/-- `keyCallback` -/
def keyCallback (limit : Nat) (skip : Bool) (s : Collected) (k : IndexKey) :
    Collected × Answer Empty :=
  if skip ∧ s.partitionCount < q.offset then (⟨s.keys, s.partitionCount + 1⟩, .next)
  else
    let it := OrderedSet.emplace q.indexKeyCompare k s.keys
    if q.offset = 0 then
      -- the last key is cut; all behind it in the topic would be cut too
      if limit ≠ 0 ∧ limit < it.2.length then
        (⟨it.2.dropLast, s.partitionCount⟩, if it.1 + 1 = it.2.length then .stop else .next)
      else (⟨it.2, s.partitionCount⟩, .next)
    else
      (⟨it.2, s.partitionCount + 1⟩,
        if s.partitionCount + 1 = q.offset + limit then .stop else .next)

/-- The search in a topic, with a new count. -/
def collectTopic (limit : Nat) (skip : Bool) (s : Collected) (t : Visits IndexKey Key) :
    Collected :=
  (t.run (q.keyCallback limit skip) ⟨s.keys, 0⟩).1

/-- The loop over the partitions. -/
def collect (now limit : Nat) (skip withPartitionQuery : Bool) :
    List Partition → Collected → Collected
  | [], s => s
  | p :: ps, s =>
    let s := (q.searchPartition now p).foldl (q.collectTopic limit skip) s
    if withPartitionQuery ∧ q.offset + limit ≤ s.keys.length then s
    else collect now limit skip withPartitionQuery ps s

/-- The cut at the end. -/
def cut (limit : Nat) (skip : Bool) (keys : List IndexKey) : List IndexKey :=
  if q.offset = 0 then keys
  else
    let keys :=
      if skip then keys else if keys.length ≤ q.offset then [] else keys.drop q.offset
    keys.take limit

/-- `indexKeys` -/
def indexKeys (now : Nat) (ps : List Partition) (single withPartitionQuery : Bool) :
    List IndexKey :=
  let limit := if single then 1 else q.limit
  let skip := q.skipBeforeOffset ps
  q.cut limit skip (q.collect now limit skip withPartitionQuery ps ⟨[], 0⟩).keys

/-- All keys that the searches report when they are never stopped. -/
def found (now : Nat) (ps : List Partition) : List IndexKey :=
  (q.searches now ps).flatMap Visits.all

/-- What the searches report behind the call that is the last one of the limit. -/
def afterLimit (now : Nat) (ps : List Partition) : List IndexKey :=
  (Visits.sequence (q.searches now ps)).afterStop (q.limit + q.offset - 1)

/-- Keys that are told apart pairwise. -/
def Apart (keys : List IndexKey) : Prop := keys.Pairwise (Comparable q.indexKeyCompare)

theorem found_eq (now : Nat) (ps : List Partition) :
    q.found now ps = (Visits.sequence (q.searches now ps)).all :=
  (Visits.all_sequence _).symm

end IndexQuery

end Hatn.Db
