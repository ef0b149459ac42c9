import Hatn.Db.IndexKeys
import Hatn.Db.QueryAnswers

/-!
# Matches in partitions and topics

What the searches in all partitions and topics find, for queries with sound and complete
answers in each of them.
-/

namespace Hatn.Db

open Query Search IndexKeySearch

namespace IndexQuery

/-- A query that has sound and complete answers in the partitions. -/
structure Regular (q : IndexQuery) (now : Nat) (ps : List Partition) : Prop where
  rows : ∀ p ∈ ps, ∀ topic ∈ q.topicsOf p, Rows (q.source now p topic) q.fields
  ne_nil : q.fields ≠ []
  ordered : ∀ f ∈ q.fields, f.column.Ordered
  ordinary : ∀ f ∈ q.fields, OrdinaryField f
  regular : ∀ f ∈ q.fields, RegularField f
  chain : q.fields.IsChain fun f g => OnValues f ∨ OwnSides g

/-- An entry of the partition and topic with values that satisfy the conditions. -/
def MatchesIn (q : IndexQuery) (p : Partition) (topic : List UInt8) (e : Entry) : Prop :=
  e ∈ p.entries ∧ ∃ row, Holds (topic ++ [separatorChar] ++ q.indexId.chars) q.fields row e ∧
    Values.Matches q.fields row

/-- The index keys that match. -/
def Matches (q : IndexQuery) (ps : List Partition) (k : IndexKey) : Prop :=
  ∃ p ∈ ps, ∃ topic ∈ q.topicsOf p, k = ⟨p.range, topic, k.entry⟩ ∧ q.MatchesIn p topic k.entry

section
variable {q : IndexQuery} {now : Nat} {ps : List Partition}

theorem all_searchTopic (now : Nat) (p : Partition) (topic : List UInt8) :
    (q.searchTopic now p topic).all =
      (called (q.source now p topic) q.fields).map (⟨p.range, topic, ·⟩) := by
  rw [searchTopic, Visits.all_map, called_eq]

theorem mem_found {k : IndexKey} : k ∈ q.found now ps ↔
    ∃ p ∈ ps, ∃ topic ∈ q.topicsOf p, k ∈ (q.searchTopic now p topic).all := by
  rw [found, List.mem_flatMap]
  constructor
  · rintro ⟨t, ht, hk⟩
    obtain ⟨p, hp, ht⟩ := List.mem_flatMap.mp ht
    obtain ⟨topic, htopic, rfl⟩ := List.mem_map.mp ht
    exact ⟨p, hp, topic, htopic, hk⟩
  · rintro ⟨p, hp, topic, htopic, hk⟩
    exact ⟨_, List.mem_flatMap.mpr ⟨p, hp, List.mem_map.mpr ⟨topic, htopic, rfl⟩⟩, hk⟩

end

end IndexQuery

end Hatn.Db
