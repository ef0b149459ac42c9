import Hatn.Db.IndexKeyOrder

/-!
# Sets of index keys

`indexKeys` collects keys in a sorted set, whose comparison has to be a strict weak order.
`IndexKeyCompare` first takes entries of one value for the same, and entries of one object have one
value: with an entry of another object between them the comparison is not transitive any more
(`indexKeySet_iff`).
-/

namespace Hatn.Db

open Query Search

namespace IndexKey

open IndexKeySearch

/-- The parts differ before they end, or none of them does and the rest decides. -/
theorem compareParts_or_iff {b b' : Bool} : ∀ {fs : List Field} {ls rs : List Key},
    compareParts b fs ls rs = true ∨ compareParts b' fs rs ls = true ↔
      (¬ ls.take fs.length <+: rs.take fs.length ∧ ¬ rs.take fs.length <+: ls.take fs.length) ∨
        (fs.length ≤ ls.length ∧ ls.take fs.length = rs.take fs.length ∧
          (b = true ∨ b' = true)) := by
  intro fs
  induction fs with
  | nil => simp [compareParts]
  | cons f fs ih =>
    intro ls rs
    cases ls with
    | nil => simp [compareParts]
    | cons l ls =>
      cases rs with
      | nil => simp [compareParts]
      | cons r rs =>
        rw [compareParts_cons, compareParts_cons]
        by_cases heq : l = r
        · subst heq
          have hne : ¬ Before (f.order = .asc) l l := fun h => h.ne rfl
          simp only [hne, or_false, true_and, ih, List.length_cons, List.take_succ_cons,
            List.prefix_cons_inj, Nat.add_le_add_iff_right, List.cons.injEq]
        · have hbefore : Before (f.order = .asc) l r ∨ Before (f.order = .asc) r l := by
            rw [Before, Before]
            obtain hlt | hgt := lt_or_gt_of_ne heq
            · split
              · exact .inl hlt
              · exact .inr hlt
            · split
              · exact .inr hgt
              · exact .inl hgt
          refine iff_of_true (hbefore.imp .inr .inr) (.inl ⟨fun h => ?_, fun h => ?_⟩)
          · exact heq (List.cons_prefix_cons.mp h).1
          · exact heq (List.cons_prefix_cons.mp h).1.symm

end IndexKey

namespace IndexQuery

variable {q : IndexQuery}

/-- Keys that have other values, and which differ in a part that both have for a field of the query
or, where they have all these parts and the same ones, as a whole. -/
def KeysDiffer (q : IndexQuery) (l r : IndexKey) : Prop :=
  let ls := (l.keyParts q.unique).take q.fields.length
  let rs := (r.keyParts q.unique).take q.fields.length
  l.entry.value ≠ r.entry.value ∧ (¬ ls <+: rs ∧ ¬ rs <+: ls ∨
    q.fields.length ≤ (l.keyParts q.unique).length ∧ ls = rs ∧ l.entry.key ≠ r.entry.key)

instance (q : IndexQuery) (l r : IndexKey) : Decidable (q.KeysDiffer l r) :=
  inferInstanceAs (Decidable (_ ∧ _))

theorem comparable_iff {l r : IndexKey} :
    Comparable q.indexKeyCompare l r ↔ q.KeysDiffer l r := by
  have hkeys : (decide (l.entry.key < r.entry.key) = true ∨
      decide (r.entry.key < l.entry.key) = true) ↔ l.entry.key ≠ r.entry.key := by
    rw [decide_eq_true_eq, decide_eq_true_eq]
    exact lt_or_lt_iff_ne
  rw [Search.Comparable, indexKeyCompare_iff, indexKeyCompare_iff, ne_comm (a := r.entry.value),
    ← and_or_left, IndexKey.compareParts_or_iff, hkeys]
  rfl

/-- What a sorted set needs of keys: the comparison is a strict weak order on them which takes only
a key itself for the same, and they make one set in any order and with repetitions. -/
structure KeysInOrder (q : IndexQuery) (keys : List IndexKey) : Prop where
  weak : WeakOrderOn q.indexKeyCompare keys
  same : ∀ l ∈ keys, ∀ r ∈ keys, ¬ Comparable q.indexKeyCompare l r ↔ l = r
  set : ∀ ls rs : List IndexKey, ls ⊆ keys → (∀ k, k ∈ ls ↔ k ∈ rs) →
    OrderedSet.emplaceAll q.indexKeyCompare [] ls = OrderedSet.emplaceAll q.indexKeyCompare [] rs

theorem keysInOrder_of_orderedOn {keys : List IndexKey}
    (h : OrderedOn q.indexKeyCompare keys) : q.KeysInOrder keys where
  weak := h.weakOrderOn
  same _ hl _ hr := h.not_comparable_iff hl hr
  set _ _ := h.emplaceAll_eq

/-- **Sets of index keys**: the comparison is a strict weak order on keys whose equivalence is to be
the same key, if and only if any two of them differ in their values and in their parts or as a
whole. -/
theorem indexKeySet_iff (q : IndexQuery) (keys : List IndexKey) :
    q.KeysInOrder keys ↔ ∀ l ∈ keys, ∀ r ∈ keys, l ≠ r → q.KeysDiffer l r := by
  constructor
  · intro h l hl r hr hne
    rw [← comparable_iff]
    by_contra hc
    exact hne ((h.same l hl r hr).mp hc)
  · intro h
    -- without the repetitions the keys are told apart pairwise
    have hpairs : q.Apart keys.dedup := by
      refine (List.nodup_dedup keys).imp_of_mem fun hl hr hne => ?_
      exact comparable_iff.mpr (h _ (List.mem_dedup.mp hl) _ (List.mem_dedup.mp hr) hne)
    have hordered := Apart.orderedOn hpairs
    exact keysInOrder_of_orderedOn
      ⟨fun a ha b hb => hordered.asymm a (List.mem_dedup.mpr ha) b (List.mem_dedup.mpr hb),
        fun a ha b hb c hc => hordered.trans a (List.mem_dedup.mpr ha) b (List.mem_dedup.mpr hb) c
          (List.mem_dedup.mpr hc),
        fun a ha b hb => hordered.total a (List.mem_dedup.mpr ha) b (List.mem_dedup.mpr hb)⟩

/-- An entry of the object `id` for an element `n` of a repeated field. -/
def elementKey (id : UInt8) (n : Fin 256) : IndexKey where
  partition := 0
  topic := [116]
  entry :=
    { key := [116] ++ [separatorChar] ++ IndexKeySearch.sampleId.chars ++
        (separatorChar :: (IndexKeySearch.sampleColumn.form (IndexKeySearch.sampleValue n) ++
          [separatorChar])) ++ List.replicate Dataunit.ObjectId.length id
      value := List.replicate Dataunit.ObjectId.length id }

/-- All elements, in ascending order. -/
def elementsQuery : IndexQuery where
  indexId := IndexKeySearch.sampleId
  unique := false
  fields := [IndexKeySearch.sampleField .gte 0]
  topics := [[116]]
  timePoints := []
  limit := 0
  offset := 0
  offset_limit := IndexQuery.no_offset

/-- The elements 1 and 3 of an object are not told apart, though 2 of another is between them. -/
theorem not_keysInOrder :
    ¬ elementsQuery.KeysInOrder [elementKey 97 1, elementKey 98 2, elementKey 97 3] := by
  intro h
  have htrans := h.weak.trans (elementKey 97 1) (by decide +kernel) (elementKey 98 2)
    (by decide +kernel) (elementKey 97 3) (by decide +kernel) (by decide +kernel)
    (by decide +kernel)
  exact absurd htrans (by decide +kernel)

end IndexQuery

end Hatn.Db
