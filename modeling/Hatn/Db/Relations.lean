import Hatn.Db.ModelTopics
import Hatn.Order.Lex
import Mathlib.Data.List.AList
import Mathlib.Data.List.Dedup

/-!
# Stored relations

The relations of all models and topics lie in the column families of the partitions,
under keys that are put together from the model and the topic.  What is stored under a
key is a value and the operands that wait to be merged to it.  `update_count` says what
an update does to the count; the work of the store in the background merges operands,
combines them and drops expired values, and `background_count` says when no count
is changed by that.
-/

namespace Hatn.Db

open Hatn.Common

namespace TtlMark

/-- `ttlMarkTimepoint`, read off the end of a value. -/
def ttlMarkTimepoint (data : List UInt8) : Nat :=
  if data.getLast? = some 0 ∨ data.length < 5 then 0
  else leNumber ((data.drop (data.length - 5)).take 4)

def isExpired (data : List UInt8) (now : Nat) : Bool :=
  ttlMarkTimepoint data ≠ 0 ∧ ttlMarkTimepoint data < now

end TtlMark

/-- The name of a model in keys, `Crc32HexLength` symbols. -/
@[ext] structure ModelId where
  chars : List UInt8
  size : chars.length = 8
  deriving DecidableEq

namespace ModelTopics

/-! ### Keys -/

def relationKeyPrefix : List UInt8 := [0xFF, 0, 0, 1]

/-- `KeyPrefixOffset` -/
def keyPrefixOffset : Nat := 4 + 8 + 2

def fillRelationKey (modelId : ModelId) (topic : List UInt8) : List UInt8 :=
  relationKeyPrefix ++ [0] ++ modelId.chars ++ [0] ++ topic

def fillModelKeyPrefix (modelId : ModelId) (upTo : Bool) : List UInt8 :=
  relationKeyPrefix ++ [0] ++ modelId.chars ++ [if upTo then 1 else 0]

def topicFromKey (key : List UInt8) : List UInt8 :=
  if keyPrefixOffset < key.length then key.drop keyPrefixOffset else []

theorem fillRelationKey_length (m : ModelId) (t : List UInt8) :
    (fillRelationKey m t).length = keyPrefixOffset + t.length := by
  simp only [fillRelationKey, relationKeyPrefix, keyPrefixOffset, List.length_append, m.size,
    List.length_cons, List.length_nil]

@[simp] theorem topicFromKey_fillRelationKey (m : ModelId) (t : List UInt8) :
    topicFromKey (fillRelationKey m t) = t := by
  have hdrop : (fillRelationKey m t).drop keyPrefixOffset = t :=
    List.drop_left' (by
      simp only [relationKeyPrefix, keyPrefixOffset, List.length_append, m.size,
        List.length_cons, List.length_nil])
  rw [topicFromKey, hdrop, fillRelationKey_length]
  cases t with
  | nil => exact if_neg (Nat.lt_irrefl _)
  | cons b t => exact if_pos (Nat.lt_add_of_pos_right (Nat.succ_pos _))

theorem fillRelationKey_inj {m m' : ModelId} {t t' : List UInt8}
    (h : fillRelationKey m t = fillRelationKey m' t') : m = m' ∧ t = t' := by
  have ht : t = t' := by
    rw [← topicFromKey_fillRelationKey m t, h, topicFromKey_fillRelationKey]
  subst ht
  refine ⟨?_, rfl⟩
  simp only [fillRelationKey, List.append_assoc] at h
  have h := List.append_cancel_left (List.append_cancel_left h)
  exact ModelId.ext (List.append_cancel_right h)

/-- **The keys of a model** are those between its two prefixes. -/
theorem between_prefixes_iff (m m' : ModelId) (t : List UInt8) :
    fillModelKeyPrefix m false ≤ fillRelationKey m' t ∧
      fillRelationKey m' t < fillModelKeyPrefix m true ↔ m = m' := by
  have hsplit : ∀ (c : ModelId) (l : List UInt8),
      relationKeyPrefix ++ [0] ++ c.chars ++ l = (relationKeyPrefix ++ [0]) ++ (c.chars ++ l) :=
    fun c l => List.append_assoc ..
  have hkey : fillRelationKey m' t = (relationKeyPrefix ++ [0]) ++ (m'.chars ++ (0 :: t)) := by
    rw [fillRelationKey, List.append_assoc _ [0] t, hsplit]
    rfl
  have hlen : m'.chars.length = m.chars.length := m'.size.trans m.size.symm
  have hcancel : ∀ u v : List UInt8,
      (relationKeyPrefix ++ [0]) ++ u < (relationKeyPrefix ++ [0]) ++ v ↔ u < v := by
    intro u v
    rw [Order.append_lt_append rfl]
    simp only [lt_irrefl, false_or, true_and]
  rw [← not_lt, hkey, fillModelKeyPrefix, fillModelKeyPrefix, hsplit, hsplit, hcancel, hcancel,
    Order.append_lt_append hlen, Order.append_lt_append hlen]
  constructor
  · rintro ⟨hlo, hhi⟩
    obtain hhi | ⟨hhi, -⟩ := hhi
    · exact absurd (.inl hhi) hlo
    · exact ModelId.ext hhi.symm
  · rintro rfl
    have hzero : ¬ (0 :: t : List UInt8) < [0] := by
      rw [List.cons_lt_cons_iff]
      exact not_or.mpr ⟨lt_irrefl _, fun h => List.not_lt_nil _ h.2⟩
    have hone : (0 :: t : List UInt8) < [1] := List.cons_lt_cons_iff.mpr (.inl (by decide))
    exact ⟨not_or.mpr ⟨lt_irrefl _, fun h => hzero h.2⟩, .inr ⟨rfl, hone⟩⟩

/-! ### Cells -/

/-- What is stored under a key: a value, and the operands that wait to be merged to it. -/
structure Cell where
  value : Option (List UInt8)
  operands : List Grouping

/-- What a read of the cell gives. -/
def Cell.read (c : Cell) : Option (List UInt8) := regrouped c.value c.operands

def Cell.count (c : Cell) : Option UInt64 := c.read.bind fun v => storedCount (some v)

theorem Cell.count_eq (c : Cell) :
    c.count = (storedCount c.value).map fun n => groupsCount n c.operands :=
  regrouped_count c.value c.operands

theorem groupsCount_append (c : UInt64) : ∀ {gs : List Grouping} (gs' : List Grouping),
    groupsCount c (gs ++ gs') = groupsCount (groupsCount c gs) gs' := by
  intro gs
  induction gs generalizing c with
  | nil => intro gs'; rfl
  | cons g gs ih =>
    intro gs'
    rw [List.cons_append, groupsCount_cons, groupsCount_cons, ih]

/-- The relations of a count that is not zero do not expire. -/
def Relation.Sound (rel : Relation) : Prop :=
  rel.ttl = .null ∨ rel.count = 0 ∧ rel.ttl = .fillExpireAt 0x1000

theorem mergeRelOp_sound {rel : Relation} (h : rel.Sound) (op : UInt8) :
    (mergeRelOp rel op).Sound := by
  rw [mergeRelOp]
  generalize (if op = Operator.del.num then (if 0 < rel.count then rel.count - 1 else rel.count)
    else if op = Operator.add.num then rel.count + 1 else rel.count) = count
  by_cases hc : count = 0
  · rw [if_pos hc]
    exact .inr ⟨hc, rfl⟩
  · rw [if_neg hc]
    obtain h | ⟨-, h⟩ := h <;> (rw [h]; exact .inl rfl)

mutual

theorem Grouping.sound : ∀ {g : Grouping} {operand : List UInt8}, g.bytes = some operand →
    ∀ {rel rel' : Relation}, rel.Sound → mergeOperand rel operand = some rel' → rel'.Sound
  | .operand op, _, hb, rel, _, hs, h => by
    cases hb
    rw [mergeOperand_op] at h
    cases h
    exact mergeRelOp_sound hs _
  | .combined l, operand, hb, rel, rel', _, h => by
    rw [Grouping.bytes, Option.bind_eq_bind] at hb
    obtain ⟨operands, hl, hb⟩ := Option.bind_eq_some_iff.mp hb
    obtain ⟨rel'', hm, rfl⟩ := Option.map_eq_some_iff.mp hb
    rw [mergeOperand_relation] at h
    cases h
    exact groups_sound hl (.inl rfl) hm

theorem groups_sound : ∀ {gs : List Grouping} {operands : List (List UInt8)},
    groupsBytes gs = some operands → ∀ {rel rel' : Relation}, rel.Sound →
      mergeOperands rel operands = some rel' → rel'.Sound
  | [], _, hb, rel, _, hs, h => by
    cases hb
    cases h
    exact hs
  | g :: gs, operands, hb, rel, rel', hs, h => by
    rw [groupsBytes, Option.bind_eq_bind] at hb
    obtain ⟨operand, hg, hb⟩ := Option.bind_eq_some_iff.mp hb
    obtain ⟨operands', hgs, hb⟩ := Option.bind_eq_some_iff.mp hb
    cases hb
    rw [mergeOperands, Option.bind_eq_bind] at h
    obtain ⟨rel₁, h₁, h⟩ := Option.bind_eq_some_iff.mp h
    exact groups_sound hgs (Grouping.sound hg hs h₁) h

end

/-- The value of the cell, where there is one, is a sound relation. -/
def Cell.Sound (c : Cell) : Prop :=
  ∀ v, c.value = some v → ∃ rel : Relation, rel.Sound ∧ v = serializeRelation rel

theorem storedCount_serializeRelation (rel : Relation) :
    storedCount (some (serializeRelation rel)) = some rel.count := by
  rw [storedCount, deserializeRelation_serializeRelation, Option.map_some]

theorem fullMergeV2_none (operands : List (List UInt8)) :
    fullMergeV2 none operands = (mergeOperands .fresh operands).map serializeRelation := by
  simp only [fullMergeV2, Option.bind_eq_bind, Option.bind_some, Option.map_eq_bind]
  rfl

theorem fullMergeV2_serializeRelation (rel : Relation) (operands : List (List UInt8)) :
    fullMergeV2 (some (serializeRelation rel)) operands =
      (mergeOperands rel operands).map serializeRelation := by
  simp only [fullMergeV2, deserializeRelation_serializeRelation, Option.bind_eq_bind,
    Option.bind_some, Option.map_eq_bind]
  rfl

theorem Cell.Sound.read {c : Cell} (h : c.Sound) : ∃ rel : Relation, rel.Sound ∧
    c.read = some (serializeRelation rel) ∧ c.count = some rel.count := by
  obtain ⟨operands, hb, hm⟩ := groups_merge c.operands
  have hfrom : ∀ rel : Relation, rel.Sound → fullMergeV2 c.value operands =
      (mergeOperands rel operands).map serializeRelation → ∃ rel' : Relation, rel'.Sound ∧
        c.read = some (serializeRelation rel') ∧ c.count = some rel'.count := by
    intro rel hs hmerge
    obtain ⟨rel', h', -⟩ := hm rel
    have hread : c.read = some (serializeRelation rel') := by
      rw [Cell.read, regrouped, hb]
      show fullMergeV2 c.value operands = _
      rw [hmerge, h', Option.map_some]
    refine ⟨rel', groups_sound hb hs h', hread, ?_⟩
    rw [Cell.count, hread]
    exact storedCount_serializeRelation rel'
  cases hv : c.value with
  | none => exact hfrom .fresh (.inl rfl) (by rw [hv, fullMergeV2_none])
  | some v =>
    obtain ⟨rel, hs, rfl⟩ := h v hv
    exact hfrom rel hs (by rw [hv, fullMergeV2_serializeRelation])

/-- A value expires only at the count zero. -/
theorem Relation.Sound.count_of_isExpired {rel : Relation} (h : rel.Sound) {now : Nat}
    (he : TtlMark.isExpired (serializeRelation rel) now = true) : rel.count = 0 := by
  obtain h | h := h
  · have hlast : (serializeRelation rel).getLast? = some 0 := by
      rw [serializeRelation, h]
      exact List.getLast?_concat
    rw [TtlMark.isExpired, TtlMark.ttlMarkTimepoint, if_pos (.inl hlast)] at he
    simp at he
  · exact h.1

/-! ### The store -/

/-- The relations in all partitions, each partition by the value of its range. -/
abbrev Relations := AList fun _ : Nat × List UInt8 => Cell

namespace Relations

/-- The cell under a key, empty where nothing is stored. -/
def cell (r : Relations) (key : Nat × List UInt8) : Cell := (r.lookup key).getD ⟨none, []⟩

/-- `update`: the operand waits behind those that are there. -/
def update (r : Relations) (partition : Nat) (modelId : ModelId) (topic : List UInt8)
    (action : Operator) : Relations :=
  let key := (partition, fillRelationKey modelId topic)
  let c := r.cell key
  r.insert key { c with operands := c.operands ++ [.operand action] }

/-- The topics found under the keys of the model in the partitions. -/
def modelTopics (r : Relations) (partitions : List Nat) (modelId : ModelId) :
    List (List UInt8) :=
  (partitions.flatMap fun partition => (r.keys.filter fun key => key.1 = partition ∧
    fillModelKeyPrefix modelId false ≤ key.2 ∧ key.2 < fillModelKeyPrefix modelId true).map
      fun key => topicFromKey key.2).dedup

/-- The count for one topic, summed up over the partitions. -/
def count (r : Relations) (partitions : List Nat) (modelId : ModelId) (topic : List UInt8) :
    Option UInt64 :=
  partitions.foldlM (fun n partition =>
    ((r.cell (partition, fillRelationKey modelId topic)).count).map (n + ·)) 0

/-- What the store does with a cell in the background. -/
inductive Work
  /-- Operands are merged to the value. -/
  | merge
  /-- Of the operands, `n` behind the first `i` are combined. -/
  | combine (i n : Nat)
  /-- The compaction filter drops a value. -/
  | filter

def background (r : Relations) (now : Nat) (key : Nat × List UInt8) (work : Work) : Relations :=
  match r.lookup key with
  | none => r
  | some c =>
    match work with
    | .merge =>
      match c.read with
      | some v => r.insert key ⟨some v, []⟩
      | none => r
    | .combine i n =>
      r.insert key { c with
        operands := c.operands.take i ++
          .combined ((c.operands.drop i).take n) :: (c.operands.drop i).drop n }
    | .filter =>
      match c.value, c.operands with
      | some v, [] => if TtlMark.isExpired v now then r.erase key else r
      | _, _ => r

/-- Each key is one of a relation, and each cell is sound. -/
structure Sound (r : Relations) : Prop where
  key : ∀ k ∈ r, ∃ m t, k.2 = fillRelationKey m t
  cell : ∀ k c, r.lookup k = some c → c.Sound

theorem Sound.insert {r : Relations} (h : r.Sound) {k : Nat × List UInt8} {c : Cell}
    (hk : ∃ m t, k.2 = fillRelationKey m t) (hc : c.Sound) : Sound (r.insert k c) where
  key k' hk' := by
    obtain rfl | hk' := (AList.mem_insert r).mp hk'
    · exact hk
    · exact h.key k' hk'
  cell k' c' hc' := by
    by_cases hkk : k' = k
    · subst hkk
      rw [AList.lookup_insert] at hc'
      cases hc'
      exact hc
    · rw [AList.lookup_insert_ne hkk] at hc'
      exact h.cell k' c' hc'

theorem Sound.cell_sound {r : Relations} (h : r.Sound) (k : Nat × List UInt8) :
    (r.cell k).Sound := by
  rw [Relations.cell]
  cases hk : r.lookup k with
  | none => exact nofun
  | some c => exact h.cell k c hk

theorem sound_empty : Sound ∅ where
  key k hk := absurd hk (AList.notMem_empty k)
  cell k c hc := by simp at hc

theorem Sound.update {r : Relations} (h : r.Sound) (p : Nat) (m : ModelId) (t : List UInt8)
    (op : Operator) : (r.update p m t op).Sound :=
  h.insert ⟨m, t, rfl⟩ (h.cell_sound (p, fillRelationKey m t))

theorem mem_update {r : Relations} {p : Nat} {m : ModelId} {t : List UInt8} {op : Operator}
    {k : Nat × List UInt8} :
    k ∈ r.update p m t op ↔ k = (p, fillRelationKey m t) ∨ k ∈ r :=
  AList.mem_insert r

/-- **A topic is listed** when a relation is stored for it in a partition. -/
theorem mem_modelTopics_iff {r : Relations} (h : r.Sound) {ps : List Nat} {m : ModelId}
    {t : List UInt8} : t ∈ r.modelTopics ps m ↔ ∃ p ∈ ps, (p, fillRelationKey m t) ∈ r := by
  simp only [modelTopics, List.mem_dedup, List.mem_flatMap, List.mem_map, List.mem_filter,
    decide_eq_true_eq]
  constructor
  · rintro ⟨p, hp, ⟨p', key⟩, ⟨hkey, rfl, hlo, hhi⟩, rfl⟩
    obtain ⟨m', t', rfl⟩ := h.key _ (AList.mem_keys.mpr hkey)
    dsimp only at hlo hhi
    obtain rfl := (between_prefixes_iff m m' t').mp ⟨hlo, hhi⟩
    exact ⟨p', hp, by rw [topicFromKey_fillRelationKey]; exact AList.mem_keys.mpr hkey⟩
  · rintro ⟨p, hp, hkey⟩
    obtain ⟨hlo, hhi⟩ := (between_prefixes_iff m m t).mpr rfl
    exact ⟨p, hp, (p, fillRelationKey m t), ⟨AList.mem_keys.mp hkey, rfl, hlo, hhi⟩,
      topicFromKey_fillRelationKey m t⟩

/-- The count under a key. -/
def countAt (r : Relations) (k : Nat × List UInt8) : Option UInt64 := (r.cell k).count

theorem countAt_of_notMem {r : Relations} {k : Nat × List UInt8} (h : k ∉ r) :
    r.countAt k = some 0 := by
  rw [countAt, Relations.cell, AList.lookup_eq_none.mpr h]
  rfl

theorem countAt_insert (r : Relations) (k k' : Nat × List UInt8) (c : Cell) :
    countAt (r.insert k c) k' = if k' = k then c.count else r.countAt k' := by
  by_cases h : k' = k
  · rw [if_pos h, h, countAt, Relations.cell, AList.lookup_insert, Option.getD_some]
  · rw [if_neg h, countAt, countAt, Relations.cell, Relations.cell, AList.lookup_insert_ne h]

/-- **What an update does**: it counts under its own key. -/
theorem countAt_update (r : Relations) (p : Nat) (m : ModelId) (t : List UInt8)
    (op : Operator) (k : Nat × List UInt8) :
    (r.update p m t op).countAt k = if k = (p, fillRelationKey m t)
      then (r.countAt k).map fun n => countAfter n [op] else r.countAt k := by
  rw [update, countAt_insert]
  by_cases h : k = (p, fillRelationKey m t)
  · rw [if_pos h, if_pos h, h, countAt, Cell.count_eq, Cell.count_eq, Option.map_map]
    congr 1
    funext n
    exact groupsCount_append n [.operand op]
  · rw [if_neg h, if_neg h]

/-- Operands that are combined make up for the count `n` that was there before them. -/
def MakesUp (n : UInt64) (gs : List Grouping) : Prop :=
  groupsLastGroup gs = none →
    n + dropped n (groupsOperators gs) = dropped 0 (groupsOperators gs)

theorem groupsCount_combined {n : UInt64} {gs : List Grouping} (h : MakesUp n gs) :
    groupsCount n [.combined gs] = groupsCount n gs := by
  have hleft : groupsCount n [.combined gs] =
      countAfter 0 ((groupsLastGroup gs).getD ([], groupsOperators gs)).2 := by
    rw [groupsCount_cons, Grouping.lastGroup]
    rfl
  rw [hleft, groupsCount]
  cases hgs : groupsLastGroup gs with
  | some p => rfl
  | none =>
    have hup := h hgs
    show countAfter 0 (groupsOperators gs) = countAfter n (groupsOperators gs)
    rw [countAfter_eq 0, countAfter_eq n]
    grind

/-- Work in the background that combines no operands but those which make up for what was
counted before them. -/
def Harmless (r : Relations) (k : Nat × List UInt8) : Work → Prop
  | .combine i n => ∀ c start, r.lookup k = some c → storedCount c.value = some start →
      MakesUp (groupsCount start (c.operands.take i)) ((c.operands.drop i).take n)
  | _ => True

/-- **No count is changed** by harmless work in the background. -/
theorem countAt_background {r : Relations} (hs : r.Sound) {k : Nat × List UInt8} {work : Work}
    (hw : r.Harmless k work) (now : Nat) (k' : Nat × List UInt8) :
    (r.background now k work).countAt k' = r.countAt k' := by
  rw [background]
  cases hk : r.lookup k with
  | none => rfl
  | some c =>
    have hcount : ∀ c' : Cell, c'.count = c.count →
        countAt (r.insert k c') k' = r.countAt k' := by
      intro c' hc'
      rw [countAt_insert]
      by_cases h : k' = k
      · rw [if_pos h, hc', h, countAt, Relations.cell, hk, Option.getD_some]
      · exact if_neg h
    cases work with
    | merge =>
      obtain ⟨rel, -, hread, hrel⟩ := (hs.cell k c hk).read
      dsimp only
      rw [hread]
      refine hcount _ ?_
      rw [Cell.count_eq, storedCount_serializeRelation, hrel]
      rfl
    | combine i n =>
      refine hcount _ ?_
      rw [Cell.count_eq, Cell.count_eq]
      dsimp only
      cases hv : storedCount c.value with
      | none => rfl
      | some start =>
        rw [Option.map_some, Option.map_some, groupsCount_append, ← List.singleton_append,
          groupsCount_append, groupsCount_combined (hw c start hk hv), ← groupsCount_append,
          ← groupsCount_append, List.take_append_drop, List.take_append_drop]
    | filter =>
      dsimp only
      split
      · rename_i v hv ho
        split
        · rename_i he
          obtain ⟨rel, hrel, rfl⟩ := hs.cell k c hk v hv
          by_cases h : k' = k
          · have hzero : c.count = some 0 := by
              rw [Cell.count_eq, hv, ho, storedCount_serializeRelation,
                hrel.count_of_isExpired he]
              rfl
            rw [h, countAt_of_notMem (fun hmem => ((AList.mem_erase).mp hmem).1 rfl), countAt,
              Relations.cell, hk, Option.getD_some, hzero]
          · rw [countAt, countAt, Relations.cell, Relations.cell, AList.lookup_erase_ne h]
        · rfl
      · rfl

theorem mem_of_mem_background {r : Relations} {now : Nat} {k k' : Nat × List UInt8} {work : Work}
    (h : k' ∈ r.background now k work) : k' ∈ r := by
  rw [background] at h
  cases hk : r.lookup k with
  | none => rwa [hk] at h
  | some c =>
    have hmem : k ∈ r := AList.lookup_isSome.mp (by rw [hk]; rfl)
    have hinsert : ∀ c' : Cell, k' ∈ r.insert k c' → k' ∈ r := by
      intro c' h
      obtain rfl | h := (AList.mem_insert r).mp h
      · exact hmem
      · exact h
    rw [hk] at h
    cases work with
    | merge =>
      dsimp only at h
      split at h
      · exact hinsert _ h
      · exact h
    | combine i n => exact hinsert _ h
    | filter =>
      dsimp only at h
      split at h
      · split at h
        · exact (AList.mem_erase.mp h).2
        · exact h
      · exact h

theorem Sound.background {r : Relations} (h : r.Sound) (now : Nat) (k : Nat × List UInt8)
    (work : Work) : (r.background now k work).Sound := by
  rw [Relations.background]
  cases hk : r.lookup k with
  | none => exact h
  | some c =>
    have hc := h.cell k c hk
    have hkey := h.key k (AList.lookup_isSome.mp (by rw [hk]; rfl))
    cases work with
    | merge =>
      obtain ⟨rel, hrel, hread, -⟩ := hc.read
      dsimp only
      rw [hread]
      exact h.insert hkey fun v hv => ⟨rel, hrel, (Option.some.inj hv).symm⟩
    | combine i n => exact h.insert hkey hc
    | filter =>
      dsimp only
      split
      · split
        · refine ⟨fun k' hk' => h.key k' (AList.mem_erase.mp hk').2, fun k' c' hc' => ?_⟩
          by_cases hkk : k' = k
          · rw [hkk, AList.lookup_erase] at hc'
            cases hc'
          · rw [AList.lookup_erase_ne hkk] at hc'
            exact h.cell k' c' hc'
        · exact h
      · exact h

end Relations

end ModelTopics

end Hatn.Db
