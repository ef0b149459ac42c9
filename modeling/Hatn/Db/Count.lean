import Hatn.Db.IndexKeys
import Hatn.Db.QueryAnswers

/-!
# Counts of index queries

`Count` is told the entries one at a time and says stop once, at the last one that it has to
count; `indexKeys` says stop in each topic.  `length_indexKeys` counts the keys found: the
set is cut, and what the search reports behind a stop does not matter.  `count_eq` says that
`Count` counts what is reported behind its stop, and `count_eq_iff` when this is nothing.
-/

namespace Hatn.Db

open Query Search

namespace IndexQuery

variable (q : IndexQuery)

/-- The callback of `Count`. -/
def countCallback (count : Nat) (_ : IndexKey) : Nat × Answer Empty :=
  (count + 1, if q.limit ≠ 0 ∧ count + 1 = q.limit + q.offset then .stop else .next)

/-- `Count` -/
def count (now : Nat) (ps : List Partition) : Nat :=
  let count := (q.findMany now ps q.countCallback 0).1
  if q.offset < count then count - q.offset else 0

/-! ### The callback of `Count` -/

section
variable {q}

/-- Without a limit, or behind the stop, all reports are counted. -/
theorem run_countCallback_of_le {α : Type} (t : Visits IndexKey α) {n : Nat}
    (h : q.limit = 0 ∨ q.limit + q.offset ≤ n) : (t.run q.countCallback n).1 = n + t.all.length := by
  induction t generalizing n with
  | done a => rfl
  | visit e next ih =>
    have hgo : ¬ (q.limit ≠ 0 ∧ n + 1 = q.limit + q.offset) := by omega
    have hnext : ((next true).run q.countCallback (n + 1)).1 = n + 1 + (next true).all.length :=
      ih true (h.imp_right fun h => by omega)
    rw [Visits.run, countCallback, if_neg hgo, Visits.all, List.length_cons]
    exact hnext.trans (by omega)

/-- **With a limit**, what is reported behind the stop is counted too. -/
theorem run_countCallback {α : Type} (t : Visits IndexKey α) (h : q.limit ≠ 0) :
    ∀ n k, n + k + 1 = q.limit + q.offset → (t.run q.countCallback n).1 =
      if k < t.all.length then q.limit + q.offset + (t.afterStop k).length
      else n + t.all.length := by
  induction t with
  | done a => exact fun _ _ _ => rfl
  | visit e next ih =>
    intro n k hk
    rw [Visits.run, countCallback, Visits.all, List.length_cons]
    cases k with
    | zero =>
      have hstop : (q.limit ≠ 0 ∧ n + 1 = q.limit + q.offset) := ⟨h, hk⟩
      rw [if_pos hstop, if_pos (Nat.succ_pos _), Visits.afterStop, ← hk, Nat.add_zero]
      exact run_countCallback_of_le (next false) (.inr hk.ge)
    | succ k =>
      have hgo : ¬ (q.limit ≠ 0 ∧ n + 1 = q.limit + q.offset) := by omega
      rw [if_neg hgo, Visits.afterStop]
      have hnext := ih true (n + 1) k (by omega)
      refine hnext.trans ?_
      by_cases hlt : k < (next true).all.length
      · rw [if_pos hlt, if_pos (by omega)]
      · rw [if_neg hlt, if_neg (by omega)]
        omega

end

/-- **What `Count` counts.** -/
theorem count_eq (now : Nat) (ps : List Partition) : q.count now ps =
    if q.limit = 0 then (q.found now ps).length
    else min q.limit ((q.found now ps).length - q.offset) + (q.afterLimit now ps).length := by
  have hcount : q.count now ps =
      ((Visits.sequence (q.searches now ps)).run q.countCallback 0).1 - q.offset := by
    rw [count, findMany]
    split <;> omega
  rw [hcount, found_eq, afterLimit]
  generalize Visits.sequence (q.searches now ps) = t
  by_cases hlimit : q.limit = 0
  · have hoffset := q.offset_limit.resolve_right (not_not.mpr hlimit)
    rw [run_countCallback_of_le t (.inl hlimit), if_pos hlimit, hoffset, Nat.zero_add,
      Nat.sub_zero]
  · rw [run_countCallback t hlimit 0 (q.limit + q.offset - 1) (by omega), if_neg hlimit]
    by_cases hlt : q.limit + q.offset - 1 < t.all.length
    · rw [if_pos hlt]
      omega
    · rw [if_neg hlt, Visits.afterStop_of_length_le t _ (not_lt.mp hlt), List.length_nil]
      omega

/-! ### The callback of `indexKeys` -/

section
variable {q} {limit : Nat} {skip : Bool}

/-- What is kept of the keys seen so far. -/
def kept (q : IndexQuery) (skip : Bool) (seen : List IndexKey) : List IndexKey :=
  if skip then seen.drop q.offset else seen

/-- The keys seen so far are kept, and no cut was made. -/
structure Tracks (q : IndexQuery) (limit : Nat) (skip : Bool) (seen : List IndexKey)
    (s : Collected) : Prop where
  keys : s.keys.Perm (kept q skip seen)
  whole : q.offset = 0 → limit ≠ 0 → seen.length ≤ limit
  skipped : skip = true → s.partitionCount = seen.length ∧ seen.length < q.offset + limit
  count : s.partitionCount ≤ seen.length

/-- There are keys enough, of `n` that are found. -/
structure Enough (q : IndexQuery) (limit : Nat) (skip : Bool) (n : Nat) (s : Collected) : Prop where
  limited : limit ≠ 0
  found : q.offset + limit ≤ n
  keys : (if skip then limit else q.offset + limit) ≤ s.keys.length
  whole : q.offset = 0 → s.keys.length ≤ limit

/-- Once there are enough keys, there stay enough. -/
theorem Enough.keyCallback {n : Nat} {s : Collected} (h : Enough q limit skip n s)
    (k : IndexKey) : Enough q limit skip n (q.keyCallback limit skip s k).1 := by
  have hge : s.keys.length ≤ (OrderedSet.emplace q.indexKeyCompare k s.keys).2.length :=
    OrderedSet.length_emplace_ge
  have hle : (OrderedSet.emplace q.indexKeyCompare k s.keys).2.length ≤ s.keys.length + 1 :=
    OrderedSet.length_emplace_le
  have hkeys := h.keys
  rw [IndexQuery.keyCallback]
  by_cases hskip : skip = true ∧ s.partitionCount < q.offset
  · rw [if_pos hskip]
    exact ⟨h.limited, h.found, h.keys, h.whole⟩
  · rw [if_neg hskip]
    by_cases hoffset : q.offset = 0
    · have hwhole := h.whole hoffset
      have hkeys' : limit ≤ s.keys.length := by
        cases skip <;> simp only [Bool.false_eq_true, if_true, if_false] at hkeys <;> omega
      have hif : (if skip = true then limit else q.offset + limit) = limit := by
        cases skip <;> simp [hoffset]
      simp only [hoffset, if_true]
      by_cases hcut : limit ≠ 0 ∧ limit < (OrderedSet.emplace q.indexKeyCompare k s.keys).2.length
      · rw [if_pos hcut]
        refine ⟨h.limited, h.found, ?_, fun _ => ?_⟩
        · rw [hif, List.length_dropLast]
          omega
        · rw [List.length_dropLast]
          omega
      · rw [if_neg hcut]
        refine ⟨h.limited, h.found, ?_, fun _ => ?_⟩
        · rw [hif]
          exact hkeys'.trans hge
        · exact not_lt.mp fun hlt => hcut ⟨h.limited, hlt⟩
    · simp only [if_neg hoffset]
      exact ⟨h.limited, h.found, hkeys.trans hge, fun h => absurd h hoffset⟩

/-- A key told apart from those seen is kept, or there are keys enough. -/
theorem Tracks.keyCallback {n : Nat} {seen : List IndexKey} {s : Collected} {k : IndexKey}
    (hskip : skip = true → q.offset ≠ 0) (hlimit : q.offset = 0 ∨ limit ≠ 0)
    (h : Tracks q limit skip seen s) (hk : ∀ k' ∈ seen, Comparable q.indexKeyCompare k k')
    (hn : seen.length + 1 ≤ n) :
    Tracks q limit skip (seen ++ [k]) (q.keyCallback limit skip s k).1 ∧
        (q.keyCallback limit skip s k).2 = .next ∨
      Enough q limit skip n (q.keyCallback limit skip s k).1 := by
  have hcount := h.count
  have hlen : (seen ++ [k]).length = seen.length + 1 := List.length_append
  rw [IndexQuery.keyCallback]
  by_cases hbefore : skip = true ∧ s.partitionCount < q.offset
  · -- the key is skipped
    obtain ⟨hs, hlt⟩ := hbefore
    obtain ⟨hpc, hseen⟩ := h.skipped hs
    rw [if_pos ⟨hs, hlt⟩]
    refine .inl ⟨⟨?_, fun h0 => absurd h0 (hskip hs), fun _ => ⟨?_, ?_⟩, ?_⟩, rfl⟩
    · have hkeys := h.keys
      rw [kept, if_pos hs, List.drop_eq_nil_of_le (by omega)] at hkeys
      rw [kept, if_pos hs, List.drop_eq_nil_of_le (by omega)]
      exact hkeys
    · rw [hlen, hpc]
    · rw [hlen]
      have := hskip hs
      omega
    · rw [hlen, hpc]
  · rw [if_neg hbefore]
    -- the set has the key
    have hperm : (OrderedSet.emplace q.indexKeyCompare k s.keys).2.Perm
        (kept q skip (seen ++ [k])) := by
      have hkept : kept q skip (seen ++ [k]) = kept q skip seen ++ [k] := by
        rw [kept, kept]
        cases hs : skip with
        | false => rfl
        | true =>
          have hpc := (h.skipped hs).1
          have hle : q.offset ≤ seen.length := by
            rw [← hpc]
            exact not_lt.mp fun hlt => hbefore ⟨hs, hlt⟩
          exact List.drop_append_of_le_length hle
      have hall : ∀ k' ∈ s.keys, Comparable q.indexKeyCompare k k' := by
        intro k' hk'
        have hmem := h.keys.mem_iff.mp hk'
        rw [kept] at hmem
        cases hs : skip with
        | false =>
          rw [hs] at hmem
          exact hk k' hmem
        | true =>
          rw [hs] at hmem
          exact hk k' (List.mem_of_mem_drop hmem)
      rw [hkept]
      exact (OrderedSet.emplace_perm hall).trans
        ((h.keys.cons k).trans (List.perm_append_singleton k _).symm)
    have hlength := hperm.length_eq
    by_cases hoffset : q.offset = 0
    · have hs : skip = false := Bool.eq_false_iff.mpr fun hs => hskip hs hoffset
      have hkept : kept q skip (seen ++ [k]) = seen ++ [k] := by rw [kept, hs]; rfl
      rw [hkept, hlen] at hlength
      simp only [hoffset, if_true]
      by_cases hcut : limit ≠ 0 ∧ limit < (OrderedSet.emplace q.indexKeyCompare k s.keys).2.length
      · rw [if_pos hcut]
        have hwhole := h.whole hoffset hcut.1
        have hcut' := hcut.2
        refine .inr ⟨hcut.1, by omega, ?_, fun _ => ?_⟩
        · rw [hs, hoffset, Nat.zero_add]
          show limit ≤ (OrderedSet.emplace q.indexKeyCompare k s.keys).2.dropLast.length
          rw [List.length_dropLast]
          omega
        · show (OrderedSet.emplace q.indexKeyCompare k s.keys).2.dropLast.length ≤ limit
          rw [List.length_dropLast]
          omega
      · rw [if_neg hcut]
        refine .inl ⟨⟨hperm, fun _ hl => ?_, fun h => absurd (hs.symm.trans h) Bool.false_ne_true,
          ?_⟩, rfl⟩
        · rw [hlen, ← hlength]
          exact not_lt.mp fun hlt => hcut ⟨hl, hlt⟩
        · rw [hlen]
          exact hcount.trans (Nat.le_succ _)
    · have hl := hlimit.resolve_left hoffset
      simp only [if_neg hoffset]
      by_cases hstop : s.partitionCount + 1 = q.offset + limit
      · refine .inr ⟨hl, by omega, ?_, fun h0 => absurd h0 hoffset⟩
        show _ ≤ (OrderedSet.emplace q.indexKeyCompare k s.keys).2.length
        rw [hlength, kept]
        cases hs : skip with
        | false =>
          show q.offset + limit ≤ (seen ++ [k]).length
          omega
        | true =>
          have hpc := (h.skipped hs).1
          show limit ≤ ((seen ++ [k]).drop q.offset).length
          rw [List.length_drop]
          omega
      · rw [if_neg hstop]
        refine .inl ⟨⟨hperm, fun h0 => absurd h0 hoffset, fun hs => ?_, ?_⟩, rfl⟩
        · obtain ⟨hpc, hlt⟩ := h.skipped hs
          show s.partitionCount + 1 = _ ∧ _
          omega
        · show s.partitionCount + 1 ≤ _
          omega

/-! ### Topics and partitions -/

/-- What holds at the end of a topic. -/
def Collects (q : IndexQuery) (limit : Nat) (skip : Bool) (n : Nat) (seen : List IndexKey)
    (s : Collected) : Prop := Tracks q limit skip seen s ∨ Enough q limit skip n s

theorem Apart.comparable {l l' : List IndexKey} {k : IndexKey} (h : Apart q (l ++ k :: l')) :
    ∀ k' ∈ l, Comparable q.indexKeyCompare k k' := fun k' hk' =>
  ((List.pairwise_append.mp h).2.2 k' hk' k List.mem_cons_self).symm

theorem Collects.collectTopic {n : Nat} {seen : List IndexKey} {s : Collected}
    (hskip : skip = true → q.offset ≠ 0) (hlimit : q.offset = 0 ∨ limit ≠ 0)
    (h : Collects q limit skip n seen s) {t : Visits IndexKey Key} (hfirst : skip = true → seen = [])
    (hapart : Apart q (seen ++ t.all)) (hn : (seen ++ t.all).length ≤ n) :
    Collects q limit skip n (seen ++ t.all) (q.collectTopic limit skip s t) := by
  have hkeep : ∀ s k, True → Enough q limit skip n s →
      Enough q limit skip n (q.keyCallback limit skip s k).1 := fun _ k _ hs => hs.keyCallback k
  rw [IndexQuery.collectTopic]
  obtain h | h := h
  · have hstart : Tracks q limit skip seen ⟨s.keys, 0⟩ := by
      refine ⟨h.keys, h.whole, fun hs => ?_, Nat.zero_le _⟩
      have hlimit := hlimit.resolve_left (hskip hs)
      rw [hfirst hs]
      exact ⟨rfl, by simp only [List.length_nil]; omega⟩
    refine (Visits.run_seen t.reports_true hkeep seen _ hstart fun l k l' s heq hl => ?_).resolve_left
      fun ⟨error, _⟩ => error.elim
    rw [heq] at hapart hn
    rw [List.length_append, List.length_cons] at hn
    exact (hl.keyCallback hskip hlimit hapart.comparable (by omega)).imp_right .inl
  · exact .inr (Visits.run_keep t.reports_true hkeep _
      ⟨h.limited, h.found, h.keys, h.whole⟩)

theorem Collects.collectTopics (hskip : skip = true → q.offset ≠ 0)
    (hlimit : q.offset = 0 ∨ limit ≠ 0) {n : Nat} :
    ∀ {ts : List (Visits IndexKey Key)} {seen : List IndexKey} {s : Collected},
      Collects q limit skip n seen s → (skip = true → seen = [] ∧ ts.length ≤ 1) →
        Apart q (seen ++ ts.flatMap Visits.all) → (seen ++ ts.flatMap Visits.all).length ≤ n →
          Collects q limit skip n (seen ++ ts.flatMap Visits.all)
            (ts.foldl (q.collectTopic limit skip) s) := by
  intro ts
  induction ts with
  | nil =>
    intro seen s h _ _ _
    rw [List.flatMap_nil, List.append_nil]
    exact h
  | cons t ts ih =>
    intro seen s h hfirst hapart hn
    rw [List.flatMap_cons, ← List.append_assoc] at hapart hn ⊢
    have ht : Collects q limit skip n (seen ++ t.all) (q.collectTopic limit skip s t) := by
      refine h.collectTopic hskip hlimit (fun hs => (hfirst hs).1)
        (hapart.sublist (List.sublist_append_left ..)) ?_
      rw [List.length_append] at hn
      omega
    cases ts with
    | nil =>
      rw [List.flatMap_nil, List.append_nil]
      exact ht
    | cons t' ts =>
      refine ih ht (fun hs => ?_) hapart hn
      have hlen := (hfirst hs).2
      simp only [List.length_cons] at hlen
      omega

/-- Where the loop over the partitions is left early, there are keys enough. -/
theorem Tracks.enough {n : Nat} {seen : List IndexKey} {s : Collected} (hlimit : limit ≠ 0)
    (h : Tracks q limit skip seen s) (hs : q.offset + limit ≤ s.keys.length)
    (hn : seen.length ≤ n) : Enough q limit skip n s := by
  have hlength := h.keys.length_eq
  have hle : (kept q skip seen).length ≤ seen.length := by
    rw [kept]
    cases skip with
    | false => exact Nat.le_refl _
    | true => exact (List.drop_sublist ..).length_le
  refine ⟨hlimit, by omega, ?_, fun h0 => ?_⟩
  · cases skip with
    | false => exact hs
    | true => exact (Nat.le_add_left ..).trans hs
  · have := h.whole h0 hlimit
    omega

theorem length_searchPartition {p : Partition} {now : Nat} (h : q.topics.length = 1) :
    (q.searchPartition now p).length = 1 := by
  have hne : ¬ q.topics.isEmpty = true := by
    rw [List.isEmpty_iff, ← List.length_eq_zero_iff]
    omega
  rw [searchPartition, topicsOf, if_neg hne, List.length_map, h]

theorem found_cons (now : Nat) (p : Partition) (ps : List Partition) : q.found now (p :: ps) =
    (q.searchPartition now p).flatMap Visits.all ++ q.found now ps := by
  rw [found, searches, List.flatMap_cons, List.flatMap_append]
  rfl

theorem Collects.collect {now n : Nat} {w : Bool} (hskip : skip = true → q.offset ≠ 0)
    (htopics : skip = true → q.topics.length = 1) (hlimit : q.offset = 0 ∨ limit ≠ 0)
    (hw : w = true → limit ≠ 0) :
    ∀ {ps : List Partition} {seen : List IndexKey} {s : Collected},
      Collects q limit skip n seen s → (skip = true → seen = [] ∧ ps.length ≤ 1) →
        Apart q (seen ++ q.found now ps) → (seen ++ q.found now ps).length ≤ n →
          Collects q limit skip n (seen ++ q.found now ps) (q.collect now limit skip w ps s) := by
  intro ps
  induction ps with
  | nil =>
    intro seen s h _ _ _
    have hnil : q.found now [] = [] := rfl
    rw [hnil, List.append_nil]
    exact h
  | cons p ps ih =>
    intro seen s h hfirst hapart hn
    rw [found_cons, ← List.append_assoc] at hapart hn ⊢
    have hlen : (seen ++ (q.searchPartition now p).flatMap Visits.all).length ≤ n := by
      rw [List.length_append] at hn
      omega
    have hp : Collects q limit skip n (seen ++ (q.searchPartition now p).flatMap Visits.all)
        ((q.searchPartition now p).foldl (q.collectTopic limit skip) s) :=
      h.collectTopics hskip hlimit
        (fun hs => ⟨(hfirst hs).1, (length_searchPartition (htopics hs)).le⟩)
        (hapart.sublist (List.sublist_append_left ..)) hlen
    rw [IndexQuery.collect]
    by_cases hbreak : w = true ∧ q.offset + limit ≤
        ((q.searchPartition now p).foldl (q.collectTopic limit skip) s).keys.length
    · rw [if_pos hbreak]
      exact .inr (hp.elim (fun ht => ht.enough (hw hbreak.1) hbreak.2 hlen) id)
    · rw [if_neg hbreak]
      cases ps with
      | nil =>
        have hnil : q.found now [] = [] := rfl
        rw [hnil, List.append_nil]
        exact hp
      | cons p' ps =>
        refine ih hp (fun hs => ?_) hapart hn
        have hone := (hfirst hs).2
        simp only [List.length_cons] at hone
        omega

end

/-! ### Counts -/

section
variable {q} {now : Nat} {ps : List Partition}

theorem skipBeforeOffset_iff : q.skipBeforeOffset ps = true ↔
    q.offset ≠ 0 ∧ ps.length = 1 ∧ q.topics.length = 1 := by
  rw [skipBeforeOffset, decide_eq_true_iff, mul_eq_one]

theorem length_cut {n : Nat} {skip : Bool} (hskip : skip = true → q.offset ≠ 0) {s : Collected}
    {seen : List IndexKey} (h : Collects q n skip seen.length seen s) (hn : n ≠ 0) :
    (q.cut n skip s.keys).length = min n (seen.length - q.offset) := by
  have hdrop : (if s.keys.length ≤ q.offset then [] else s.keys.drop q.offset).length =
      s.keys.length - q.offset := by
    split
    · rw [List.length_nil]
      omega
    · exact List.length_drop
  rw [cut]
  by_cases hoffset : q.offset = 0
  · have hs : skip = false := Bool.eq_false_iff.mpr fun hs => hskip hs hoffset
    rw [if_pos hoffset]
    obtain h | h := h
    · have hlen := h.keys.length_eq
      rw [kept, hs] at hlen
      have := h.whole hoffset hn
      simp only [Bool.false_eq_true, if_false] at hlen
      omega
    · have hkeys := h.keys
      have hfound := h.found
      have hwhole := h.whole hoffset
      rw [hs] at hkeys
      simp only [Bool.false_eq_true, if_false] at hkeys
      omega
  · rw [if_neg hoffset]
    cases skip with
    | false =>
      simp only [Bool.false_eq_true, if_false]
      rw [List.length_take, hdrop]
      obtain h | h := h
      · have hlen := h.keys.length_eq
        simp only [kept, Bool.false_eq_true, if_false] at hlen
        omega
      · have hkeys := h.keys
        have hfound := h.found
        simp only [Bool.false_eq_true, if_false] at hkeys
        omega
    | true =>
      simp only [if_true]
      rw [List.length_take]
      obtain h | h := h
      · have hlen := h.keys.length_eq
        simp only [kept, if_true, List.length_drop] at hlen
        omega
      · have hkeys := h.keys
        have hfound := h.found
        simp only [if_true] at hkeys
        omega

/-- **How many keys are found with a limit**: early stops make no difference. -/
theorem length_indexKeys (hapart : Apart q (q.found now ps)) (hlimit : q.limit ≠ 0) (w : Bool) :
    (q.indexKeys now ps false w).length = min q.limit ((q.found now ps).length - q.offset) := by
  have hskip : q.skipBeforeOffset ps = true → q.offset ≠ 0 := fun h => (skipBeforeOffset_iff.mp h).1
  have hstart : Collects q q.limit (q.skipBeforeOffset ps) (q.found now ps).length [] ⟨[], 0⟩ := by
    refine .inl ⟨?_, fun _ _ => Nat.zero_le _, fun _ => ⟨rfl, ?_⟩, Nat.le_refl _⟩
    · rw [kept]
      split
      · rw [List.drop_nil]
      · exact .refl _
    · simp only [List.length_nil]
      omega
  have hcollect := hstart.collect (w := w) hskip (fun h => (skipBeforeOffset_iff.mp h).2.2)
    (.inr hlimit) (fun _ => hlimit) (fun h => ⟨rfl, (skipBeforeOffset_iff.mp h).2.1.le⟩)
    hapart (Nat.le_refl _)
  exact length_cut hskip hcollect hlimit

/-- Without a limit nothing is cut, but a condition on partitions ends the search behind the
first one. -/
theorem length_indexKeys_of_limit_eq_zero (hapart : Apart q (q.found now ps))
    (hlimit : q.limit = 0) (w : Bool) : (q.indexKeys now ps false w).length =
      (q.found now (if w = true then ps.take 1 else ps)).length := by
  have hoffset := q.offset_limit.resolve_right (not_not.mpr hlimit)
  have hskip : q.skipBeforeOffset ps = false :=
    Bool.eq_false_iff.mpr fun h => (skipBeforeOffset_iff.mp h).1 hoffset
  have hcut : ∀ keys : List IndexKey, q.cut 0 false keys = keys := fun keys => by
    rw [cut, if_pos hoffset]
  have hstart : ∀ n, Collects q 0 false n [] ⟨[], 0⟩ := fun n =>
    .inl ⟨.refl _, fun _ h => absurd rfl h, fun h => absurd h Bool.false_ne_true,
      Nat.le_refl _⟩
  have hall : ∀ ps : List Partition, Apart q (q.found now ps) →
      (q.collect now 0 false false ps ⟨[], 0⟩).keys.length = (q.found now ps).length := by
    intro ps hapart
    have hno : ∀ {P : Prop}, false = true → P := fun h => absurd h Bool.false_ne_true
    have hcollect : Collects q 0 false _ ([] ++ q.found now ps)
        (q.collect now 0 false false ps ⟨[], 0⟩) :=
      (hstart _).collect hno hno (.inl hoffset) hno hno hapart (Nat.le_refl _)
    obtain h | h := hcollect
    · exact h.keys.length_eq
    · exact absurd rfl h.limited
  rw [indexKeys, hskip, if_neg Bool.false_ne_true, hlimit, hcut]
  cases w with
  | false => exact hall ps hapart
  | true =>
    cases ps with
    | nil => rfl
    | cons p ps =>
      have hfirst : q.collect now 0 false true (p :: ps) ⟨[], 0⟩ =
          q.collect now 0 false false [p] ⟨[], 0⟩ := by
        rw [collect, collect, if_pos ⟨rfl, by rw [hoffset]; exact Nat.zero_le _⟩]
        rfl
      rw [hfirst]
      refine hall [p] ?_
      rw [found_cons] at hapart ⊢
      have hnil : q.found now [] = [] := rfl
      rw [hnil, List.append_nil]
      exact hapart.sublist (List.sublist_append_left ..)

/-- The entry of an object with the value `n` in a topic of one symbol, in a unique index. -/
def sampleUniqueEntry (topic : UInt8) (n : Fin 256) : Entry where
  key := [topic] ++ [separatorChar] ++ IndexKeySearch.sampleId.chars ++
    (separatorChar :: (IndexKeySearch.sampleColumn.form (IndexKeySearch.sampleValue n) ++
      [separatorChar]))
  value := [topic, n.1.toUInt8, 0, 0, 0, 0, 0]

/-- A partition with the value 6 in each of two topics. -/
def samplePartition : Partition where
  range := 0
  entries := [sampleUniqueEntry 116 6, sampleUniqueEntry 117 6]
  topics := [[116], [117]]

/-- The query for the value 6 in both topics. -/
def sampleQuery (limit : Nat) : IndexQuery where
  indexId := IndexKeySearch.sampleId
  unique := true
  fields := [IndexKeySearch.sampleField .eq 6]
  topics := [[116], [117]]
  timePoints := []
  limit := limit
  offset := 0
  offset_limit := .inl rfl

end

end IndexQuery

end Hatn.Db
