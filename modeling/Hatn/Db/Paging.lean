import Hatn.Db.IndexKeyOrder

/-!
# Pages of index queries

A page of a query is a slice of all its matches in the order of `IndexKeyCompare`.
`indexKeys` stops the search in a topic when it has enough keys, and with an offset in a
single topic it skips the first keys it meets.  `indexKeys_of_offset` says what it collects
with an offset, `Best` follows what it keeps without one, and `paging` says when the result
is the page, and that right pages have all matches.
-/

namespace Hatn.Db

open Query Search

namespace IndexQuery

variable (q : IndexQuery)

/-- The query for all matches. -/
def unlimited : IndexQuery := { q with limit := 0, offset := 0, offset_limit := no_offset }

/-- The slice of all matches. -/
def page (now : Nat) (ps : List Partition) : List IndexKey :=
  ((q.unlimited.indexKeys now ps false false).drop q.offset).take q.limit

/-- The set of all keys that are found. -/
def sorted (now : Nat) (ps : List Partition) : List IndexKey :=
  OrderedSet.emplaceAll q.indexKeyCompare [] (q.found now ps)

/-- The query for the page at another offset. -/
def withOffset (offset : Nat) (hlimit : q.limit ≠ 0) : IndexQuery :=
  { q with offset := offset, offset_limit := .inr hlimit }

/-- The first `n` pages, one behind the other. -/
def pages (hlimit : q.limit ≠ 0) (n now : Nat) (ps : List Partition) : List IndexKey :=
  (List.range n).flatMap fun i =>
    (q.withOffset (i * q.limit) hlimit).indexKeys now ps false false

section
variable {q} {limit : Nat} {skip : Bool}

theorem collect_eq (now : Nat) : ∀ (ps : List Partition) (s : Collected),
    q.collect now limit skip false ps s =
      (q.searches now ps).foldl (q.collectTopic limit skip) s := by
  intro ps
  induction ps with
  | nil => exact fun _ => rfl
  | cons p ps ih =>
    intro s
    rw [collect, if_neg fun h => Bool.false_ne_true h.1, ih, searches, searches,
      List.flatMap_cons, List.foldl_append]

/-! ### Without a limit -/

theorem fold_keyCallback_unlimited (l : List IndexKey) : ∀ s : Collected,
    (Visits.fold (q.unlimited.keyCallback 0 false) s l).keys =
      OrderedSet.emplaceAll q.indexKeyCompare s.keys l := by
  induction l with
  | nil => exact fun _ => rfl
  | cons k l ih =>
    intro s
    rw [Visits.fold_cons, ih]
    rfl

theorem indexKeys_unlimited (now : Nat) (ps : List Partition) :
    q.unlimited.indexKeys now ps false false = q.sorted now ps := by
  have hnext : ∀ s k, (q.unlimited.keyCallback 0 false s k).2 = .next := fun _ _ => rfl
  have hall : ∀ (ts : List (Visits IndexKey Key)) (s : Collected),
      (ts.foldl (q.unlimited.collectTopic 0 false) s).keys =
        OrderedSet.emplaceAll q.indexKeyCompare s.keys (ts.flatMap Visits.all) := by
    intro ts
    induction ts with
    | nil => exact fun _ => rfl
    | cons t ts ih =>
      intro s
      rw [List.foldl_cons, ih, collectTopic, Visits.run_of_next hnext, fold_keyCallback_unlimited,
        List.flatMap_cons, OrderedSet.emplaceAll_append]
  have hcut : ∀ keys : List IndexKey, q.unlimited.cut 0 false keys = keys := fun _ => rfl
  have hskip : q.unlimited.skipBeforeOffset ps = false :=
    decide_eq_false fun h => h.1 rfl
  rw [indexKeys, hskip]
  show q.unlimited.cut 0 false (q.unlimited.collect now 0 false false ps ⟨[], 0⟩).keys = _
  rw [hcut, collect_eq, hall]
  rfl

/-! ### With an offset -/

/-- Behind the stop all keys are kept. -/
theorem run_keyCallback_of_le (hoffset : q.offset ≠ 0) {α : Type} (t : Visits IndexKey α) :
    ∀ s : Collected, q.offset + limit ≤ s.partitionCount →
      (t.run (q.keyCallback limit skip) s).1.keys =
        OrderedSet.emplaceAll q.indexKeyCompare s.keys t.all := by
  induction t with
  | done a => exact fun _ _ => rfl
  | visit k next ih =>
    intro s hs
    have hskip : ¬ (skip = true ∧ s.partitionCount < q.offset) := fun h => by omega
    have hgo : ¬ s.partitionCount + 1 = q.offset + limit := by omega
    rw [Visits.run, keyCallback, if_neg hskip]
    simp only [if_neg hoffset, if_neg hgo]
    rw [ih true _ (by omega : q.offset + limit ≤ s.partitionCount + 1)]
    rfl

/-- **What is kept of a topic**: the first keys up to the stop, less those that are skipped,
and what is reported behind the stop. -/
theorem run_keyCallback (hoffset : q.offset ≠ 0) (hlimit : limit ≠ 0) {α : Type}
    (t : Visits IndexKey α) : ∀ (s : Collected) (n : Nat),
      s.partitionCount + n + 1 = q.offset + limit →
        (t.run (q.keyCallback limit skip) s).1.keys =
          OrderedSet.emplaceAll q.indexKeyCompare s.keys
            ((t.all.take (n + 1)).drop (if skip then q.offset - s.partitionCount else 0) ++
              t.afterStop n) := by
  induction t with
  | done a =>
    intro s n _
    rw [Visits.all, List.take_nil, List.drop_nil]
    cases n <;> rfl
  | visit k next ih =>
    intro s n hn
    rw [Visits.run, keyCallback, Visits.all, List.take_succ_cons]
    by_cases hskip : skip = true ∧ s.partitionCount < q.offset
    · -- the key is skipped, and the stop is further on
      obtain ⟨n, rfl⟩ : ∃ m, n = m + 1 := ⟨n - 1, by omega⟩
      have hdrop : q.offset - s.partitionCount = q.offset - (s.partitionCount + 1) + 1 := by omega
      have hnext := ih true ⟨s.keys, s.partitionCount + 1⟩ n (by dsimp only; omega)
      rw [if_pos hskip.1] at hnext
      rw [if_pos hskip, if_pos hskip.1, hdrop, List.drop_succ_cons, Visits.afterStop]
      exact hnext
    · have hzero : (if skip = true then q.offset - s.partitionCount else 0) = 0 := by
        cases hs : skip with
        | false => rfl
        | true =>
          have hle : q.offset ≤ s.partitionCount := not_lt.mp fun hlt => hskip ⟨hs, hlt⟩
          rw [if_pos rfl, Nat.sub_eq_zero_of_le hle]
      have hzero' : (if skip = true then q.offset - (s.partitionCount + 1) else 0) = 0 := by
        cases hs : skip with
        | false => rfl
        | true =>
          rw [hs, if_pos rfl] at hzero
          rw [if_pos rfl]
          omega
      rw [if_neg hskip, hzero, List.drop_zero]
      simp only [if_neg hoffset]
      cases n with
      | zero =>
        rw [if_pos hn, Visits.afterStop, List.take_zero]
        exact run_keyCallback_of_le hoffset (next false) _ hn.ge
      | succ n =>
        have hgo : ¬ s.partitionCount + 1 = q.offset + limit := by omega
        rw [if_neg hgo, Visits.afterStop]
        refine (ih true ⟨_, s.partitionCount + 1⟩ n (by dsimp only; omega)).trans ?_
        dsimp only
        rw [hzero', List.drop_zero]
        rfl

/-- What `indexKeys` keeps of a topic. -/
def keptOf (q : IndexQuery) (limit : Nat) (skip : Bool) (t : Visits IndexKey Key) : List IndexKey :=
  (t.all.take (q.offset + limit)).drop (if skip then q.offset else 0) ++
    t.afterStop (q.offset + limit - 1)

/-- **What is collected with an offset.** -/
theorem indexKeys_of_offset (hoffset : q.offset ≠ 0) (hlimit : q.limit ≠ 0) (now : Nat)
    (ps : List Partition) : q.indexKeys now ps false false =
      q.cut q.limit (q.skipBeforeOffset ps) (OrderedSet.emplaceAll q.indexKeyCompare []
        ((q.searches now ps).flatMap (q.keptOf q.limit (q.skipBeforeOffset ps)))) := by
  have hall : ∀ (ts : List (Visits IndexKey Key)) (s : Collected),
      (ts.foldl (q.collectTopic q.limit (q.skipBeforeOffset ps)) s).keys =
        OrderedSet.emplaceAll q.indexKeyCompare s.keys
          (ts.flatMap (q.keptOf q.limit (q.skipBeforeOffset ps))) := by
    intro ts
    induction ts with
    | nil => exact fun _ => rfl
    | cons t ts ih =>
      intro s
      have hn : q.offset + q.limit - 1 + 1 = q.offset + q.limit := by omega
      have ht : (q.collectTopic q.limit (q.skipBeforeOffset ps) s t).keys =
          OrderedSet.emplaceAll q.indexKeyCompare s.keys
            (q.keptOf q.limit (q.skipBeforeOffset ps) t) := by
        refine (run_keyCallback hoffset hlimit t ⟨s.keys, 0⟩ (q.offset + q.limit - 1) ?_).trans ?_
        · show 0 + _ + 1 = _
          omega
        · rw [hn]
          rfl
      rw [List.foldl_cons, ih, ht, List.flatMap_cons, OrderedSet.emplaceAll_append]
  rw [indexKeys, if_neg Bool.false_ne_true, collect_eq, hall]

/-! ### Without an offset -/

/-- A call without an offset: the set with the key, cut to the limit. -/
theorem keyCallback_of_offset_eq_zero (hoffset : q.offset = 0) (hlimit : limit ≠ 0) (s : Collected)
    (k : IndexKey) : (q.keyCallback limit false s k).1.keys =
        OrderedSet.emplaceCut q.indexKeyCompare limit k s.keys ∧
      ((q.keyCallback limit false s k).2 = .next ∨
        limit < (OrderedSet.emplace q.indexKeyCompare k s.keys).2.length ∧
          (OrderedSet.emplace q.indexKeyCompare k s.keys).1 + 1 =
            (OrderedSet.emplace q.indexKeyCompare k s.keys).2.length) := by
  rw [keyCallback, if_neg fun h => Bool.false_ne_true h.1, OrderedSet.emplaceCut]
  simp only [if_pos hoffset]
  by_cases hcut : limit < (OrderedSet.emplace q.indexKeyCompare k s.keys).2.length
  · rw [if_pos ⟨hlimit, hcut⟩, if_pos hcut]
    refine ⟨rfl, ?_⟩
    by_cases hlast : (OrderedSet.emplace q.indexKeyCompare k s.keys).1 + 1 =
        (OrderedSet.emplace q.indexKeyCompare k s.keys).2.length
    · exact .inr ⟨hcut, hlast⟩
    · rw [if_neg hlast]
      exact .inl rfl
  · rw [if_neg fun h => hcut h.2, if_neg hcut]
    exact ⟨rfl, .inl rfl⟩

/-- The keys kept are the best ones of what was found so far. -/
def BestKeys (q : IndexQuery) (V : List IndexKey) (limit : Nat) (D : IndexKey → Prop)
    (s : Collected) : Prop := Best q.indexKeyCompare V limit D s.keys

theorem BestKeys.collectTopic (hoffset : q.offset = 0) (hlimit : limit ≠ 0) {V : List IndexKey}
    (hV : OrderedOn q.indexKeyCompare V) {D : IndexKey → Prop} {s : Collected}
    (h : BestKeys q V limit D s) {t : Visits IndexKey Key} {R : Key → Prop}
    (ht : t.Reports (· ∈ V) R) (hsorted : t.all.Pairwise (q.indexKeyCompare · · = true)) :
    BestKeys q V limit (fun k => D k ∨ k ∈ t.all) (q.collectTopic limit false s t) := by
  have hcall : ∀ {D : IndexKey → Prop} (s : Collected) (k : IndexKey), k ∈ V →
      BestKeys q V limit D s →
        BestKeys q V limit (fun k' => D k' ∨ k' = k) (q.keyCallback limit false s k).1 := by
    intro D s k hk hs
    rw [BestKeys, (keyCallback_of_offset_eq_zero hoffset hlimit s k).1]
    exact hs.emplace_cut hV hk
  have hkeep : ∀ s k, k ∈ V → BestKeys q V limit (fun k => D k ∨ k ∈ t.all) s →
      BestKeys q V limit (fun k => D k ∨ k ∈ t.all) (q.keyCallback limit false s k).1 :=
    fun s k hk hs => (hcall s k hk hs).mono fun _ h => .inl h
  have hstep : ∀ l k l' s, [] ++ t.all = l ++ k :: l' →
      BestKeys q V limit (fun k => D k ∨ k ∈ l) s →
        BestKeys q V limit (fun k' => D k' ∨ k' ∈ l ++ [k]) (q.keyCallback limit false s k).1 ∧
            (q.keyCallback limit false s k).2 = .next ∨
          BestKeys q V limit (fun k => D k ∨ k ∈ t.all) (q.keyCallback limit false s k).1 ∨
            ∃ error, (q.keyCallback limit false s k).2 = .fail error := by
    intro l k l' s hl hs
    rw [List.nil_append] at hl
    have hk : k ∈ V := ht.all k (by rw [hl]; simp)
    obtain ⟨hkeys, hanswer⟩ := keyCallback_of_offset_eq_zero hoffset hlimit s k
    rcases hanswer with hnext | ⟨hcut, hlast⟩
    · refine .inl ⟨(hcall s k hk hs).mono fun k' hk' => ?_, hnext⟩
      rw [List.mem_append, List.mem_singleton, ← or_assoc] at hk'
      exact hk'
    · -- what comes behind the last key in the topic would be cut too
      have hstop := hs.stop hV hk hcut hlast
      rw [← hkeys] at hstop
      refine .inr (.inl (hstop.mono fun k' hk' => ?_))
      rcases hk' with hD | hk'
      · exact .inl (.inl (.inl hD))
      · have hkV := ht.all k' hk'
        rw [hl, List.pairwise_append, List.pairwise_cons] at hsorted
        rw [hl, List.mem_append, List.mem_cons] at hk'
        rcases hk' with hk' | heq | hk'
        · exact .inl (.inl (.inr hk'))
        · exact .inl (.inr heq)
        · exact .inr ⟨hkV, hsorted.2.1.1 k' hk'⟩
  have hstart : BestKeys q V limit (fun k => D k ∨ k ∈ []) ⟨s.keys, 0⟩ :=
    Best.mono h fun k hk => hk.resolve_right List.not_mem_nil
  rcases Visits.run_seen ht hkeep [] ⟨s.keys, 0⟩ hstart hstep with ⟨error, -⟩ | hseen | hseen
  · exact error.elim
  · exact hseen
  · exact hseen

/-- Below the limit nothing is cut. -/
theorem collectTopic_of_length_le (hoffset : q.offset = 0) (hlimit : limit ≠ 0)
    {t : Visits IndexKey Key} {l : List IndexKey} {s : Collected}
    (hs : s.keys = OrderedSet.emplaceAll q.indexKeyCompare [] l)
    (hlen : l.length + t.all.length ≤ limit) : (q.collectTopic limit false s t).keys =
      OrderedSet.emplaceAll q.indexKeyCompare [] (l ++ t.all) := by
  have hstep : ∀ l₁ k l₂ s, [] ++ t.all = l₁ ++ k :: l₂ →
      s.keys = OrderedSet.emplaceAll q.indexKeyCompare [] (l ++ l₁) →
        (q.keyCallback limit false s k).1.keys =
              OrderedSet.emplaceAll q.indexKeyCompare [] (l ++ (l₁ ++ [k])) ∧
            (q.keyCallback limit false s k).2 = .next ∨
          False ∨ ∃ error, (q.keyCallback limit false s k).2 = .fail error := by
    intro l₁ k l₂ s hl hs
    obtain ⟨hkeys, hanswer⟩ := keyCallback_of_offset_eq_zero hoffset hlimit s k
    have hemplace : (OrderedSet.emplace q.indexKeyCompare k s.keys).2 =
        OrderedSet.emplaceAll q.indexKeyCompare [] (l ++ (l₁ ++ [k])) := by
      rw [← List.append_assoc, OrderedSet.emplaceAll_append, ← hs]
      rfl
    have hle : ¬ limit < (OrderedSet.emplace q.indexKeyCompare k s.keys).2.length := by
      have hall : (OrderedSet.emplaceAll q.indexKeyCompare [] (l ++ (l₁ ++ [k]))).length ≤ _ :=
        OrderedSet.length_emplaceAll_le _ _
      rw [← hemplace] at hall
      rw [List.nil_append] at hl
      rw [hl] at hlen
      simp only [List.length_append, List.length_cons, List.length_nil] at hall hlen
      omega
    rw [OrderedSet.emplaceCut, if_neg hle, hemplace] at hkeys
    exact .inl ⟨hkeys, hanswer.resolve_right fun h => hle h.1⟩
  rcases Visits.run_seen (Q := fun _ => False) t.reports_true (fun _ _ _ h => h) [] ⟨s.keys, 0⟩
    (by rw [List.append_nil]; exact hs) hstep with ⟨error, -⟩ | hseen | hseen
  · exact error.elim
  · exact hseen
  · exact hseen.elim

end

/-! ### Pages -/

section
variable {q} {now : Nat} {ps : List Partition}

theorem mem_searches {t : Visits IndexKey Key} (ht : t ∈ q.searches now ps) :
    ∃ p ∈ ps, ∃ topic ∈ q.topicsOf p, t = q.searchTopic now p topic := by
  obtain ⟨p, hp, ht⟩ := List.mem_flatMap.mp ht
  obtain ⟨topic, htopic, rfl⟩ := List.mem_map.mp ht
  exact ⟨p, hp, topic, htopic, rfl⟩

theorem all_subset_found {t : Visits IndexKey Key} (ht : t ∈ q.searches now ps) :
    t.all ⊆ q.found now ps := fun _ hk => List.mem_flatMap.mpr ⟨t, ht, hk⟩

theorem mem_sorted (hapart : q.Apart (q.found now ps)) {k : IndexKey} :
    k ∈ q.sorted now ps ↔ k ∈ q.found now ps := by
  rw [sorted, OrderedSet.mem_emplaceAll hapart.orderedOn (fun _ h => h) (List.nil_subset _)]
  exact or_iff_right List.not_mem_nil

theorem pairwise_sorted (hapart : q.Apart (q.found now ps)) :
    (q.sorted now ps).Pairwise (q.indexKeyCompare · · = true) :=
  OrderedSet.pairwise_emplaceAll hapart.orderedOn (fun _ h => h) (List.nil_subset _) .nil

/-- Nor is anything lost below the limit. -/
theorem indexKeys_of_length_lt (hoffset : q.offset = 0) (hlen : (q.found now ps).length < q.limit) :
    q.indexKeys now ps false false = q.page now ps := by
  have hlimit : q.limit ≠ 0 := by omega
  have hall : ∀ (ts : List (Visits IndexKey Key)) (l : List IndexKey) (s : Collected),
      s.keys = OrderedSet.emplaceAll q.indexKeyCompare [] l →
        l.length + (ts.flatMap Visits.all).length ≤ q.limit →
          (ts.foldl (q.collectTopic q.limit false) s).keys =
            OrderedSet.emplaceAll q.indexKeyCompare [] (l ++ ts.flatMap Visits.all) := by
    intro ts
    induction ts with
    | nil => exact fun l s hs _ => by rw [List.flatMap_nil, List.append_nil]; exact hs
    | cons t ts ih =>
      intro l s hs hle
      rw [List.flatMap_cons, List.length_append] at hle
      have ht := collectTopic_of_length_le hoffset hlimit (t := t) hs (by omega)
      rw [List.foldl_cons, List.flatMap_cons, ← List.append_assoc]
      exact ih _ _ ht (by rw [List.length_append]; omega)
  have hskip : q.skipBeforeOffset ps = false := decide_eq_false fun h => h.1 hoffset
  have hkeys := hall (q.searches now ps) [] ⟨[], 0⟩ rfl (by
    rw [List.length_nil, Nat.zero_add]
    exact hlen.le)
  rw [List.nil_append] at hkeys
  have hle : (q.sorted now ps).length ≤ q.limit := by
    have hall : (q.sorted now ps).length ≤ _ := OrderedSet.length_emplaceAll_le _ _
    rw [List.length_nil, Nat.zero_add] at hall
    exact hall.trans hlen.le
  rw [indexKeys, if_neg Bool.false_ne_true, hskip, cut, if_pos hoffset, collect_eq, page,
    indexKeys_unlimited, hoffset, List.drop_zero, List.take_of_length_le hle]
  exact hkeys

/-! ### Pages at an offset -/

/-- **With an offset**, in several topics, the keys up to the end of the page are needed. -/
theorem indexKeys_eq_page_of_take (hoffset : q.offset ≠ 0) (hlimit : q.limit ≠ 0)
    (hskip : q.skipBeforeOffset ps = false)
    (htake : (OrderedSet.emplaceAll q.indexKeyCompare []
      ((q.searches now ps).flatMap (q.keptOf q.limit false))).take (q.offset + q.limit) =
        (q.sorted now ps).take (q.offset + q.limit)) :
    q.indexKeys now ps false false = q.page now ps := by
  have hcut : ∀ keys : List IndexKey, q.cut q.limit false keys =
      (keys.take (q.offset + q.limit)).drop q.offset := by
    intro keys
    rw [cut, if_neg hoffset, if_neg Bool.false_ne_true, List.drop_take, Nat.add_sub_cancel_left]
    by_cases hlen : keys.length ≤ q.offset
    · rw [if_pos hlen, List.drop_of_length_le hlen]
    · rw [if_neg hlen]
  rw [indexKeys_of_offset hoffset hlimit, hskip, hcut, htake, page, indexKeys_unlimited,
    List.drop_take, Nat.add_sub_cancel_left]

/-- Below the end of the page all keys are kept. -/
theorem keptOf_of_length_lt {t : Visits IndexKey Key} (hlen : t.all.length < q.offset + q.limit) :
    q.keptOf q.limit false t = t.all := by
  rw [keptOf, if_neg Bool.false_ne_true, List.drop_zero, List.take_of_length_le hlen.le,
    Visits.afterStop_of_length_le t _ (by omega), List.append_nil]

theorem take_of_length_lt (hlen : (q.found now ps).length < q.offset + q.limit) :
    (q.searches now ps).flatMap (q.keptOf q.limit false) = q.found now ps := by
  refine List.flatMap_congr fun t ht => keptOf_of_length_lt ?_
  have hle : t.all.length ≤ (q.found now ps).length :=
    (List.sublist_flatten_of_mem (List.mem_map_of_mem ht)).length_le
  exact hle.trans_lt hlen

/-! ### Pages of a single topic -/

/-- Where keys are skipped there is one search. -/
theorem searches_of_skip (hskip : q.skipBeforeOffset ps = true) (now : Nat) :
    q.offset ≠ 0 ∧ ∃ t, q.searches now ps = [t] := by
  obtain ⟨hoffset, hone⟩ := of_decide_eq_true hskip
  obtain ⟨p, rfl⟩ := List.length_eq_one_iff.mp (Nat.eq_one_of_mul_eq_one_right hone)
  obtain ⟨topic, htopic⟩ := List.length_eq_one_iff.mp (Nat.eq_one_of_mul_eq_one_left hone)
  refine ⟨hoffset, q.searchTopic now p topic, ?_⟩
  rw [searches, List.flatMap_singleton, searchPartition, topicsOf, htopic]
  rfl

/-- What is kept where keys are skipped. -/
theorem indexKeys_of_skip (hlimit : q.limit ≠ 0) (hskip : q.skipBeforeOffset ps = true) :
    q.indexKeys now ps false false = (OrderedSet.emplaceAll q.indexKeyCompare []
      (((q.found now ps).drop q.offset).take q.limit ++ q.afterLimit now ps)).take q.limit := by
  obtain ⟨hoffset, t, ht⟩ := searches_of_skip hskip now
  rw [indexKeys_of_offset hoffset hlimit, hskip, cut, if_neg hoffset, if_pos rfl, found, afterLimit,
    ht, List.flatMap_singleton, List.flatMap_singleton, Visits.afterStop_sequence_singleton, keptOf,
    if_pos rfl, List.drop_take, Nat.add_sub_cancel_left, Nat.add_comm q.limit]

/-- Slices of one length, one behind the other. -/
theorem flatMap_slices {α : Type} (l : List α) (length n : Nat) :
    (List.range n).flatMap (fun i => (l.drop (i * length)).take length) = l.take (n * length) := by
  induction n with
  | zero => rw [Nat.zero_mul, List.take_zero, List.range_zero, List.flatMap_nil]
  | succ n ih =>
    rw [List.range_succ, List.flatMap_append, ih, List.flatMap_singleton, Nat.succ_mul,
      List.take_add]

/-- When all pages are right, they have all matches, each once. -/
theorem pages_of_page (hlimit : q.limit ≠ 0) (hapart : q.Apart (q.found now ps)) {n : Nat}
    (hlen : (q.found now ps).length ≤ n * q.limit)
    (hpage : ∀ i < n, (q.withOffset (i * q.limit) hlimit).indexKeys now ps false false =
      (q.withOffset (i * q.limit) hlimit).page now ps) :
    (q.pages hlimit n now ps).Nodup ∧ ∀ k, k ∈ q.pages hlimit n now ps ↔ k ∈ q.found now ps := by
  have hsorted : (q.sorted now ps).length ≤ n * q.limit := by
    have hle : (q.sorted now ps).length ≤ _ := OrderedSet.length_emplaceAll_le _ _
    rw [List.length_nil, Nat.zero_add] at hle
    exact hle.trans hlen
  have hpages : q.pages hlimit n now ps = q.sorted now ps := by
    have hslices : q.pages hlimit n now ps =
        (List.range n).flatMap fun i => ((q.sorted now ps).drop (i * q.limit)).take q.limit := by
      refine List.flatMap_congr fun i hi => (hpage i (List.mem_range.mp hi)).trans ?_
      rw [page, indexKeys_unlimited]
      rfl
    rw [hslices, flatMap_slices, List.take_of_length_le hsorted]
  rw [hpages]
  refine ⟨hapart.orderedOn.nodup (fun k hk => (mem_sorted hapart).mp hk) (pairwise_sorted hapart),
    fun k => mem_sorted hapart⟩

/-- The search in a single topic does not report again, behind its stop, a key it has skipped. -/
def NoneAgain (q : IndexQuery) (now : Nat) (ps : List Partition) : Prop :=
  q.skipBeforeOffset ps = true → ∀ k ∈ q.afterLimit now ps, k ∉ (q.found now ps).take q.offset

end

section Sample

open IndexKeySearch

/-- The entry of an object with the values `m` and `n`, in a unique index. -/
def sampleRowEntry (m n : Fin 256) : Entry where
  key := [116] ++ [separatorChar] ++ sampleId.chars ++
    (separatorChar :: (sampleColumn.form (sampleValue m) ++
      separatorChar :: (sampleColumn.form (sampleValue n) ++ [separatorChar])))
  value := [m.1.toUInt8, n.1.toUInt8, 0, 0, 0, 0, 0]

/-- A partition with the values 1 and 1, 1 and 2, and 1 and 3. -/
def sampleRowsPartition : Partition where
  range := 0
  entries := [sampleRowEntry 1 1, sampleRowEntry 1 2, sampleRowEntry 1 3]
  topics := [[116]]

/-- A condition on the first value, and the second value up to 9. -/
def samplePageFields (op : Operator) : List Field :=
  [sampleField op 1, ⟨sampleColumn, .in_,
    .interval ⟨⟨sampleValue 0, .closed⟩, ⟨sampleValue 9, .closed⟩⟩, .asc⟩]

/-- The second page of one key. -/
def samplePageQuery (op : Operator) : IndexQuery where
  indexId := sampleId
  unique := true
  fields := samplePageFields op
  topics := [[116]]
  timePoints := []
  limit := 1
  offset := 1
  offset_limit := .inr Nat.one_ne_zero

end Sample

end IndexQuery

end Hatn.Db
