import Hatn.Common.MpscLinked

/-!
# What the queue of many producers delivers

All interleavings keep the order of the items, their number and the end of the wait for the
next item.  The only fault is in `doClear`: when it has dropped `maxCount` items, the next one
that `popItem` takes out is neither dropped nor put back.  `delivers_iff` says that the runs
without this step deliver in every state, and no others do.
-/

namespace Hatn.Common.Mpsc

open Hatn.Order

namespace Queue

variable {P : Type} [Fintype P] [DecidableEq P] {q q' : Queue P} {l : List Item}

/-! ### Different items -/

omit [Fintype P] in
/-- Items are different in a log when those of each producer are, and no two producers share
one. -/
theorem nodup_of_parts (log : List (P × Item))
    (hown : ∀ p, ((log.filter (·.1 = p)).map (·.2)).Nodup)
    (hdisj : ∀ p p', p ≠ p' →
      ((log.filter (·.1 = p)).map (·.2)).Disjoint ((log.filter (·.1 = p')).map (·.2))) :
    (log.map (·.2)).Nodup := by
  induction log with
  | nil => exact List.nodup_nil
  | cons r log ih =>
    have hsub : ∀ p, ((log.filter (·.1 = p)).map (·.2)).Sublist
        (((r :: log).filter (·.1 = p)).map (·.2)) := fun p =>
      (((List.sublist_cons_self r log).filter _).map _)
    have hrest := ih (fun p => (hown p).sublist (hsub p)) fun p p' hp y hy hy' =>
      hdisj p p' hp ((hsub p).subset hy) ((hsub p').subset hy')
    refine List.nodup_cons.mpr ⟨fun hr => ?_, hrest⟩
    obtain ⟨s, hs, hsr⟩ := List.mem_map.mp hr
    have hmem : r.2 ∈ (log.filter (·.1 = s.1)).map (·.2) :=
      List.mem_map.mpr ⟨s, List.mem_filter.mpr ⟨hs, by simp⟩, hsr⟩
    have hself : ((r :: log).filter (·.1 = r.1)).map (·.2) =
        r.2 :: (log.filter (·.1 = r.1)).map (·.2) := by simp
    by_cases hp : s.1 = r.1
    · have hn := hown r.1
      rw [hself] at hn
      exact (List.nodup_cons.mp hn).1 (hp ▸ hmem)
    · refine hdisj r.1 s.1 (Ne.symm hp) ?_ ((hsub s.1).subset hmem)
      rw [hself]
      exact List.mem_cons_self

namespace Linked

theorem exchangedBy_isPrefix (h : q.Linked l) (p : P) : q.exchangedBy p <+: q.called p :=
  ⟨_, (h.own p).symm⟩

theorem nodup_exchanged (h : q.Linked l) (hd : q.DistinctCalls) :
    (q.exchanged.map (·.2)).Nodup := by
  refine nodup_of_parts q.exchanged (fun p => ?_) fun p p' hp y hy hy' => ?_
  · exact (hd.1 p).sublist (h.exchangedBy_isPrefix p).sublist
  · exact hd.2 p p' hp ((h.exchangedBy_isPrefix p).subset hy)
      ((h.exchangedBy_isPrefix p').subset hy')

/-! ### When no operation is in progress -/

theorem quiet_left (h : q.Linked l) (hq : q.Quiet) : q.left = l := by
  rw [h.left_eq, hq.1]
  rfl

omit [Fintype P] [DecidableEq P] in
theorem quiet_not_publishing (hq : q.Quiet) (p : P) (b : Item) (e : Option Item) :
    q.pushing p ≠ .publishing b e := by
  rw [hq.2 p]
  intro h
  cases h

theorem quiet_head (h : q.Linked l) (hq : q.Quiet) : q.head = l.head? := by
  by_cases hl : l = []
  · rw [h.head_nil hl, hq.1, hl]
    rfl
  · rcases h.head_cons hl with hh | ⟨p, b, hb⟩
    · exact hh
    · exact absurd hb (quiet_not_publishing hq p b none)

theorem quiet_size (h : q.Linked l) (hq : q.Quiet) : q.size.toNat = l.length := by
  have hcard : l.length ≤ 2 ^ 64 - 1 := by
    have := h.nodup_queue.length_le_card
    rwa [Fintype.card_fin] at this
  have hsum : ∑ p, (q.pushing p).waiting.length = 0 := by
    refine Finset.sum_eq_zero fun p _ => ?_
    rw [hq.2 p]
    rfl
  have hc := h.count
  rw [hsum, hq.1] at hc
  rw [hc, BitVec.toNat_ofNat]
  exact Nat.mod_eq_of_lt (by simp only [Consumer.held, List.length_nil]; omega)

/-- `popItem` returns the first item when no operation is in progress. -/
theorem quiet_pop (h : q.Linked l) (hq : q.Quiet) {x : Item} (hx : l.head? = some x) :
    ∃ as q', q.run as = some q' ∧ (∀ a ∈ as, a = .callPop ∨ a = .consume) ∧ q'.Quiet ∧
      q'.removed = q.removed ++ [(.returned, x)] ∧ q'.exchanged = q.exchanged := by
  have hhead := (h.quiet_head hq).trans hx
  have hidle := hq.1
  by_cases ht : q.tail = some x
  · refine ⟨[.callPop, .consume, .consume, .consume, .consume],
      { q with
        head := none, tail := none, size := q.size - 1, consumer := .idle
        removed := q.removed ++ [(.returned, x)] }, ?_, by simp, ⟨rfl, hq.2⟩, rfl, rfl⟩
    simp [run, step, consume, finish, hidle, hhead, ht]
  · obtain ⟨n, hxn⟩ := follows_head hx fun hl => ht (h.tail_eq.trans hl)
    have hn : q.next x = some n := by
      rcases h.links x n hxn with hn | ⟨-, p, hp⟩
      · exact hn
      · exact absurd hp (quiet_not_publishing hq p n _)
    refine ⟨[.callPop, .consume, .consume, .consume, .consume, .consume],
      { q with
        head := some n, size := q.size - 1, consumer := .idle
        removed := q.removed ++ [(.returned, x)] }, ?_, by simp, ⟨rfl, hq.2⟩, rfl, rfl⟩
    simp [run, step, consume, finish, hidle, hhead, ht, hn]

theorem run_linked (as : List (Act P)) : ∀ {q : Queue P} {l : List Item}, q.Linked l →
    q.run as = some q' → ∃ l', q'.Linked l' := by
  induction as with
  | nil =>
    intro q l h hr
    cases hr
    exact ⟨l, h⟩
  | cons a as ih =>
    intro q l h hr
    rw [run, Option.bind_eq_some_iff] at hr
    obtain ⟨q₁, hs, hr⟩ := hr
    obtain ⟨l₁, h₁⟩ := h.step_linked hs
    exact ih h₁ hr

omit [DecidableEq P] [Fintype P] in
theorem left_of_removed {r : Outcome × Item} (hr : q'.removed = q.removed ++ [r])
    (he : q'.exchanged = q.exchanged) : q'.left = q.left.tail := by
  rw [left, left, hr, he, List.length_append, List.length_singleton, List.tail_drop]

theorem run_append (q : Queue P) (as bs : List (Act P)) :
    q.run (as ++ bs) = (q.run as).bind fun q => q.run bs := by
  induction as generalizing q with
  | nil => rfl
  | cons a as ih =>
    rw [List.cons_append, run, run, Option.bind_assoc]
    congr 1
    funext q₁
    exact ih q₁

/-- The consumer alone gets all that is left. -/
theorem quiet_drains : ∀ (n : Nat) {q : Queue P} {l : List Item}, l.length = n → q.Linked l →
    q.Quiet → ∃ as q', q.run as = some q' ∧ (∀ a ∈ as, a = .callPop ∨ a = .consume) ∧
      q'.Quiet ∧ q'.removed = q.removed ++ l.map (Outcome.returned, ·) ∧ q'.left = [] := by
  intro n
  induction n with
  | zero =>
    intro q l hn h hq
    have hl := List.length_eq_zero_iff.mp hn
    refine ⟨[], q, rfl, by simp, hq, ?_, ?_⟩
    · rw [hl, List.map_nil, List.append_nil]
    · rw [h.quiet_left hq, hl]
  | succ n ih =>
    intro q l hn h hq
    match l, hn with
    | x :: l, hn =>
      obtain ⟨as, q₁, hr, has, hq₁, hrem, hex⟩ := h.quiet_pop hq rfl
      obtain ⟨l₁, h₁⟩ := run_linked as h hr
      have hl₁ : l₁ = l := by
        rw [← h₁.quiet_left hq₁, left_of_removed hrem hex, h.quiet_left hq]
        rfl
      subst hl₁
      obtain ⟨bs, q₂, hr₂, hbs, hq₂, hrem₂, hleft⟩ := ih (Nat.succ.inj hn) h₁ hq₁
      refine ⟨as ++ bs, q₂, ?_, ?_, hq₂, ?_, hleft⟩
      · rw [run_append, hr]
        exact hr₂
      · intro a ha
        rcases List.mem_append.mp ha with ha | ha
        · exact has a ha
        · exact hbs a ha
      · rw [hrem₂, hrem, List.append_assoc]
        rfl

/-! ### Every state -/

theorem waits_for (h : q.Linked l) {c : Caller} {x : Item}
    (hc : q.consumer = .popping c (.loadNext x)) (hn : q.next x = none) :
    ∃ p b, q.pushing p = .publishing b (some x) ∧
      ∀ q', q.step (.publish p) = some q' → q'.next x = some b := by
  obtain ⟨y, hxy⟩ := h.toNext c x hc
  rcases h.links x y hxy with hy | ⟨-, p, hp⟩
  · exact absurd (hy.symm.trans hn) (Option.some_ne_none y)
  · refine ⟨p, y, hp, fun q' hs => ?_⟩
    simp only [step, hp, Option.some.injEq] at hs
    rw [← hs]
    exact Function.update_self x (some y) q.next

/-- **A linked queue delivers** if no item was lost. -/
theorem delivers_iff (h : q.Linked l) : q.Delivers ↔ ∀ r ∈ q.removed, r.1 ≠ .lost := by
  refine ⟨Delivers.delivered, fun hlost => ?_⟩
  have hprefix : q.removed.map (·.2) <+: q.exchanged.map (·.2) := ⟨_, h.log.symm⟩
  exact {
    ordered := hprefix
    own := h.exchangedBy_isPrefix
    completed := fun p hp => by
      have hown := h.own p
      rw [hp] at hown
      exact (hown.trans (List.append_nil _)).symm
    once := fun hd => (h.nodup_exchanged hd).sublist hprefix.sublist
    delivered := hlost
    waits := fun _ _ => h.waits_for
    size_eq := fun hq => by rw [h.quiet_size hq, h.quiet_left hq]
    empty_iff := fun hq => by
      have hs := h.quiet_size hq
      rw [isEmpty, h.quiet_head hq, Option.isNone_iff_eq_none, List.head?_eq_none_iff,
        ← List.length_eq_zero_iff, ← hs, BitVec.toNat_eq]
      exact Iff.rfl
    drains := fun hq => by
      rw [h.quiet_left hq]
      exact quiet_drains l.length rfl h hq }

end Linked

/-! ### Runs -/

omit [Fintype P] [DecidableEq P] in
theorem consume_lost_iff {c : Caller} {pc : Popping} (hc : q.consumer = .popping c pc)
    (hlost : ∀ r ∈ q.removed, r.1 ≠ .lost) :
    (∀ r ∈ (q.consume c pc).removed, r.1 ≠ .lost) ↔ q.Regular .consume := by
  have hreg : (∀ x, pc ≠ .subtract x) → q.Regular .consume := by
    intro hpc maxCount i x hx
    rw [hc, Consumer.popping.injEq] at hx
    exact absurd hx.2 (hpc x)
  cases pc with
  | loadHead =>
    refine iff_of_true ?_ (hreg (by simp))
    rw [consume]
    split <;> exact hlost
  | exchangeTail x =>
    refine iff_of_true ?_ (hreg (by simp))
    rw [consume]
    split <;> exact hlost
  | exchangeHead x =>
    refine iff_of_true ?_ (hreg (by simp))
    simp only [consume]
    split <;> exact hlost
  | loadNext x =>
    refine iff_of_true ?_ (hreg (by simp))
    rw [consume]
    split <;> exact hlost
  | storeHead x n => exact iff_of_true hlost (hreg (by simp))
  | subtract x =>
    have happ : ∀ r : Outcome, (∀ s ∈ q.removed ++ [(r, x)], s.1 ≠ .lost) ↔ r ≠ .lost := by
      intro r
      simp only [List.mem_append, List.mem_singleton]
      exact ⟨fun h => h (r, x) (.inr rfl), fun h s hs => hs.elim (hlost s) fun e => e ▸ h⟩
    rw [consume]
    cases c with
    | user =>
      refine iff_of_true ((happ .returned).mpr (by decide)) fun maxCount i y hy => ?_
      rw [hc] at hy
      cases hy
    | clear maxCount i =>
      have hiff : q.Regular .consume ↔ i < maxCount := by
        constructor
        · exact fun h => h maxCount i x hc
        · intro hi maxCount' i' y hy
          rw [hc] at hy
          cases hy
          exact hi
      rw [hiff, finish]
      by_cases hi : i < maxCount
      · rw [if_pos hi]
        exact iff_of_true ((happ .dropped).mpr (by decide)) hi
      · rw [if_neg hi]
        exact iff_of_false (fun h => (happ .lost).mp h rfl) hi

theorem regular_of_step_none {a : Act P} (hs : q.step a = none) : q.Regular a := by
  cases a with
  | consume =>
    intro maxCount i x hc
    rw [step, hc] at hs
    cases hs
  | _ => trivial

theorem KeptRun.delivers {as : List (Act P)} (h : q.KeptRun as) :
    q.Delivers := by
  cases as with
  | nil => exact h
  | cons a as => exact h.1

/-- An item is lost in the step that is not regular, and in no other. -/
theorem step_lost_iff {a : Act P} (hs : q.step a = some q')
    (hlost : ∀ r ∈ q.removed, r.1 ≠ .lost) :
    (∀ r ∈ q'.removed, r.1 ≠ .lost) ↔ q.Regular a := by
  cases a with
  | consume =>
    rw [step] at hs
    split at hs
    next c pc hc =>
      cases hs
      exact consume_lost_iff hc hlost
    next => cases hs
  | push p x =>
    rw [step] at hs
    split at hs <;> cases hs
    exact iff_of_true hlost trivial
  | failExchange p =>
    rw [step] at hs
    split at hs <;> cases hs
    exact iff_of_true hlost trivial
  | exchange p =>
    rw [step] at hs
    split at hs
    next =>
      split at hs <;> cases hs
      exact iff_of_true hlost trivial
    next => cases hs
  | publish p =>
    rw [step] at hs
    split at hs <;> cases hs <;> exact iff_of_true hlost trivial
  | callPop =>
    rw [step] at hs
    split at hs <;> cases hs
    exact iff_of_true hlost trivial
  | callClear =>
    rw [step] at hs
    split at hs <;> cases hs
    exact iff_of_true hlost trivial

/-- **A run delivers in all its states if and only if `doClear` never finds an item after it has
dropped `maxCount` of them.** -/
theorem keptRun_iff_of_linked (as : List (Act P)) : ∀ {q : Queue P} {l : List Item},
    q.Linked l → (∀ r ∈ q.removed, r.1 ≠ .lost) → (q.KeptRun as ↔ q.RegularRun as) := by
  induction as with
  | nil => exact fun h hlost => iff_of_true (h.delivers_iff.mpr hlost) trivial
  | cons a as ih =>
    intro q l h hlost
    have hd := h.delivers_iff.mpr hlost
    cases hs : q.step a with
    | none =>
      refine iff_of_true ⟨hd, fun q' hq' => ?_⟩ ⟨?_, fun q' hq' => ?_⟩
      · exact absurd (hs.symm.trans hq') (Option.some_ne_none q').symm
      · exact regular_of_step_none hs
      · exact absurd (hs.symm.trans hq') (Option.some_ne_none q').symm
    | some q₁ =>
      obtain ⟨l₁, h₁⟩ := h.step_linked hs
      have hl := step_lost_iff hs hlost
      constructor
      · rintro ⟨-, hk⟩
        have hk₁ := hk q₁ hs
        have hlost₁ := h₁.delivers_iff.mp (KeptRun.delivers hk₁)
        refine ⟨hl.mp hlost₁, fun q' hq' => ?_⟩
        rw [← Option.some.inj (hs.symm.trans hq')]
        exact (ih h₁ hlost₁).mp hk₁
      · rintro ⟨hr, hk⟩
        refine ⟨hd, fun q' hq' => ?_⟩
        rw [← Option.some.inj (hs.symm.trans hq')]
        exact (ih h₁ (hl.mpr hr)).mpr (hk q₁ hs)

theorem delivers_runs_iff (as : List (Act P)) :
    (start : Queue P).KeptRun as ↔ (start : Queue P).RegularRun as :=
  keptRun_iff_of_linked as Linked.start_linked (by simp [start])

/-! ### A clear that loses an item -/

theorem KeptRun.run_delivers (as : List (Act P)) : ∀ {q : Queue P}, q.KeptRun as →
    q.run as = some q' → q'.Delivers := by
  induction as with
  | nil =>
    intro q h hr
    cases hr
    exact h
  | cons a as ih =>
    intro q h hr
    rw [run, Option.bind_eq_some_iff] at hr
    obtain ⟨q₁, hs, hr⟩ := hr
    exact ih (h.2 q₁ hs) hr

def sampleItem (i : Nat) : Item := ⟨i % (2 ^ 64 - 1), Nat.mod_lt i (by decide)⟩

/-- A producer pushes 17 items after `doClear` has counted none, and the consumer goes on. -/
def sampleActs : List (Act Unit) :=
  [.callClear, .push () (sampleItem 0), .exchange (), .publish ()] ++
    (List.range 16).flatMap (fun i =>
      [.push () (sampleItem (i + 1)), .failExchange (), .exchange (), .publish ()]) ++
    List.replicate 84 .consume

/-- The seventeenth item is taken out, and neither returned nor dropped. -/
theorem clear_loses_item : ¬ (start : Queue Unit).KeptRun sampleActs := by
  intro h
  have hlost : ((start : Queue Unit).run sampleActs).map
      (fun q => decide ((.lost, sampleItem 16) ∈ q.removed)) = some true := by decide +kernel
  obtain ⟨q, hr, hq⟩ := Option.map_eq_some_iff.mp hlost
  exact (h.run_delivers sampleActs hr).delivered _ (of_decide_eq_true hq) rfl

end Queue

end Hatn.Common.Mpsc
