import Hatn.Common.MpscQueue
import Mathlib.Tactic.Common

/-!
# The list of the queue in all interleavings

`Linked` is the invariant.  Of two items of the queue that follow each other the first has the
second as its next one, or a producer is about to set it; the head is the first of all, unless
a producer is about to set it or the consumer to clear it.

* `push_linked`, `failExchange_linked`, `exchange_linked`, `publish_linked` and
  `publishHead_linked` are for the steps of a producer.
* `consumer_linked`, `exchangeTail_linked`, `exchangeHead_linked`, `storeHead_linked` and
  `subtract_linked` are for the steps of the consumer.
* `step_linked` puts them together.
-/

namespace Hatn.Common.Mpsc

open Hatn.Order

/-- The item that the consumer has taken out of the queue. -/
def Consumer.held : Consumer → List Item
  | .popping _ (.exchangeHead x) => [x]
  | .popping _ (.subtract x) => [x]
  | _ => []

/-- What the head is while no item of the queue is set as the head. -/
def Consumer.emptied : Consumer → Option Item
  | .popping _ (.exchangeHead x) => some x
  | _ => none

/-- The item at the head of the queue that the consumer is at. -/
def Consumer.front : Consumer → Option Item
  | .popping _ (.exchangeTail x) => some x
  | .popping _ (.loadNext x) => some x
  | .popping _ (.storeHead x _) => some x
  | _ => none

namespace Queue

variable {P : Type} [Fintype P] [DecidableEq P]

/-- The queue consists of the items of `l`, in this order. -/
structure Linked (q : Queue P) (l : List Item) : Prop where
  log : q.exchanged.map (·.2) = q.removed.map (·.2) ++ (q.consumer.held ++ l)
  own (p : P) : q.called p = q.exchangedBy p ++ (q.pushing p).waiting
  nodup : (q.consumer.held ++ l).Nodup
  apart (p : P) (x : Item) : x ∈ (q.pushing p).waiting →
    x ∉ q.consumer.held ++ l ∧ q.next x = none
  inj (p p' : P) (x : Item) : (q.pushing p).item = some x → (q.pushing p').item = some x → p = p'
  tail_eq : q.tail = l.getLast?
  last (a : Item) : l.getLast? = some a → q.next a = none
  links (a b : Item) : Follows l a b →
    q.next a = some b ∨ q.next a = none ∧ ∃ p, q.pushing p = .publishing b (some a)
  first (p : P) (b : Item) : q.pushing p = .publishing b none →
    l.head? = some b ∧ q.head = q.consumer.emptied
  unlinked (p : P) (a b : Item) : q.pushing p = .publishing b (some a) →
    Follows l a b ∧ q.next a = none
  head_nil : l = [] → q.head = q.consumer.emptied
  head_cons : l ≠ [] → q.head = l.head? ∨ ∃ p b, q.pushing p = .publishing b none
  front (x : Item) : q.consumer.front = some x → q.head = some x ∧ l.head? = some x
  toNext (c : Caller) (x : Item) : q.consumer = .popping c (.loadNext x) → ∃ y, Follows l x y
  toStore (c : Caller) (x n : Item) : q.consumer = .popping c (.storeHead x n) →
    Follows l x n ∧ q.next x = some n
  count : q.size = BitVec.ofNat 64
    (l.length + q.consumer.held.length + ∑ p, (q.pushing p).waiting.length)

namespace Linked

variable {q q' : Queue P} {l : List Item}

theorem start_linked : (start : Queue P).Linked [] := by
  constructor <;> simp [start, Consumer.held, Consumer.emptied, Consumer.front, Pushing.waiting,
    Pushing.item, exchangedBy, Follows]

theorem left_eq (h : q.Linked l) : q.left = q.consumer.held ++ l := by
  have hl : q.removed.length = (q.removed.map (·.2)).length := by simp
  rw [left, h.log, hl, List.drop_left]

theorem nodup_queue (h : q.Linked l) : l.Nodup := (List.nodup_append.mp h.nodup).2.1

/-- The consumer at the front has nothing in its hands. -/
theorem held_of_front {c : Consumer} {x : Item} (h : c.front = some x) :
    c.held = [] ∧ c.emptied = none := by
  match c, h with
  | .popping _ (.exchangeTail _), _ => exact ⟨rfl, rfl⟩
  | .popping _ (.loadNext _), _ => exact ⟨rfl, rfl⟩
  | .popping _ (.storeHead _ _), _ => exact ⟨rfl, rfl⟩

/-- While the consumer is at the front, no producer is about to set the head. -/
theorem not_first (h : q.Linked l) {x : Item} (hx : q.consumer.front = some x) (p : P) (b : Item) :
    q.pushing p ≠ .publishing b none := by
  intro hp
  have hhead := (h.first p b hp).2
  rw [(h.front x hx).1, (held_of_front hx).2] at hhead
  exact absurd hhead (Option.some_ne_none x)

/-! ### Sums over producers -/

theorem sum_update (f : P → Pushing) (p : P) (v : Pushing) :
    ∑ p', (Function.update f p v p').waiting.length + (f p).waiting.length =
      ∑ p', (f p').waiting.length + v.waiting.length := by
  have hu : (fun p' => (Function.update f p v p').waiting.length) =
      Function.update (fun p' => (f p').waiting.length) p v.waiting.length := by
    funext p'
    by_cases hp : p' = p
    · rw [hp, Function.update_self, Function.update_self]
    · rw [Function.update_of_ne hp, Function.update_of_ne hp]
  rw [hu, Finset.sum_update_of_mem (Finset.mem_univ p),
    Finset.sum_eq_add_sum_sdiff_singleton_of_mem (Finset.mem_univ p)
      fun p' => (f p').waiting.length]
  omega

/-! ### The steps of a producer -/

variable {p : P} {x : Item} {e : Option Item}

omit [Fintype P] in
theorem publishing_update_iff {f : P → Pushing} {v : Pushing} (hv : ∀ b e, v ≠ .publishing b e)
    {p' : P} {b : Item} {e : Option Item} :
    Function.update f p v p' = .publishing b e ↔ p' ≠ p ∧ f p' = .publishing b e := by
  by_cases hp : p' = p
  · rw [hp, Function.update_self]
    exact iff_of_false (hv b e) fun h => h.1 rfl
  · rw [Function.update_of_ne hp]
    exact (and_iff_right hp).symm

theorem failExchange_linked (h : q.Linked l) (hp : q.pushing p = .exchanging x e) :
    { q with pushing := Function.update q.pushing p (.exchanging x q.tail) }.Linked l := by
  have hpub : ∀ p' b e', Function.update q.pushing p (.exchanging x q.tail) p' =
      .publishing b e' ↔ q.pushing p' = .publishing b e' := by
    intro p' b e'
    rw [publishing_update_iff (by simp)]
    refine and_iff_right_of_imp fun hb heq => ?_
    rw [heq, hp] at hb
    cases hb
  have hsame : ∀ p', (Function.update q.pushing p (.exchanging x q.tail) p').item =
      (q.pushing p').item ∧ (Function.update q.pushing p (.exchanging x q.tail) p').waiting =
      (q.pushing p').waiting := by
    intro p'
    by_cases heq : p' = p
    · rw [heq, Function.update_self, hp]
      exact ⟨rfl, rfl⟩
    · rw [Function.update_of_ne heq]
      exact ⟨rfl, rfl⟩
  exact {
    log := h.log
    own := fun p' => by
      rw [(hsame p').2]
      exact h.own p'
    nodup := h.nodup
    apart := fun p' y hy => h.apart p' y ((hsame p').2 ▸ hy)
    inj := fun p' p'' y hy hy' =>
      h.inj p' p'' y ((hsame p').1 ▸ hy) ((hsame p'').1 ▸ hy')
    tail_eq := h.tail_eq
    last := h.last
    links := fun a b hab => by
      simp only [hpub]
      exact h.links a b hab
    first := fun p' b hb => h.first p' b ((hpub p' b none).mp hb)
    unlinked := fun p' a b hb => h.unlinked p' a b ((hpub p' b (some a)).mp hb)
    head_nil := h.head_nil
    head_cons := fun hl => by
      simp only [hpub]
      exact h.head_cons hl
    front := h.front
    toNext := h.toNext
    toStore := h.toStore
    count := by
      simp only [(hsame _).2]
      exact h.count }

/-- The list goes on as it was when an item that is in no queue gets no next one. -/
theorem push_linked (h : q.Linked l) (hp : q.pushing p = .idle) (hx : x ∉ q.left)
    (hfree : ∀ p', (q.pushing p').item ≠ some x) :
    { q with
      next := Function.update q.next x none
      size := q.size + 1
      pushing := Function.update q.pushing p (.exchanging x none)
      called := Function.update q.called p (q.called p ++ [x]) }.Linked l := by
  rw [h.left_eq] at hx
  have hxl : x ∉ l := fun hl => hx (List.mem_append_right _ hl)
  have hpub : ∀ p' b e', Function.update q.pushing p (.exchanging x none) p' =
      .publishing b e' ↔ q.pushing p' = .publishing b e' := by
    intro p' b e'
    rw [publishing_update_iff (by simp)]
    refine and_iff_right_of_imp fun hb heq => ?_
    rw [heq, hp] at hb
    cases hb
  have hnext : ∀ a ∈ l, Function.update q.next x none a = q.next a := by
    intro a ha
    have hax : a ≠ x := fun he => hxl (he ▸ ha)
    exact Function.update_of_ne hax none q.next
  exact {
    log := h.log
    own := fun p' => by
      by_cases heq : p' = p
      · subst heq
        have hown := h.own p'
        rw [hp] at hown
        simp only [Function.update_self]
        rw [hown]
        simp [Pushing.waiting, exchangedBy]
      · simp only [Function.update_of_ne heq]
        exact h.own p'
    nodup := h.nodup
    apart := fun p' y hy => by
      by_cases heq : p' = p
      · simp only [heq, Function.update_self, Pushing.waiting, List.mem_singleton] at hy
        subst hy
        exact ⟨hx, Function.update_self y none q.next⟩
      · simp only [Function.update_of_ne heq] at hy
        obtain ⟨hyl, hyn⟩ := h.apart p' y hy
        refine ⟨hyl, ?_⟩
        by_cases hyx : y = x
        · rw [hyx]
          exact Function.update_self x none q.next
        · exact (Function.update_of_ne hyx none q.next).trans hyn
    inj := fun p' p'' y hy hy' => by
      by_cases heq : p' = p <;> by_cases heq' : p'' = p
      · rw [heq, heq']
      · simp only [heq, Function.update_self, Pushing.item, Option.some.injEq] at hy
        simp only [Function.update_of_ne heq'] at hy'
        exact absurd hy' (hy ▸ hfree p'')
      · simp only [heq', Function.update_self, Pushing.item, Option.some.injEq] at hy'
        simp only [Function.update_of_ne heq] at hy
        exact absurd hy (hy' ▸ hfree p')
      · simp only [Function.update_of_ne heq] at hy
        simp only [Function.update_of_ne heq'] at hy'
        exact h.inj p' p'' y hy hy'
    tail_eq := h.tail_eq
    last := fun a ha => (hnext a (List.mem_of_getLast? ha)).trans (h.last a ha)
    links := fun a b hab => by
      simp only [hpub, hnext a hab.mem_left]
      exact h.links a b hab
    first := fun p' b hb => h.first p' b ((hpub p' b none).mp hb)
    unlinked := fun p' a b hb => by
      obtain ⟨hab, hn⟩ := h.unlinked p' a b ((hpub p' b (some a)).mp hb)
      exact ⟨hab, (hnext a hab.mem_left).trans hn⟩
    head_nil := h.head_nil
    head_cons := fun hl => by
      simp only [hpub]
      exact h.head_cons hl
    front := h.front
    toNext := h.toNext
    toStore := fun c y n hc => by
      obtain ⟨hab, hn⟩ := h.toStore c y n hc
      exact ⟨hab, (hnext y hab.mem_left).trans hn⟩
    count := by
      have hs := sum_update q.pushing p (.exchanging x none)
      rw [hp] at hs
      simp only [h.count]
      rw [show ∑ p', (Function.update q.pushing p (.exchanging x none) p').waiting.length =
        ∑ p', (q.pushing p').waiting.length + 1 from hs, ← add_assoc, BitVec.ofNat_add _ 1]
      rfl }

/-- The item goes to the end of the list.  The producer is to link it to the tail that it
replaced, or to set it as the head when there was none. -/
theorem exchange_linked (h : q.Linked l) (hp : q.pushing p = .exchanging x e) (he : q.tail = e) :
    { q with
      tail := some x
      pushing := Function.update q.pushing p (.publishing x e)
      exchanged := q.exchanged ++ [(p, x)] }.Linked (l ++ [x]) := by
  have hwait : x ∈ (q.pushing p).waiting := by
    rw [hp]
    exact List.mem_singleton_self x
  obtain ⟨hx, hxn⟩ := h.apart p x hwait
  have hel : e = l.getLast? := he.symm.trans h.tail_eq
  have hhead : ∀ y, l.head? = some y → (l ++ [x]).head? = some y := by
    intro y hy
    rw [List.head?_append, hy, Option.some_or]
  have hpub : ∀ p' b e', q.pushing p' = .publishing b e' →
      Function.update q.pushing p (.publishing x e) p' = .publishing b e' := by
    intro p' b e' hb
    have hne : p' ≠ p := by
      rintro rfl
      rw [hp] at hb
      cases hb
    rwa [Function.update_of_ne hne]
  have hback : ∀ p' b e', Function.update q.pushing p (.publishing x e) p' = .publishing b e' →
      p' = p ∧ b = x ∧ e' = e ∨ q.pushing p' = .publishing b e' := by
    intro p' b e' hb
    by_cases heq : p' = p
    · rw [heq, Function.update_self, Pushing.publishing.injEq] at hb
      exact .inl ⟨heq, hb.1.symm, hb.2.symm⟩
    · rw [Function.update_of_ne heq] at hb
      exact .inr hb
  have hitem : ∀ p', (Function.update q.pushing p (.publishing x e) p').item =
      (q.pushing p').item := by
    intro p'
    by_cases heq : p' = p
    · rw [heq, Function.update_self, hp]
      rfl
    · rw [Function.update_of_ne heq]
  exact {
    log := by
      simp only [List.map_append, h.log, List.map_cons, List.map_nil, List.append_assoc]
    own := fun p' => by
      by_cases heq : p' = p
      · subst heq
        have hown := h.own p'
        rw [hp] at hown
        simp only [Function.update_self]
        rw [hown]
        simp [Pushing.waiting, exchangedBy, List.filter_append]
      · simp only [Function.update_of_ne heq]
        rw [h.own p']
        simp [exchangedBy, List.filter_append, Ne.symm heq]
    nodup := by
      rw [← List.append_assoc, ← List.concat_eq_append]
      exact h.nodup.concat hx
    apart := fun p' y hy => by
      have hne : p' ≠ p := by
        rintro rfl
        simp only [Function.update_self] at hy
        exact absurd hy List.not_mem_nil
      simp only [Function.update_of_ne hne] at hy
      obtain ⟨hyl, hyn⟩ := h.apart p' y hy
      refine ⟨?_, hyn⟩
      rw [← List.append_assoc, List.mem_append, List.mem_singleton]
      rintro (hyl' | rfl)
      · exact hyl hyl'
      · refine hne (h.inj p' p y ?_ (by rw [hp]; rfl))
        cases hq : q.pushing p' with
        | idle => rw [hq] at hy; exact absurd hy List.not_mem_nil
        | publishing z t => rw [hq] at hy; exact absurd hy List.not_mem_nil
        | exchanging z t =>
          rw [hq] at hy
          rw [List.mem_singleton.mp hy]
          rfl
    inj := fun p' p'' y hy hy' => h.inj p' p'' y (hitem p' ▸ hy) (hitem p'' ▸ hy')
    tail_eq := by rw [List.getLast?_concat]
    last := fun a ha => by
      rw [List.getLast?_concat, Option.some.injEq] at ha
      exact ha ▸ hxn
    links := fun a b hab => by
      rcases follows_concat.mp hab with hab | ⟨hla, rfl⟩
      · refine (h.links a b hab).imp_right fun ⟨hn, p', hb⟩ => ⟨hn, p', hpub p' b _ hb⟩
      · refine .inr ⟨h.last a hla, p, ?_⟩
        rw [hel, hla]
        exact Function.update_self p _ q.pushing
    first := fun p' b hb => by
      rcases hback p' b none hb with ⟨rfl, rfl, hn⟩ | hb
      · have hl : l = [] := List.getLast?_eq_none_iff.mp (hel.symm.trans hn.symm)
        subst hl
        exact ⟨rfl, h.head_nil rfl⟩
      · exact ⟨hhead b (h.first p' b hb).1, (h.first p' b hb).2⟩
    unlinked := fun p' a b hb => by
      rcases hback p' b (some a) hb with ⟨rfl, rfl, hn⟩ | hb
      · have hla : l.getLast? = some a := hel.symm.trans hn.symm
        exact ⟨follows_concat.mpr (.inr ⟨hla, rfl⟩), h.last a hla⟩
      · exact ⟨follows_concat.mpr (.inl (h.unlinked p' a b hb).1), (h.unlinked p' a b hb).2⟩
    head_nil := fun hl => absurd hl (by simp)
    head_cons := fun _ => by
      cases l with
      | nil =>
        refine .inr ⟨p, x, ?_⟩
        rw [show e = none from hel]
        exact Function.update_self p _ q.pushing
      | cons y l =>
        rcases h.head_cons (List.cons_ne_nil y l) with hy | ⟨p', b, hb⟩
        · exact .inl hy
        · exact .inr ⟨p', b, hpub p' b none hb⟩
    front := fun y hy => ⟨(h.front y hy).1, hhead y (h.front y hy).2⟩
    toNext := fun c y hc => (h.toNext c y hc).imp fun _ hz => follows_concat.mpr (.inl hz)
    toStore := fun c y n hc =>
      ⟨follows_concat.mpr (.inl (h.toStore c y n hc).1), (h.toStore c y n hc).2⟩
    count := by
      have hs := sum_update q.pushing p (.publishing x e)
      rw [hp] at hs
      simp only [h.count]
      rw [← show ∑ p', (Function.update q.pushing p (.publishing x e) p').waiting.length + 1 =
        ∑ p', (q.pushing p').waiting.length from hs, List.length_append, List.length_singleton]
      congr 1
      omega }

omit [Fintype P] in
/-- The end of a push takes nothing from what waits. -/
theorem waiting_idle {f : P → Pushing} (hp : f p = .publishing x e) (p' : P) :
    (Function.update f p .idle p').waiting = (f p').waiting := by
  by_cases heq : p' = p
  · rw [heq, Function.update_self, hp]
    rfl
  · rw [Function.update_of_ne heq]

omit [Fintype P] in
theorem item_idle {f : P → Pushing} {p' : P} (h : (Function.update f p .idle p').item = some x) :
    (f p').item = some x := by
  have hne : p' ≠ p := by
    rintro rfl
    rw [Function.update_self] at h
    cases h
  rwa [Function.update_of_ne hne] at h

/-- The item is linked to the one before it. -/
theorem publish_linked {t : Item} (h : q.Linked l) (hp : q.pushing p = .publishing x (some t)) :
    { q with
      next := Function.update q.next t (some x)
      pushing := Function.update q.pushing p .idle }.Linked l := by
  obtain ⟨htx, htn⟩ := h.unlinked p t x hp
  have hn := h.nodup_queue
  have hpub : ∀ p' b e', Function.update q.pushing p .idle p' = .publishing b e' ↔
      p' ≠ p ∧ q.pushing p' = .publishing b e' := fun _ _ _ => publishing_update_iff (by simp)
  have hnext : ∀ a, a ≠ t → Function.update q.next t (some x) a = q.next a :=
    fun a ha => Function.update_of_ne ha (some x) q.next
  -- no other producer has this tail, as only one item follows it
  have hother : ∀ p' a b, p' ≠ p → q.pushing p' = .publishing b (some a) → a ≠ t := by
    rintro p' a b hne hb rfl
    have hbx := (h.unlinked p' a b hb).1.unique hn htx
    refine hne (h.inj p' p x ?_ (by rw [hp]; rfl))
    rw [hb, hbx]
    rfl
  exact {
    log := h.log
    own := fun p' => by
      rw [waiting_idle hp]
      exact h.own p'
    nodup := h.nodup
    apart := fun p' y hy => by
      rw [waiting_idle hp] at hy
      obtain ⟨hyl, hyn⟩ := h.apart p' y hy
      refine ⟨hyl, (hnext y ?_).trans hyn⟩
      rintro rfl
      exact hyl (List.mem_append_right _ htx.mem_left)
    inj := fun p' p'' y hy hy' => h.inj p' p'' y (item_idle hy) (item_idle hy')
    tail_eq := h.tail_eq
    last := fun a ha => by
      have hat : a ≠ t := fun he => htx.ne_last hn (he ▸ ha)
      exact (hnext a hat).trans (h.last a ha)
    links := fun a b hab => by
      by_cases hat : a = t
      · subst hat
        rw [hab.unique hn htx]
        exact .inl (Function.update_self a _ q.next)
      · simp only [hnext a hat, hpub]
        refine (h.links a b hab).imp_right fun ⟨hna, p', hb⟩ => ⟨hna, p', ?_, hb⟩
        rintro rfl
        rw [hp, Pushing.publishing.injEq, Option.some.injEq] at hb
        exact hat hb.2.symm
    first := fun p' b hb => h.first p' b ((hpub p' b none).mp hb).2
    unlinked := fun p' a b hb => by
      obtain ⟨hne, hb⟩ := (hpub p' b (some a)).mp hb
      exact ⟨(h.unlinked p' a b hb).1,
        (hnext a (hother p' a b hne hb)).trans (h.unlinked p' a b hb).2⟩
    head_nil := h.head_nil
    head_cons := fun hl => by
      simp only [hpub]
      refine (h.head_cons hl).imp_right fun ⟨p', b, hb⟩ => ⟨p', b, ?_, hb⟩
      rintro rfl
      rw [hp] at hb
      cases hb
    front := h.front
    toNext := h.toNext
    toStore := fun c y n hc => by
      obtain ⟨hyn, hy⟩ := h.toStore c y n hc
      have hyt : y ≠ t := by
        rintro rfl
        rw [htn] at hy
        cases hy
      exact ⟨hyn, (hnext y hyt).trans hy⟩
    count := by
      simp only [waiting_idle hp]
      exact h.count }

/-- The item is set as the head. -/
theorem publishHead_linked (h : q.Linked l) (hp : q.pushing p = .publishing x none) :
    { q with head := some x, pushing := Function.update q.pushing p .idle }.Linked l := by
  obtain ⟨hxl, hhead⟩ := h.first p x hp
  have hpub : ∀ p' b e', Function.update q.pushing p .idle p' = .publishing b e' ↔
      p' ≠ p ∧ q.pushing p' = .publishing b e' := fun _ _ _ => publishing_update_iff (by simp)
  exact {
    log := h.log
    own := fun p' => by
      rw [waiting_idle hp]
      exact h.own p'
    nodup := h.nodup
    apart := fun p' y hy => by
      rw [waiting_idle hp] at hy
      exact h.apart p' y hy
    inj := fun p' p'' y hy hy' => h.inj p' p'' y (item_idle hy) (item_idle hy')
    tail_eq := h.tail_eq
    last := h.last
    links := fun a b hab => by
      simp only [hpub]
      refine (h.links a b hab).imp_right fun ⟨hna, p', hb⟩ => ⟨hna, p', ?_, hb⟩
      rintro rfl
      rw [hp] at hb
      cases hb
    first := fun p' b hb => by
      obtain ⟨hne, hb⟩ := (hpub p' b none).mp hb
      have hbx := Option.some.inj ((h.first p' b hb).1.symm.trans hxl)
      refine absurd (h.inj p' p x ?_ (by rw [hp]; rfl)) hne
      rw [hb, hbx]
      rfl
    unlinked := fun p' a b hb => h.unlinked p' a b ((hpub p' b (some a)).mp hb).2
    head_nil := fun hl => by
      rw [hl] at hxl
      cases hxl
    head_cons := fun _ => .inl hxl.symm
    front := fun y hy => absurd hp (h.not_first hy p x)
    toNext := h.toNext
    toStore := h.toStore
    count := by
      simp only [waiting_idle hp]
      exact h.count }

/-! ### The steps of the consumer -/

variable {c : Caller}

/-- The consumer goes on with the same in its hands. -/
theorem consumer_linked (h : q.Linked l) (s : Consumer) (hheld : s.held = q.consumer.held)
    (hemptied : s.emptied = q.consumer.emptied)
    (front : ∀ x, s.front = some x → q.head = some x ∧ l.head? = some x)
    (toNext : ∀ c x, s = .popping c (.loadNext x) → ∃ y, Follows l x y)
    (toStore : ∀ c x n, s = .popping c (.storeHead x n) → Follows l x n ∧ q.next x = some n) :
    { q with consumer := s }.Linked l where
  log := by
    simp only [hheld]
    exact h.log
  own := h.own
  nodup := by
    simp only [hheld]
    exact h.nodup
  apart p x hx := by
    simp only [hheld]
    exact h.apart p x hx
  inj := h.inj
  tail_eq := h.tail_eq
  last := h.last
  links := h.links
  first p b hb := by
    simp only [hemptied]
    exact h.first p b hb
  unlinked := h.unlinked
  head_nil hl := by
    simp only [hemptied]
    exact h.head_nil hl
  head_cons := h.head_cons
  front := front
  toNext := toNext
  toStore := toStore
  count := by
    simp only [hheld]
    exact h.count

/-- What `popItem` loads is the first item of the list. -/
theorem head?_of_loadHead (h : q.Linked l) (hc : q.consumer = .popping c .loadHead)
    (hx : q.head = some x) : l.head? = some x := by
  have hne : q.head ≠ q.consumer.emptied := by
    rw [hx, hc]
    exact Option.some_ne_none x
  have hl : l ≠ [] := fun hl => hne (h.head_nil hl)
  rcases h.head_cons hl with hh | ⟨p, b, hb⟩
  · exact hh ▸ hx
  · exact absurd (h.first p b hb).2 hne

/-- The consumer takes the last item out. -/
theorem exchangeTail_linked (h : q.Linked l) (hc : q.consumer = .popping c (.exchangeTail x))
    (ht : q.tail = some x) :
    { q with tail := none, consumer := .popping c (.exchangeHead x) }.Linked [] := by
  have hfront : q.consumer.front = some x := by
    rw [hc]
    rfl
  have hl : l = [x] := eq_singleton_of_ends h.nodup_queue (h.front x hfront).2
    (h.tail_eq.symm.trans ht)
  subst hl
  have hheld : q.consumer.held = [] := (held_of_front hfront).1
  have hpub : ∀ p b e, q.pushing p ≠ .publishing b e := by
    intro p b e hb
    cases e with
    | none => exact h.not_first hfront p b hb
    | some a =>
      rcases (h.unlinked p a b hb).1 with ⟨-, hn⟩ | hn
      · cases hn
      · exact hn
  have hlog := h.log
  have hcount := h.count
  rw [hheld] at hlog hcount
  exact {
    log := hlog
    own := h.own
    nodup := List.nodup_singleton x
    apart := fun p y hy => by
      have hy' := h.apart p y hy
      rw [hheld] at hy'
      exact hy'
    inj := h.inj
    tail_eq := rfl
    last := fun a ha => by cases ha
    links := fun a b hab => hab.elim
    first := fun p b hb => absurd hb (hpub p b none)
    unlinked := fun p a b hb => absurd hb (hpub p b (some a))
    head_nil := fun _ => (h.front x hfront).1
    head_cons := fun hl => absurd rfl hl
    front := fun y hy => by cases hy
    toNext := fun c' y hy => by cases hy
    toStore := fun c' y n hy => by cases hy
    count := hcount }

/-- The consumer clears the head, unless a producer has set it. -/
theorem exchangeHead_linked (h : q.Linked l) (hc : q.consumer = .popping c (.exchangeHead x)) :
    { q with
      head := if q.head = some x then none else q.head
      consumer := .popping c (.subtract x) }.Linked l := by
  have hheld : q.consumer.held = [x] := by
    rw [hc]
    rfl
  have hemptied : q.consumer.emptied = some x := by
    rw [hc]
    rfl
  have hx : l.head? ≠ some x := by
    intro hl
    have hn := h.nodup
    rw [hheld] at hn
    exact (List.nodup_cons.mp hn).1 (List.mem_of_mem_head? hl)
  have hlog := h.log
  have hcount := h.count
  have hnodup := h.nodup
  rw [hheld] at hlog hcount hnodup
  exact {
    log := hlog
    own := h.own
    nodup := hnodup
    apart := fun p y hy => by
      have hy' := h.apart p y hy
      rw [hheld] at hy'
      exact hy'
    inj := h.inj
    tail_eq := h.tail_eq
    last := h.last
    links := h.links
    first := fun p b hb => by
      obtain ⟨hl, hhead⟩ := h.first p b hb
      exact ⟨hl, if_pos (hhead.trans hemptied)⟩
    unlinked := h.unlinked
    head_nil := fun hl => if_pos ((h.head_nil hl).trans hemptied)
    head_cons := fun hl => by
      rcases h.head_cons hl with hh | hb
      · exact .inl ((if_neg (fun he => hx (hh.symm.trans he))).trans hh)
      · exact .inr hb
    front := fun y hy => by cases hy
    toNext := fun c' y hy => by cases hy
    toStore := fun c' y n hy => by cases hy
    count := hcount }

/-- The consumer takes the first item out, and sets the next one as the head. -/
theorem storeHead_linked {n : Item} (h : q.Linked l)
    (hc : q.consumer = .popping c (.storeHead x n)) :
    ∃ l', { q with head := some n, consumer := .popping c (.subtract x) }.Linked l' := by
  have hfront : q.consumer.front = some x := by
    rw [hc]
    rfl
  have hheld : q.consumer.held = [] := (held_of_front hfront).1
  obtain ⟨hxn, hnext⟩ := h.toStore c x n hc
  obtain ⟨l', rfl⟩ : ∃ l', l = x :: l' := by
    match l, (h.front x hfront).2 with
    | y :: l', hy => exact ⟨l', by rw [Option.some.inj hy]⟩
  have hx := (List.nodup_cons.mp h.nodup_queue).1
  have hhead : l'.head? = some n := by
    rcases hxn with ⟨-, hn⟩ | hn
    · exact hn
    · exact absurd hn.mem_left hx
  have hlast : l'.getLast? = (x :: l').getLast? := by
    match l', hhead with
    | y :: l', _ => rw [List.getLast?_cons_cons]
  have hlog := h.log
  have hcount := h.count
  have hnodup := h.nodup
  rw [hheld] at hlog hcount hnodup
  exact ⟨l', {
    log := hlog
    own := h.own
    nodup := hnodup
    apart := fun p y hy => by
      have hy' := h.apart p y hy
      rw [hheld] at hy'
      exact hy'
    inj := h.inj
    tail_eq := h.tail_eq.trans hlast.symm
    last := fun a ha => h.last a (hlast ▸ ha)
    links := fun a b hab => h.links a b (.inr hab)
    first := fun p b hb => absurd hb (h.not_first hfront p b)
    unlinked := fun p a b hb => by
      obtain ⟨⟨hax, -⟩ | hab, hn⟩ := h.unlinked p a b hb
      · rw [hax, hnext] at hn
        cases hn
      · exact ⟨hab, hn⟩
    head_nil := fun hl => by
      rw [hl] at hhead
      cases hhead
    head_cons := fun _ => .inl hhead.symm
    front := fun y hy => by cases hy
    toNext := fun c' y hy => by cases hy
    toStore := fun c' y n hy => by cases hy
    count := by
      simp only [hcount]
      congr 1 }⟩

/-- The consumer gives the item out. -/
theorem subtract_linked (h : q.Linked l) (hc : q.consumer = .popping c (.subtract x))
    (r : Outcome) (s : Consumer) (hs : s = .idle ∨ ∃ c, s = .popping c .loadHead) :
    { q with
      size := q.size - 1
      consumer := s
      removed := q.removed ++ [(r, x)] }.Linked l := by
  have hheld : q.consumer.held = [x] := by
    rw [hc]
    rfl
  have hemptied : q.consumer.emptied = none := by
    rw [hc]
    rfl
  have hs' : s.held = [] ∧ s.emptied = none ∧ s.front = none := by
    rcases hs with rfl | ⟨c, rfl⟩ <;> exact ⟨rfl, rfl, rfl⟩
  exact {
    log := by
      simp only [h.log, hheld, hs'.1, List.map_append, List.map_cons, List.map_nil,
        List.append_assoc, List.nil_append]
    own := h.own
    nodup := by
      simp only [hs'.1]
      exact h.nodup_queue
    apart := fun p y hy => by
      simp only [hs'.1]
      obtain ⟨hyl, hyn⟩ := h.apart p y hy
      exact ⟨fun hl => hyl (List.mem_append_right _ hl), hyn⟩
    inj := h.inj
    tail_eq := h.tail_eq
    last := h.last
    links := h.links
    first := fun p b hb => by
      simp only [hs'.2.1]
      obtain ⟨hl, hhead⟩ := h.first p b hb
      exact ⟨hl, hhead.trans hemptied⟩
    unlinked := h.unlinked
    head_nil := fun hl => by
      simp only [hs'.2.1]
      exact (h.head_nil hl).trans hemptied
    head_cons := h.head_cons
    front := fun y hy => by
      simp only [hs'.2.2] at hy
      cases hy
    toNext := fun c' y hy => by
      rcases hs with hs | ⟨c, hs⟩ <;> exact absurd (hs.symm.trans hy) (by simp)
    toStore := fun c' y n hy => by
      rcases hs with hs | ⟨c, hs⟩ <;> exact absurd (hs.symm.trans hy) (by simp)
    count := by
      have hcount := h.count
      rw [hheld] at hcount
      simp only [hcount, hs'.1, List.length_nil, List.length_singleton, Nat.add_zero]
      rw [show l.length + 1 + ∑ p, (q.pushing p).waiting.length =
        l.length + ∑ p, (q.pushing p).waiting.length + 1 by omega, BitVec.ofNat_add _ 1]
      exact BitVec.add_sub_cancel _ _ }

/-! ### All steps -/

theorem popping_linked (h : q.Linked l) {pc : Popping} (hc : q.consumer = .popping c pc) :
    ∃ l', (q.consume c pc).Linked l' := by
  cases pc with
  | loadHead =>
    cases hx : q.head with
    | none =>
      have hq : q.consume c .loadHead = { q with consumer := .idle } := by rw [consume, hx]
      rw [hq]
      exact ⟨l, h.consumer_linked .idle (by rw [hc]; rfl) (by rw [hc]; rfl)
        (fun y hy => by cases hy) (fun c' y hy => by cases hy) fun c' y n hy => by cases hy⟩
    | some x =>
      have hq : q.consume c .loadHead = { q with consumer := .popping c (.exchangeTail x) } := by
        rw [consume, hx]
      rw [hq]
      refine ⟨l, h.consumer_linked _ (by rw [hc]; rfl) (by rw [hc]; rfl) (fun y hy => ?_)
        (fun c' y hy => by cases hy) fun c' y n hy => by cases hy⟩
      cases hy
      exact ⟨hx, h.head?_of_loadHead hc hx⟩
  | exchangeTail x =>
    have hfront : q.consumer.front = some x := by
      rw [hc]
      rfl
    by_cases ht : q.tail = some x
    · rw [consume, if_pos ht]
      exact ⟨[], h.exchangeTail_linked hc ht⟩
    · rw [consume, if_neg ht]
      refine ⟨l, h.consumer_linked _ (by rw [hc]; rfl) (by rw [hc]; rfl) (fun y hy => ?_)
        (fun c' y hy => ?_) fun c' y n hy => by cases hy⟩
      · cases hy
        exact h.front x hfront
      · cases hy
        exact follows_head (h.front x hfront).2 (fun hl => ht (h.tail_eq.trans hl))
  | exchangeHead x =>
    refine ⟨l, ?_⟩
    have hl := h.exchangeHead_linked hc
    simp only [consume]
    by_cases hx : q.head = some x
    · rw [if_pos hx] at hl ⊢
      exact hl
    · rw [if_neg hx] at hl ⊢
      exact hl
  | loadNext x =>
    have hfront : q.consumer.front = some x := by
      rw [hc]
      rfl
    cases hn : q.next x with
    | none =>
      simp only [consume, hn]
      exact ⟨l, h⟩
    | some n =>
      simp only [consume, hn]
      refine ⟨l, h.consumer_linked _ (by rw [hc]; rfl) (by rw [hc]; rfl) (fun y hy => ?_)
        (fun c' y hy => by cases hy) fun c' y m hy => ?_⟩
      · cases hy
        exact h.front x hfront
      · cases hy
        obtain ⟨y, hxy⟩ := h.toNext c x hc
        rcases h.links x y hxy with hy | ⟨hy, -⟩
        · exact ⟨Option.some.inj (hy.symm.trans hn) ▸ hxy, hn⟩
        · exact absurd (hy.symm.trans hn) (Option.some_ne_none n).symm
  | storeHead x n => exact h.storeHead_linked hc
  | subtract x =>
    rw [consume]
    cases c with
    | user => exact ⟨l, h.subtract_linked hc .returned .idle (.inl rfl)⟩
    | clear maxCount i =>
      rw [finish]
      by_cases hi : i < maxCount
      · rw [if_pos hi]
        exact ⟨l, h.subtract_linked hc .dropped _ (.inr ⟨_, rfl⟩)⟩
      · rw [if_neg hi]
        exact ⟨l, h.subtract_linked hc .lost .idle (.inl rfl)⟩

theorem call_linked (h : q.Linked l) (hc : q.consumer = .idle) (c : Caller) :
    { q with consumer := .popping c .loadHead }.Linked l :=
  h.consumer_linked _ (by rw [hc]; rfl) (by rw [hc]; rfl) (fun y hy => by cases hy)
    (fun c' y hy => by cases hy) fun c' y n hy => by cases hy

/-- **Every step leaves a list that is linked.** -/
theorem step_linked (h : q.Linked l) {a : Act P} (hs : q.step a = some q') :
    ∃ l', q'.Linked l' := by
  cases a with
  | push p x =>
    rw [step] at hs
    split at hs
    next hg =>
      cases hs
      exact ⟨l, h.push_linked hg.1 hg.2.1 hg.2.2⟩
    next => cases hs
  | failExchange p =>
    rw [step] at hs
    split at hs
    next x e hp =>
      cases hs
      exact ⟨l, h.failExchange_linked hp⟩
    next => cases hs
  | exchange p =>
    rw [step] at hs
    split at hs
    next x e hp =>
      split at hs
      next he =>
        cases hs
        exact ⟨_, h.exchange_linked hp he⟩
      next => cases hs
    next => cases hs
  | publish p =>
    rw [step] at hs
    split at hs
    next x t hp =>
      cases hs
      exact ⟨l, h.publish_linked hp⟩
    next x hp =>
      cases hs
      exact ⟨l, h.publishHead_linked hp⟩
    next => cases hs
  | callPop =>
    rw [step] at hs
    split at hs
    next hc =>
      cases hs
      exact ⟨l, h.call_linked hc .user⟩
    next => cases hs
  | callClear =>
    rw [step] at hs
    split at hs
    next hc =>
      cases hs
      exact ⟨l, h.call_linked hc _⟩
    next => cases hs
  | consume =>
    rw [step] at hs
    split at hs
    next c pc hc =>
      cases hs
      exact h.popping_linked hc
    next => cases hs

end Linked

end Queue

end Hatn.Common.Mpsc
