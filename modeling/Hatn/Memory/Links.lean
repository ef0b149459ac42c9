import Mathlib.Data.List.Nodup
import Mathlib.Logic.Function.Basic

/-!
# Lists linked by pointers

A head, and for each node the one behind it.  `Linked k prev l` says that the nodes behind `prev`
are those of `l` and no others; the nodes behind `none` are those behind the head.  Setting one
link adds a node at the end (`Linked.concat`) or takes a node out (`Linked.unlink`).
-/

namespace Hatn.Memory

/-- A head and the links of nodes. -/
structure Links (α : Type) where
  head : Option α
  next : α → Option α

namespace Links

variable {α : Type} {k k' : Links α} {prev p : Option α} {a b : α} {l front back : List α}

/-- What is behind a node, or behind none. -/
def link (k : Links α) : Option α → Option α
  | none => k.head
  | some a => k.next a

/-- The nodes behind one, `n` of them at most. -/
def walk (k : Links α) : Nat → Option α → List α
  | 0, _ => []
  | n + 1, prev =>
    match k.link prev with
    | none => []
    | some a => a :: k.walk n (some a)

/-- The last one of some nodes behind `prev`. -/
def lastOf (prev : Option α) : List α → Option α
  | [] => prev
  | a :: l => lastOf (some a) l

/-- The nodes behind `prev` are those of the list. -/
def Linked (k : Links α) : Option α → List α → Prop
  | prev, [] => k.link prev = none
  | prev, a :: l => k.link prev = some a ∧ Linked k (some a) l

theorem Linked.walk_eq : ∀ {l : List α} {prev : Option α} {n : Nat}, Linked k prev l →
    l.length < n → k.walk n prev = l := by
  intro l
  induction l with
  | nil =>
    intro prev n h hn
    obtain ⟨n, rfl⟩ := Nat.exists_eq_succ_of_ne_zero (Nat.ne_of_gt hn)
    rw [walk, show k.link prev = none from h]
  | cons a l ih =>
    intro prev n h hn
    obtain ⟨n, rfl⟩ := Nat.exists_eq_succ_of_ne_zero (Nat.ne_of_gt (Nat.zero_lt_of_lt hn))
    rw [walk, h.1]
    exact congrArg (a :: ·) (ih h.2 (Nat.lt_of_succ_lt_succ hn))

/-- Only the links of the nodes matter. -/
theorem Linked.congr : ∀ {l : List α} {prev : Option α}, Linked k prev l →
    k'.link prev = k.link prev → (∀ a ∈ l, k'.next a = k.next a) → Linked k' prev l := by
  intro l
  induction l with
  | nil => exact fun h hprev _ => hprev.trans h
  | cons a l ih =>
    intro prev h hprev hl
    obtain ⟨ha, hl⟩ := List.forall_mem_cons.mp hl
    exact ⟨hprev.trans h.1, ih h.2 ha hl⟩

theorem lastOf_append_cons (prev : Option α) (front : List α) (a : α) (l : List α) :
    lastOf prev (front ++ a :: l) = lastOf (some a) l := by
  induction front generalizing prev with
  | nil => rfl
  | cons b front ih => exact ih (some b)

theorem lastOf_mem : ∀ (l : List α) (prev : Option α), lastOf prev l = prev ∨
    ∃ a ∈ l, lastOf prev l = some a := by
  intro l
  induction l with
  | nil => exact fun _ => .inl rfl
  | cons a l ih =>
    intro prev
    right
    rcases ih (some a) with h | ⟨b, hb, h⟩
    · exact ⟨a, List.mem_cons_self, h⟩
    · exact ⟨b, List.mem_cons_of_mem a hb, h⟩

theorem some_ne_lastOf (ha : a ∉ l) : some a ≠ lastOf none l := by
  rcases lastOf_mem l none with heq | ⟨b, hb, heq⟩
  · rw [heq]
    exact Option.some_ne_none a
  · rw [heq]
    rintro ⟨⟩
    exact ha hb

theorem linked_append : ∀ {front l : List α} {prev : Option α},
    Linked k prev (front ++ l) → Linked k (lastOf prev front) l := by
  intro front
  induction front with
  | nil => exact fun h => h
  | cons a front ih => exact fun h => ih h.2

section
variable [DecidableEq α]

/-- Another node, or none, is behind the one. -/
def setLink (k : Links α) (prev p : Option α) : Links α :=
  match prev with
  | none => { k with head := p }
  | some a => { k with next := Function.update k.next a p }

@[simp] theorem link_setLink (k : Links α) (prev p : Option α) :
    (k.setLink prev p).link prev = p := by
  cases prev with
  | none => rfl
  | some a => exact Function.update_self a p k.next

theorem link_setLink_of_ne {prev' : Option α} (h : prev' ≠ prev) :
    (k.setLink prev p).link prev' = k.link prev' := by
  cases prev with
  | none =>
    cases prev' with
    | none => exact absurd rfl h
    | some b => rfl
  | some a =>
    cases prev' with
    | none => rfl
    | some b => exact Function.update_of_ne (fun heq => h (congrArg some heq)) p k.next

/-- The nodes do not depend on the links of others. -/
theorem Linked.setLink_of_not_mem (h : Linked k prev l) {other : Option α} (hprev : prev ≠ other)
    (hl : ∀ a ∈ l, some a ≠ other) : Linked (k.setLink other p) prev l :=
  h.congr (link_setLink_of_ne hprev) fun a ha => link_setLink_of_ne (hl a ha)

/-- What is set behind some nodes is behind them. -/
theorem Linked.setLink_lastOf : ∀ {front : List α} {prev : Option α},
    Linked k prev (front ++ back) → front.Nodup → (∀ a ∈ front, some a ≠ prev) →
    Linked (k.setLink (lastOf prev front) p) (lastOf prev front) l →
    Linked (k.setLink (lastOf prev front) p) prev (front ++ l) := by
  intro front
  induction front with
  | nil => exact fun _ _ _ hl => hl
  | cons a front ih =>
    intro prev h hnodup hprev hl
    obtain ⟨ha, hnodup⟩ := List.nodup_cons.mp hnodup
    have hne : prev ≠ lastOf (some a) front := by
      rcases lastOf_mem front (some a) with heq | ⟨b, hb, heq⟩
      · rw [heq]
        exact (hprev a List.mem_cons_self).symm
      · rw [heq]
        exact (hprev b (List.mem_cons_of_mem a hb)).symm
    refine ⟨?_, ih h.2 hnodup (fun b hb heq => ha ?_) hl⟩
    · exact (link_setLink_of_ne hne).trans h.1
    · rw [← Option.some.inj heq]
      exact hb

/-- **A node is added** behind all others. -/
theorem Linked.concat (h : Linked k none l) (hnodup : l.Nodup) (ha : a ∉ l)
    (hnext : k.next a = none) : Linked (k.setLink (lastOf none l) (some a)) none (l ++ [a]) := by
  rw [← List.append_nil l] at h
  refine h.setLink_lastOf hnodup (fun _ _ => Option.some_ne_none _) ⟨link_setLink _ _ _, ?_⟩
  exact (link_setLink_of_ne (some_ne_lastOf ha)).trans hnext

/-- A node is taken out: the one before it gets its link, and it gets none. -/
def unlink (k : Links α) (prev : Option α) (a : α) : Links α :=
  (k.setLink prev (k.link (some a))).setLink (some a) none

/-- **A node is taken out.** -/
theorem Linked.unlink (h : Linked k none (front ++ a :: back))
    (hnodup : (front ++ a :: back).Nodup) :
    Linked (k.unlink (lastOf none front) a) none (front ++ back) := by
  obtain ⟨hfront, hback, hdisjoint⟩ := List.nodup_append.mp hnodup
  obtain ⟨haback, -⟩ := List.nodup_cons.mp hback
  have hafront : a ∉ front := fun ha => hdisjoint a ha a List.mem_cons_self rfl
  have hback : ∀ b ∈ back, some b ≠ lastOf none front := fun b hb =>
    some_ne_lastOf fun hb' => hdisjoint b hb' b (List.mem_cons_of_mem a hb) rfl
  have htail : Linked k (some a) back := (linked_append h).2
  have hset : Linked (k.setLink (lastOf none front) (k.link (some a))) none (front ++ back) := by
    refine h.setLink_lastOf hfront (fun _ _ => Option.some_ne_none _) ?_
    cases back with
    | nil => exact (link_setLink _ _ _).trans htail
    | cons b back =>
      refine ⟨(link_setLink _ _ _).trans htail.1, htail.2.setLink_of_not_mem ?_ ?_⟩
      · exact hback b List.mem_cons_self
      · exact fun c hc => hback c (List.mem_cons_of_mem b hc)
  refine hset.setLink_of_not_mem (Option.some_ne_none a).symm fun b hb heq => ?_
  obtain rfl : b = a := Option.some.inj heq
  rcases List.mem_append.mp hb with hb | hb
  · exact hafront hb
  · exact haback hb

theorem next_unlink_self (k : Links α) (prev : Option α) (a : α) :
    (k.unlink prev a).next a = none :=
  link_setLink _ (some a) none

theorem next_unlink_of_ne (hb : b ≠ a) (hprev : some b ≠ prev) :
    (k.unlink prev a).next b = k.next b := by
  have hone : ((k.setLink prev (k.link (some a))).setLink (some a) none).link (some b) =
      (k.setLink prev (k.link (some a))).link (some b) :=
    link_setLink_of_ne fun heq => hb (Option.some.inj heq)
  exact hone.trans (link_setLink_of_ne hprev)

end

end Links

end Hatn.Memory
