import Hatn.Common.LruTtl

/-!
# One key of a cache with expiration

What the calls of the cache do to the item of one key, also where pushes meet their keys.  A
push leaves an item that is there, unless it is the one that has to go for it.  All other keys
keep their items or lose them.
-/

namespace Hatn.Common

open Cache

namespace Lru

variable {κ ν : Type} [DecidableEq κ] {s : Lru κ ν} {r : Recency κ ν}

/-- Once there is room for one more, an item of the key stays as it is. -/
theorem Shows.emplace_stored (h : s.Shows r) (k : κ) (v : ν) : ∃ t, s.emplaceItem k v = some t ∧
    t.Shows ((r.without s.evicted).use k (((r.without s.evicted).value k).getD v)) := by
  cases hk : (r.without s.evicted).value k with
  | none =>
    obtain ⟨t, ht, hshows, -⟩ := h.emplace (v := v) (.inl hk)
    exact ⟨t, ht, hshows⟩
  | some v' =>
    obtain ⟨t, ht, hshows, -⟩ := h.emplace (.inr hk)
    refine ⟨t, ?_, hshows⟩
    obtain ⟨t₀, ht₀, hshows₀, -⟩ := h.checkFull
    have hmem : k ∈ t₀.storage := AList.lookup_isSome.mp ((hshows₀.lookup k).trans hk ▸ rfl)
    rw [← ht, Lru.emplaceItem, Lru.emplaceItem, ht₀]
    show (if k ∈ (t₀.doEmplace k v).queue then _ else t₀.doEmplace k v).pushBack k =
      (if k ∈ (t₀.doEmplace k v').queue then _ else t₀.doEmplace k v').pushBack k
    rw [doEmplace, doEmplace, if_pos hmem, if_pos hmem]

theorem Shows.value_without (h : s.Shows r) (o : Option κ) (k : κ) :
    (r.without o).value k = if o = some k then none else s.storage.lookup k := by
  cases o with
  | none =>
    rw [if_neg (Option.some_ne_none k).symm, h.lookup]
    rfl
  | some k' =>
    show Function.update r.value k' none k = _
    by_cases hk : k = k'
    · rw [hk, Function.update_self, if_pos rfl]
    · rw [Function.update_of_ne hk, if_neg fun h' => hk (Option.some.inj h').symm, h.lookup]

end Lru

namespace LruTtl

variable {κ ν : Type} [DecidableEq κ] {s : LruTtl κ ν} {r : Recency κ (TtlItem ν)} {now : Nat}

/-- The item of the key. -/
def entry (s : LruTtl κ ν) (k : κ) : Option (TtlItem ν) := s.lru.storage.lookup k

/-- The map and the queue have the same keys. -/
def Linked (s : LruTtl κ ν) : Prop := ∃ r, s.lru.Shows r

/-- **A push** leaves an item of its key as it is, unless it has to go. -/
theorem Linked.pushItem (h : s.Linked) (now : Nat) (k : κ) (v : ν) : ∃ t,
    s.pushItem now k v = some t ∧ t.ttlMs = s.ttlMs ∧ t.Linked ∧
      t.entry k = some ((if s.lru.evicted = some k then none else s.entry k).getD ⟨v, now⟩) ∧
        ∀ k', k' ≠ k → t.entry k' = s.entry k' ∨ t.entry k' = none := by
  obtain ⟨r, h⟩ := h
  obtain ⟨lru, hlru, hshows⟩ := h.emplace_stored k ⟨v, now⟩
  refine ⟨{ s with lru := lru }, ?_, rfl, ⟨_, hshows⟩, ?_, fun k' hk' => ?_⟩
  · rw [LruTtl.pushItem, Lru.pushKeyItem, hlru]
    rfl
  · refine (hshows.lookup k).trans ((Function.update_self ..).trans ?_)
    rw [h.value_without]
    rfl
  · have hlookup : lru.storage.lookup k' = (r.without s.lru.evicted).value k' :=
      (hshows.lookup k').trans (Function.update_of_ne hk' ..)
    rw [h.value_without] at hlookup
    show lru.storage.lookup k' = _ ∨ lru.storage.lookup k' = none
    rw [hlookup]
    split
    · exact .inr rfl
    · exact .inl rfl

/-- **A touch** renews an item that is not expired. -/
theorem Linked.getAndTouch (h : s.Linked) (now : Nat) (k : κ) : ∃ t,
    s.getAndTouch now k = some t ∧ t.ttlMs = s.ttlMs ∧ t.Linked ∧
      (∀ k', k' ≠ k → t.entry k' = s.entry k') ∧ (t.entry k = s.entry k ∨
        ∃ i, s.entry k = some i ∧ isExpired s.ttlMs now i = false ∧
          t.entry k = some ⟨i.item, now⟩) := by
  obtain ⟨r, h⟩ := h
  rw [LruTtl.getAndTouch]
  cases hi : s.lru.storage.lookup k with
  | none => exact ⟨s, rfl, rfl, ⟨r, h⟩, fun _ _ => rfl, .inl rfl⟩
  | some i =>
    dsimp only
    split
    · exact ⟨s, rfl, rfl, ⟨r, h⟩, fun _ _ => rfl, .inl rfl⟩
    next hexpired =>
    have hmem : k ∈ s.lru.storage := AList.lookup_isSome.mp (by rw [hi]; rfl)
    obtain ⟨lru, hlru, hshows, -⟩ := h.touchItem hmem
    rw [Recency.touch_eq ((h.lookup k).symm.trans hi)] at hshows
    have hself : (lru.storage.insert k ⟨i.item, now⟩).lookup k = some ⟨i.item, now⟩ :=
      AList.lookup_insert _
    have huse : (r.use k ⟨i.item, now⟩).value k = some ⟨i.item, now⟩ := Function.update_self ..
    have hother : ∀ k', k' ≠ k →
        (lru.storage.insert k ⟨i.item, now⟩).lookup k' = r.value k' := fun k' hk' => by
      rw [AList.lookup_insert_ne hk', hshows.lookup]
      exact Function.update_of_ne hk' ..
    refine ⟨{ s with lru := lru.doInsert k ⟨i.item, now⟩ }, ?_, rfl,
      ⟨r.use k ⟨i.item, now⟩, hshows.queue, fun k' => ?_⟩, fun k' hk' => ?_,
      .inr ⟨i, hi, Bool.eq_false_iff.mpr hexpired, hself⟩⟩
    · rw [LruTtl.touchItem, hlru]
      rfl
    · by_cases hk' : k' = k
      · rw [hk']
        exact hself.trans huse.symm
      · exact (hother k' hk').trans (Function.update_of_ne hk' ..).symm
    · exact (hother k' hk').trans (h.lookup k').symm

/-- **A removal** leaves an item only when it is expired. -/
theorem Linked.remove (h : s.Linked) (now : Nat) (k : κ) : (s.remove now k).ttlMs = s.ttlMs ∧
    (s.remove now k).Linked ∧ (∀ k', (s.remove now k).entry k' = s.entry k' ∨
      (s.remove now k).entry k' = none) ∧
        ∀ i, (s.remove now k).entry k = some i → isExpired s.ttlMs now i = true := by
  obtain ⟨r, h⟩ := h
  rw [LruTtl.remove]
  by_cases hget : (s.get now k).isSome = true
  · have hmem : k ∈ s.lru.storage := by
      refine AList.lookup_isSome.mp ?_
      cases hi : s.lru.storage.lookup k with
      | some i => rfl
      | none =>
        rw [get, hi] at hget
        cases hget
    have hshows := h.removeItem hmem
    rw [if_pos hget]
    refine ⟨rfl, ⟨_, hshows⟩, fun k' => ?_, fun i hi => ?_⟩
    · by_cases hk' : k' = k
      · rw [hk']
        exact .inr ((hshows.lookup k).trans (Function.update_self ..))
      · exact .inl ((hshows.lookup k').trans ((Function.update_of_ne hk' ..).trans
          (h.lookup k').symm))
    · exact absurd (hi.symm.trans ((hshows.lookup k).trans (Function.update_self ..)))
        (Option.some_ne_none i)
  · rw [if_neg hget]
    refine ⟨rfl, ⟨r, h⟩, fun _ => .inl rfl, fun i hi => ?_⟩
    by_contra hexpired
    refine hget ?_
    rw [get, show s.lru.storage.lookup k = some i from hi,
      live_of_not_expired (Bool.eq_false_iff.mpr hexpired)]
    rfl

theorem tickLoop_entries (ttlMs now : Nat) : ∀ (n : Nat) {lru : Lru κ (TtlItem ν)}
    {r : Recency κ (TtlItem ν)}, lru.Shows r → ∃ r', (tickLoop ttlMs now n lru).Shows r' ∧
      ∀ k, r'.value k = r.value k ∨ r'.value k = none := by
  intro n
  induction n with
  | zero => exact fun h => ⟨_, h, fun _ => .inl rfl⟩
  | succ n ih =>
    intro lru r h
    rw [tickLoop]
    cases lru.queue with
    | nil => exact ⟨r, h, fun _ => .inl rfl⟩
    | cons k queue =>
      cases hi : lru.storage.lookup k with
      | none =>
        simp only [hi]
        exact ⟨r, h, fun _ => .inl rfl⟩
      | some i =>
        simp only [hi]
        split
        · have hmem : k ∈ lru.storage := AList.lookup_isSome.mp (by rw [hi]; rfl)
          obtain ⟨r', hshows, hvalue⟩ := ih (h.removeItem hmem)
          refine ⟨r', hshows, fun k' => ?_⟩
          have hremove : (r.remove k).value k' = Function.update r.value k none k' := rfl
          obtain hvalue | hvalue := hvalue k'
          · by_cases hk' : k' = k
            · rw [hremove, hk', Function.update_self] at hvalue
              exact .inr (hk' ▸ hvalue)
            · rw [hremove, Function.update_of_ne hk'] at hvalue
              exact .inl hvalue
          · exact .inr hvalue
        · exact ⟨r, h, fun _ => .inl rfl⟩

/-- **A tick** only removes items. -/
theorem Linked.tick (h : s.Linked) (now : Nat) : (s.tick now).Linked ∧
    ∀ k, (s.tick now).entry k = s.entry k ∨ (s.tick now).entry k = none := by
  obtain ⟨r, h⟩ := h
  obtain ⟨r', hshows, hvalue⟩ := tickLoop_entries s.ttlMs now s.lru.queue.length h
  refine ⟨⟨r', hshows⟩, fun k => ?_⟩
  have htick : (s.tick now).entry k = r'.value k := hshows.lookup k
  rw [htick, entry, h.lookup]
  exact hvalue k

end LruTtl

end Hatn.Common
