import Hatn.Common.Lru
import Mathlib.Order.Basic

/-!
# LRU cache with expiration

The items of `CacheLruTtl` have a clock, which is set when an item is made and reset when it
is touched.  An expired item is not found any more, but it stays in the cache until the
timer ticks; a tick removes expired items from the front of the queue only.  A push that
meets its key does not make a new item, so that the old value and the old clock stay;
`serves_iff` says that the cache serves what was put last just when no push does.
-/

namespace Hatn.Common

open Cache

/-- `TtlItem`: an item, and the time point of its `ElapsedTimer`. -/
structure TtlItem (ν : Type) where
  item : ν
  elapsed : Nat
  deriving DecidableEq

/-- `LruTtl`, with the time to live in milliseconds. -/
structure LruTtl (κ ν : Type) [DecidableEq κ] where
  ttlMs : Nat
  lru : Lru κ (TtlItem ν)

/-- `ElapsedTimer::elapsed`, in milliseconds; the clock counts nanoseconds. -/
def elapsedMs (now tp : Nat) : Nat := (now - tp) / 1000000

namespace LruTtl

variable {κ ν : Type} [DecidableEq κ]

def start (ttlMs capacity : Nat) : LruTtl κ ν := ⟨ttlMs, .start capacity⟩

/-- `isExpired` -/
def isExpired (ttlMs now : Nat) (i : TtlItem ν) : Bool := ttlMs < elapsedMs now i.elapsed

/-- The value of an item that is not expired. -/
def live (ttlMs now : Nat) (i : Option (TtlItem ν)) : Option ν :=
  i.bind fun i => if isExpired ttlMs now i then none else some i.item

/-- `get` -/
def get (s : LruTtl κ ν) (now : Nat) (k : κ) : Option ν := live s.ttlMs now (s.lru.storage.lookup k)

/-- `pushItem` with a key: a new item is made for the push. -/
def pushItem (now : Nat) (k : κ) (v : ν) (s : LruTtl κ ν) : Option (LruTtl κ ν) :=
  (s.lru.pushKeyItem k ⟨v, now⟩).map ({ s with lru := · })

/-- `emplaceItem` -/
def emplaceItem (now : Nat) (k : κ) (v : ν) (s : LruTtl κ ν) : Option (LruTtl κ ν) :=
  (s.lru.emplaceItem k ⟨v, now⟩).map ({ s with lru := · })

/-- `touchItem` -/
def touchItem (now : Nat) (k : κ) (i : TtlItem ν) (s : LruTtl κ ν) : Option (LruTtl κ ν) :=
  (s.lru.touchItem k).map fun lru => { s with lru := lru.doInsert k ⟨i.item, now⟩ }

/-- `getAndTouch`, without the item. -/
def getAndTouch (now : Nat) (k : κ) (s : LruTtl κ ν) : Option (LruTtl κ ν) :=
  match s.lru.storage.lookup k with
  | none => some s
  | some i => if isExpired s.ttlMs now i then some s else s.touchItem now k i

/-- `touch` -/
def touch (now : Nat) (k : κ) (s : LruTtl κ ν) : Option (LruTtl κ ν) := s.getAndTouch now k

/-- `remove` -/
def remove (now : Nat) (k : κ) (s : LruTtl κ ν) : LruTtl κ ν :=
  if (s.get now k).isSome then { s with lru := s.lru.removeItem k } else s

/-- `clear` -/
def clear (s : LruTtl κ ν) : LruTtl κ ν := { s with lru := s.lru.clear }

/-- The loop of a timer tick, for at most `n` items. -/
def tickLoop (ttlMs now : Nat) : Nat → Lru κ (TtlItem ν) → Lru κ (TtlItem ν)
  | 0, lru => lru
  | n + 1, lru =>
    match lru.queue with
    | [] => lru
    | k :: _ =>
      match lru.storage.lookup k with
      | none => lru
      | some i => if isExpired ttlMs now i then tickLoop ttlMs now n (lru.removeItem k) else lru

/-- A timer tick; each turn of its loop removes an item. -/
def tick (now : Nat) (s : LruTtl κ ν) : LruTtl κ ν :=
  { s with lru := tickLoop s.ttlMs now s.lru.queue.length s.lru }

inductive Op (κ ν : Type)
  | pushItem (k : κ) (v : ν)
  | emplaceItem (k : κ) (v : ν)
  | getAndTouch (k : κ)
  | touch (k : κ)
  | remove (k : κ)
  | clear
  | tick

/-- A call at a time. -/
def step (now : Nat) (s : LruTtl κ ν) : Op κ ν → Option (LruTtl κ ν)
  | .pushItem k v => s.pushItem now k v
  | .emplaceItem k v => s.emplaceItem now k v
  | .getAndTouch k => s.getAndTouch now k
  | .touch k => s.touch now k
  | .remove k => some (s.remove now k)
  | .clear => some s.clear
  | .tick => some (s.tick now)

/-! ### What the cache is for -/

/-- What was put last, with the time of the last use. -/
abbrev Ledger (κ ν : Type) := κ → Option (TtlItem ν)

/-- The ledger without a key. -/
def Ledger.remove (l : Ledger κ ν) : Option κ → Ledger κ ν
  | none => l
  | some k => Function.update l k none

/-- The ledger behind a call, when `k` is evicted.  A touch counts for what is served. -/
def Ledger.apply (ttlMs now : Nat) (evicted : Option κ) (l : Ledger κ ν) : Op κ ν → Ledger κ ν
  | .pushItem k v | .emplaceItem k v => Function.update (l.remove evicted) k (some ⟨v, now⟩)
  | .getAndTouch k | .touch k =>
    match live ttlMs now (l k) with
    | some v => Function.update l k (some ⟨v, now⟩)
    | none => l
  | .remove k => l.remove (some k)
  | .clear => fun _ => none
  | .tick => l

/-- From now on all keys are served as the ledger has them. -/
def Serves (now : Nat) (s : LruTtl κ ν) (l : Ledger κ ν) : Prop :=
  ∀ at_, now ≤ at_ → ∀ k, s.get at_ k = live s.ttlMs at_ (l k)

/-- No expired item is left. -/
def Clean (now : Nat) (s : LruTtl κ ν) : Prop :=
  ∀ k i, s.lru.storage.lookup k = some i → isExpired s.ttlMs now i = false

/-- In a run, all that is put is served, and there is no expired item behind a tick. -/
def ServesRun : Ledger κ ν → LruTtl κ ν → List (Nat × Op κ ν) → Prop
  | _, _, [] => True
  | l, s, (now, op) :: ops => ∃ t, s.step now op = some t ∧
      t.Serves now (l.apply s.ttlMs now s.lru.evicted op) ∧ (op = .tick → t.Clean now) ∧
        ServesRun (l.apply s.ttlMs now s.lru.evicted op) t ops

/-- A push does not meet its key in the map, neither expired nor live; but it may be the key
that is evicted for it, or have the same value and clock. -/
def Regular (now : Nat) (s : LruTtl κ ν) : Op κ ν → Prop
  | .pushItem k v | .emplaceItem k v =>
    s.lru.storage.lookup k = none ∨ s.lru.storage.lookup k = some ⟨v, now⟩ ∨ s.lru.evicted = some k
  | _ => True

def RegularRun : LruTtl κ ν → List (Nat × Op κ ν) → Prop
  | _, [] => True
  | s, (now, op) :: ops => s.Regular now op ∧ ∀ t, s.step now op = some t → RegularRun t ops

/-! ### Items that are served -/

section
variable {ttlMs now now' : Nat} {k : κ} {v : ν} {i : TtlItem ν}

omit [DecidableEq κ] in
theorem elapsedMs_mono {tp : Nat} (h : now ≤ now') : elapsedMs now tp ≤ elapsedMs now' tp :=
  Nat.div_le_div_right (Nat.sub_le_sub_right h tp)

theorem isExpired_mono (h : now ≤ now') (hi : isExpired ttlMs now i = true) :
    isExpired ttlMs now' i = true :=
  decide_eq_true ((of_decide_eq_true hi).trans_le (elapsedMs_mono h))

/-- An item is not expired when an older one is not. -/
theorem isExpired_of_le {i' : TtlItem ν} (h : i.elapsed ≤ i'.elapsed)
    (hi : isExpired ttlMs now i = false) : isExpired ttlMs now i' = false := by
  have hle : elapsedMs now i'.elapsed ≤ elapsedMs now i.elapsed :=
    Nat.div_le_div_right (Nat.sub_le_sub_left h now)
  exact decide_eq_false (not_lt.mpr (hle.trans (not_lt.mp (of_decide_eq_false hi))))

theorem live_of_expired (hi : isExpired ttlMs now i = true) : live ttlMs now (some i) = none :=
  if_pos hi

theorem live_of_not_expired (hi : isExpired ttlMs now i = false) :
    live ttlMs now (some i) = some i.item :=
  if_neg fun h => Bool.false_ne_true (hi.symm.trans h)

/-- An item that is not served is not served later. -/
theorem live_eq_none_mono {o : Option (TtlItem ν)} (h : now ≤ now')
    (ho : live ttlMs now o = none) : live ttlMs now' o = none := by
  cases o with
  | none => rfl
  | some i =>
    cases hi : isExpired ttlMs now i with
    | true => exact live_of_expired (isExpired_mono h hi)
    | false =>
      rw [live_of_not_expired hi] at ho
      cases ho

/-- From now on both serve the same. -/
def Agree (ttlMs now : Nat) (f g : κ → Option (TtlItem ν)) : Prop :=
  ∀ at_, now ≤ at_ → ∀ k, live ttlMs at_ (f k) = live ttlMs at_ (g k)

variable {f g : κ → Option (TtlItem ν)}

omit [DecidableEq κ] in
theorem Agree.mono (h : Agree ttlMs now f g) (hle : now ≤ now') : Agree ttlMs now' f g :=
  fun at_ hat => h at_ (hle.trans hat)

theorem Agree.update (h : Agree ttlMs now f g) (k : κ) (o : Option (TtlItem ν)) :
    Agree ttlMs now (Function.update f k o) (Function.update g k o) := by
  intro at_ hat k'
  by_cases hk : k' = k
  · rw [hk, Function.update_self, Function.update_self]
  · rw [Function.update_of_ne hk, Function.update_of_ne hk]
    exact h at_ hat k'

/-- What is not served any more may be removed. -/
theorem Agree.update_none (h : Agree ttlMs now f g) (hk : live ttlMs now (f k) = none) :
    Agree ttlMs now f (Function.update g k none) := by
  intro at_ hat k'
  by_cases hk' : k' = k
  · rw [hk', Function.update_self]
    exact live_eq_none_mono hat hk
  · rw [Function.update_of_ne hk']
    exact h at_ hat k'

theorem Agree.update_none_left (h : Agree ttlMs now f g) (hk : live ttlMs now (f k) = none) :
    Agree ttlMs now (Function.update f k none) g := by
  intro at_ hat k'
  by_cases hk' : k' = k
  · rw [hk', Function.update_self, ← h at_ hat k]
    exact (live_eq_none_mono hat hk).symm
  · rw [Function.update_of_ne hk']
    exact h at_ hat k'

/-! ### The order of the clocks -/

/-- Items used later have later clocks, and none is ahead of the time. -/
structure Sorted (now : Nat) (r : Recency κ (TtlItem ν)) : Prop where
  pairwise : r.order.Pairwise fun k k' => ∀ i i', r.value k = some i → r.value k' = some i' →
    i.elapsed ≤ i'.elapsed
  le : ∀ k i, r.value k = some i → i.elapsed ≤ now

variable {r : Recency κ (TtlItem ν)}

omit [DecidableEq κ] in
theorem Sorted.mono (h : Sorted now r) (hle : now ≤ now') : Sorted now' r :=
  ⟨h.pairwise, fun k i hi => (h.le k i hi).trans hle⟩

theorem Sorted.remove (h : Sorted now r) (k : κ) : Sorted now (r.remove k) := by
  have hvalue : ∀ {k' : κ} {i : TtlItem ν}, (r.remove k).value k' = some i →
      r.value k' = some i := by
    intro k' i hi
    have hi : Function.update r.value k none k' = some i := hi
    by_cases hk : k' = k
    · rw [hk, Function.update_self] at hi
      cases hi
    · rwa [Function.update_of_ne hk] at hi
  refine ⟨?_, fun k' i hi => h.le k' i (hvalue hi)⟩
  exact (h.pairwise.sublist List.erase_sublist).imp fun hkk i i' hi hi' =>
    hkk i i' (hvalue hi) (hvalue hi')

/-- An item used now is the last one. -/
theorem Sorted.use (h : Sorted now r) (k : κ) (v : ν) : Sorted now (r.use k ⟨v, now⟩) := by
  have hself : (r.use k ⟨v, now⟩).value k = some ⟨v, now⟩ := Function.update_self ..
  have hvalue : ∀ {k' : κ}, k' ≠ k → (r.use k ⟨v, now⟩).value k' = r.value k' :=
    fun hk => Function.update_of_ne hk ..
  have hle : ∀ k' i, (r.use k ⟨v, now⟩).value k' = some i → i.elapsed ≤ now := by
    intro k' i hi
    by_cases hk : k' = k
    · rw [hk, hself] at hi
      cases hi
      exact Nat.le_refl now
    · rw [hvalue hk] at hi
      exact h.le k' i hi
  have hne : ∀ {k' : κ}, k' ∈ r.order.erase k → k' ≠ k := fun hk' =>
    (r.nodup.mem_erase_iff.mp hk').1
  refine ⟨List.pairwise_append.mpr ⟨?_, List.pairwise_singleton _ _, ?_⟩, hle⟩
  · refine (h.pairwise.sublist List.erase_sublist).imp_of_mem fun hk hk' hkk i i' hi hi' => ?_
    rw [hvalue (hne hk)] at hi
    rw [hvalue (hne hk')] at hi'
    exact hkk i i' hi hi'
  · intro k' _ k'' hk'' i i' hi hi'
    rw [List.mem_singleton.mp hk'', hself] at hi'
    cases hi'
    exact hle k' i hi

omit [DecidableEq κ] in
/-- **Behind an item that is not expired** there is none that is. -/
theorem Sorted.not_expired {queue : List κ} (h : Sorted now r) (hq : r.order = k :: queue)
    (hk : r.value k = some i) (hi : isExpired ttlMs now i = false) {k' : κ} {i' : TtlItem ν}
    (hk' : r.value k' = some i') : isExpired ttlMs now i' = false := by
  have hmem : k' ∈ r.order := (r.mem_order k').mpr (hk' ▸ rfl)
  have hpairwise := h.pairwise
  rw [hq, List.pairwise_cons] at hpairwise
  rw [hq, List.mem_cons] at hmem
  rcases hmem with rfl | hmem
  · rw [hk] at hk'
    cases hk'
    exact hi
  · exact isExpired_of_le (hpairwise.1 k' hmem i i' hk hk') hi

end

/-! ### Calls -/

section
variable {now now' : Nat} {s t : LruTtl κ ν} {l : Ledger κ ν} {r : Recency κ (TtlItem ν)} {k : κ}
  {v : ν}

/-- The cache serves what the ledger has, and its items are in the order of their clocks. -/
structure Good (now : Nat) (s : LruTtl κ ν) (l : Ledger κ ν) (r : Recency κ (TtlItem ν)) :
    Prop where
  shows_ : s.lru.Shows r
  agree : Agree s.ttlMs now r.value l
  sorted : Sorted now r

theorem Good.mono (h : Good now s l r) (hle : now ≤ now') : Good now' s l r :=
  ⟨h.shows_, h.agree.mono hle, h.sorted.mono hle⟩

theorem Good.serves (h : Good now s l r) : s.Serves now l := by
  intro at_ hat k
  rw [get, h.shows_.lookup]
  exact h.agree at_ hat k

theorem Agree.without {ttlMs : Nat} (h : Agree ttlMs now r.value l) (o : Option κ) :
    Agree ttlMs now (r.without o).value (l.remove o) := by
  cases o with
  | none => exact h
  | some k => exact h.update k none

theorem Sorted.without (h : Sorted now r) (o : Option κ) : Sorted now (r.without o) := by
  cases o with
  | none => exact h
  | some k => exact h.remove k

/-- What is stored for the key, once there is room for one more. -/
theorem Good.room (h : Good now s l r) (hk : s.lru.storage.lookup k = none ∨
    s.lru.storage.lookup k = some ⟨v, now⟩ ∨ s.lru.evicted = some k) :
      (r.without s.lru.evicted).value k = none ∨
        (r.without s.lru.evicted).value k = some ⟨v, now⟩ := by
  rw [h.shows_.lookup] at hk
  cases he : s.lru.evicted with
  | none =>
    rw [he] at hk
    rcases hk with hk | hk | hk
    · exact .inl hk
    · exact .inr hk
    · cases hk
  | some k' =>
    rw [he] at hk
    show Function.update r.value k' none k = none ∨ Function.update r.value k' none k = _
    by_cases hk' : k = k'
    · rw [hk', Function.update_self]
      exact .inl rfl
    · rw [Function.update_of_ne hk']
      rcases hk with hk | hk | hk
      · exact .inl hk
      · exact .inr hk
      · exact absurd (Option.some.inj hk).symm hk'

theorem Good.emplaceItem (h : Good now s l r) (hk : s.Regular now (.emplaceItem k v)) : ∃ t r',
    s.emplaceItem now k v = some t ∧
      Good now t (l.apply s.ttlMs now s.lru.evicted (.emplaceItem k v)) r' := by
  obtain ⟨lru, hlru, hshows, -⟩ := h.shows_.emplace (h.room hk)
  refine ⟨{ s with lru := lru }, _, ?_, hshows, (h.agree.without _).update k _,
    (h.sorted.without _).use k v⟩
  rw [LruTtl.emplaceItem, hlru]
  rfl

/-- An item that is touched has the clock of now. -/
theorem Good.touchItem (h : Good now s l r) {i : TtlItem ν}
    (hi : s.lru.storage.lookup k = some i) : ∃ t, s.touchItem now k i = some t ∧
      t.ttlMs = s.ttlMs ∧ t.lru.Shows (r.use k ⟨i.item, now⟩) := by
  have hmem : k ∈ s.lru.storage := AList.lookup_isSome.mp (hi ▸ rfl)
  obtain ⟨lru, hlru, hshows, -⟩ := h.shows_.touchItem hmem
  rw [Recency.touch_eq ((h.shows_.lookup k).symm.trans hi)] at hshows
  refine ⟨{ s with lru := lru.doInsert k ⟨i.item, now⟩ }, ?_, rfl, hshows.queue, fun k' => ?_⟩
  · rw [LruTtl.touchItem, hlru]
    rfl
  · show (lru.storage.insert k ⟨i.item, now⟩).lookup k' = Function.update r.value k _ k'
    by_cases hk : k' = k
    · rw [hk, AList.lookup_insert, Function.update_self]
    · rw [AList.lookup_insert_ne hk, hshows.lookup, Function.update_of_ne hk]
      exact Function.update_of_ne hk ..

theorem Good.getAndTouch (h : Good now s l r) (k : κ) : ∃ t r', s.getAndTouch now k = some t ∧
    Good now t (l.apply s.ttlMs now s.lru.evicted (.getAndTouch k)) r' := by
  have hlive := h.agree now (Nat.le_refl now) k
  have hlookup := h.shows_.lookup k
  rw [LruTtl.getAndTouch, Ledger.apply, ← hlive, ← hlookup]
  cases hi : s.lru.storage.lookup k with
  | none => exact ⟨s, r, rfl, h⟩
  | some i =>
    cases hexpired : isExpired s.ttlMs now i with
    | true =>
      rw [live_of_expired hexpired]
      exact ⟨s, r, if_pos hexpired, h⟩
    | false =>
      have hif : ¬ isExpired s.ttlMs now i = true := fun h' => Bool.false_ne_true (hexpired ▸ h')
      rw [live_of_not_expired hexpired]
      obtain ⟨t, ht, httl, hshows⟩ := h.touchItem hi
      refine ⟨t, _, (if_neg hif).trans ht, hshows, ?_, h.sorted.use k i.item⟩
      rw [httl]
      exact h.agree.update k _

theorem Good.remove (h : Good now s l r) (k : κ) : ∃ r',
    Good now (s.remove now k) (l.apply s.ttlMs now s.lru.evicted (.remove k)) r' := by
  rw [LruTtl.remove]
  by_cases hget : (s.get now k).isSome = true
  · have hmem : k ∈ s.lru.storage := by
      refine AList.lookup_isSome.mp ?_
      cases hi : s.lru.storage.lookup k with
      | some i => rfl
      | none =>
        rw [get, hi] at hget
        cases hget
    rw [if_pos hget]
    exact ⟨_, h.shows_.removeItem hmem, h.agree.update k none, h.sorted.remove k⟩
  · -- an expired item stays, but is not served any more
    rw [if_neg hget]
    refine ⟨r, h.shows_, h.agree.update_none ?_, h.sorted⟩
    rw [← h.shows_.lookup]
    exact Option.not_isSome_iff_eq_none.mp hget

theorem clear_good : Good now s.clear (fun _ => none) .empty :=
  ⟨⟨rfl, fun k => AList.lookup_empty k⟩, fun _ _ _ => rfl, .nil, nofun⟩

/-- **The loop of a tick** removes all expired items, for they are in front. -/
theorem tickLoop_good {ttlMs : Nat} : ∀ (n : Nat) {lru : Lru κ (TtlItem ν)}
    {r : Recency κ (TtlItem ν)}, lru.Shows r → Sorted now r → Agree ttlMs now r.value l →
      r.order.length ≤ n → ∃ r', (tickLoop ttlMs now n lru).Shows r' ∧ Sorted now r' ∧
        Agree ttlMs now r'.value l ∧ ∀ k i, r'.value k = some i → isExpired ttlMs now i = false := by
  intro n
  induction n with
  | zero =>
    intro lru r hshows hsorted hagree hlen
    refine ⟨r, hshows, hsorted, hagree, fun k i hi => ?_⟩
    have hmem : k ∈ r.order := (r.mem_order k).mpr (hi ▸ rfl)
    rw [List.eq_nil_of_length_eq_zero (Nat.le_zero.mp hlen)] at hmem
    cases hmem
  | succ n ih =>
    intro lru r hshows hsorted hagree hlen
    rw [tickLoop, hshows.queue]
    cases hq : r.order with
    | nil =>
      refine ⟨r, hshows, hsorted, hagree, fun k i hi => ?_⟩
      have hmem : k ∈ r.order := (r.mem_order k).mpr (hi ▸ rfl)
      rw [hq] at hmem
      cases hmem
    | cons k queue =>
      have hmem : k ∈ r.order := by
        rw [hq]
        exact List.mem_cons_self
      obtain ⟨i, hi⟩ := Option.isSome_iff_exists.mp ((r.mem_order k).mp hmem)
      have hlookup := (hshows.lookup k).trans hi
      simp only [hlookup]
      cases hexpired : isExpired ttlMs now i with
      | false =>
        exact ⟨r, hshows, hsorted, hagree, fun k' i' hi' => hsorted.not_expired hq hi hexpired hi'⟩
      | true =>
        have hremove := hshows.removeItem (hshows.mem.mpr hmem)
        have hless : (r.remove k).order.length ≤ n := by
          show (r.order.erase k).length ≤ n
          rw [List.length_erase_of_mem hmem]
          omega
        refine ih hremove (hsorted.remove k) (hagree.update_none_left ?_) hless
        rw [hi]
        exact live_of_expired hexpired

theorem Good.tick (h : Good now s l r) : ∃ r', Good now (s.tick now) l r' ∧
    (s.tick now).Clean now := by
  have hlen : r.order.length ≤ s.lru.queue.length := by rw [h.shows_.queue]
  obtain ⟨r', hshows, hsorted, hagree, hclean⟩ :=
    tickLoop_good s.lru.queue.length h.shows_ h.sorted h.agree hlen
  exact ⟨r', ⟨hshows, hagree, hsorted⟩, fun k i hi => hclean k i ((hshows.lookup k).symm.trans hi)⟩

/-- **A regular call** serves what the ledger has. -/
theorem Good.step (h : Good now s l r) {op : Op κ ν} (hop : s.Regular now op) : ∃ t r',
    s.step now op = some t ∧ Good now t (l.apply s.ttlMs now s.lru.evicted op) r' ∧
      (op = .tick → t.Clean now) := by
  cases op with
  | pushItem k v | emplaceItem k v =>
    obtain ⟨t, r', ht, hgood⟩ := h.emplaceItem hop
    exact ⟨t, r', ht, hgood, nofun⟩
  | getAndTouch k | touch k =>
    obtain ⟨t, r', ht, hgood⟩ := h.getAndTouch k
    exact ⟨t, r', ht, hgood, nofun⟩
  | remove k =>
    obtain ⟨r', hgood⟩ := h.remove k
    exact ⟨_, r', rfl, hgood, nofun⟩
  | clear => exact ⟨_, _, rfl, clear_good, nofun⟩
  | tick =>
    obtain ⟨r', hgood, hclean⟩ := h.tick
    exact ⟨_, r', rfl, hgood, fun _ => hclean⟩

/-! ### Pushes that meet their keys -/

/-- An item with an older clock stops being served too early. -/
theorem exists_expired {ttlMs : Nat} {tp : Nat} (h : tp < now) : ∃ at_, now ≤ at_ ∧
    ttlMs < elapsedMs at_ tp ∧ elapsedMs at_ now ≤ ttlMs := by
  refine ⟨now + ((ttlMs + 1) * 1000000 - 1), by omega, ?_, ?_⟩
  · rw [elapsedMs, Nat.lt_iff_add_one_le, Nat.le_div_iff_mul_le (by decide)]
    omega
  · rw [elapsedMs, ← Nat.lt_add_one_iff, Nat.div_lt_iff_lt_mul (by decide)]
    omega

theorem regular_of_serves (h : Good now s l r) (ht : s.emplaceItem now k v = some t)
    (hserves : t.Serves now (l.apply s.ttlMs now s.lru.evicted (.emplaceItem k v))) :
    s.Regular now (.emplaceItem k v) := by
  obtain ⟨lru, hlru, rfl⟩ := Option.map_eq_some_iff.mp ht
  obtain ⟨t₀, ht₀, -, -, hstorage⟩ := Lru.emplaceItem_eq_some hlru
  obtain ⟨t₁, ht₁, hshows, -⟩ := h.shows_.checkFull
  obtain rfl : t₁ = t₀ := Option.some.inj (ht₁.symm.trans ht₀)
  show s.lru.storage.lookup k = none ∨ s.lru.storage.lookup k = some ⟨v, now⟩ ∨
    s.lru.evicted = some k
  refine or_iff_not_imp_left.mpr fun hsome => or_iff_not_imp_right.mpr fun hnot => ?_
  obtain ⟨i, hi⟩ := Option.ne_none_iff_exists'.mp hsome
  rw [h.shows_.lookup] at hi
  -- the item stays, with its value and its clock
  have hvalue : (r.without s.lru.evicted).value k = some i := by
    cases he : s.lru.evicted with
    | none => exact hi
    | some k' => exact (Function.update_of_ne (fun hk => hnot (by rw [he, hk])) ..).trans hi
  have hmem : k ∈ t₁.storage := AList.lookup_isSome.mp ((hshows.lookup k).trans hvalue ▸ rfl)
  have hlookup : lru.storage.lookup k = some i := by
    rw [hstorage, Lru.doEmplace, if_pos hmem]
    exact (hshows.lookup k).trans hvalue
  have hget : ∀ at_, now ≤ at_ → live s.ttlMs at_ (some i) = live s.ttlMs at_ (some ⟨v, now⟩) := by
    intro at_ hat
    have hget := hserves at_ hat k
    rw [get, Ledger.apply, Function.update_self] at hget
    rw [← hget, ← hlookup]
  have hle : i.elapsed ≤ now := h.sorted.le k i hi
  have hclock : ¬ i.elapsed < now := by
    intro hlt
    have hlater : ∃ at_, now ≤ at_ ∧ s.ttlMs < elapsedMs at_ i.elapsed ∧
        elapsedMs at_ now ≤ s.ttlMs := exists_expired hlt
    obtain ⟨at_, hat, hexpired, hfresh⟩ := hlater
    have hget := hget at_ hat
    rw [live_of_expired (decide_eq_true hexpired),
      live_of_not_expired (decide_eq_false (not_lt.mpr hfresh))] at hget
    cases hget
  have hnow : i.elapsed = now := le_antisymm hle (not_lt.mp hclock)
  have hfresh : ∀ j : TtlItem ν, j.elapsed = now → isExpired s.ttlMs now j = false := by
    intro j hj
    refine decide_eq_false ?_
    rw [elapsedMs, hj, Nat.sub_self, Nat.zero_div]
    exact Nat.not_lt_zero _
  have hitem := hget now (Nat.le_refl now)
  rw [live_of_not_expired (hfresh i hnow), live_of_not_expired (hfresh ⟨v, now⟩ rfl)] at hitem
  rw [h.shows_.lookup, hi, ← hnow]
  cases Option.some.inj hitem
  rfl

/-! ### Runs -/

theorem Good.servesRun_iff {ops : List (Nat × Op κ ν)} : ∀ {now : Nat} {s : LruTtl κ ν}
    {l : Ledger κ ν} {r : Recency κ (TtlItem ν)}, Good now s l r → (∀ op ∈ ops, now ≤ op.1) →
      ops.Pairwise (fun op op' => op.1 ≤ op'.1) → (ServesRun l s ops ↔ s.RegularRun ops) := by
  induction ops with
  | nil => exact fun _ _ _ => iff_of_true trivial trivial
  | cons op ops ih =>
    obtain ⟨now', op⟩ := op
    intro now s l r h hle hpairwise
    have h := h.mono (hle (now', op) List.mem_cons_self)
    obtain ⟨hlater, hpairwise⟩ := List.pairwise_cons.mp hpairwise
    have hnext : s.Regular now' op → ∀ t, s.step now' op = some t →
        (ServesRun (l.apply s.ttlMs now' s.lru.evicted op) t ops ↔ t.RegularRun ops) := by
      intro hop t ht
      obtain ⟨t', r', ht', hgood, -⟩ := h.step hop
      obtain rfl : t = t' := Option.some.inj (ht.symm.trans ht')
      exact ih hgood hlater hpairwise
    constructor
    · rintro ⟨t, ht, hserves, -, hrun⟩
      have hop : s.Regular now' op := by
        cases op with
        | pushItem k v | emplaceItem k v => exact regular_of_serves h ht hserves
        | getAndTouch k => trivial
        | touch k => trivial
        | remove k => trivial
        | clear => trivial
        | tick => trivial
      refine ⟨hop, fun t' ht' => ?_⟩
      obtain rfl : t = t' := Option.some.inj (ht.symm.trans ht')
      exact (hnext hop t ht).mp hrun
    · rintro ⟨hop, hrun⟩
      obtain ⟨t, r', ht, hgood, hclean⟩ := h.step hop
      exact ⟨t, ht, hgood.serves, hclean, (hnext hop t ht).mpr (hrun t ht)⟩

/-- **The cache serves what was put last**, and no expired item is left behind a tick, just when
no push meets its key in the map. -/
theorem serves_iff (ttlMs capacity : Nat) (ops : List (Nat × Op κ ν))
    (h : ops.Pairwise fun op op' => op.1 ≤ op'.1) :
    ServesRun (fun _ => none) (start ttlMs capacity) ops ↔
      (start ttlMs capacity).RegularRun ops := by
  have hstart : Good 0 (start ttlMs capacity : LruTtl κ ν) (fun _ => none) .empty :=
    ⟨⟨rfl, fun k => AList.lookup_empty k⟩, fun _ _ _ => rfl, .nil, nofun⟩
  exact hstart.servesRun_iff (fun _ _ => Nat.zero_le _) h

end

section Sample

/-- A key is pushed, expires, is removed by the tick and pushed again, one second each. -/
def sampleTicks : List (Nat × Op Nat Nat) :=
  [(0, .pushItem 1 10), (1000000000, .tick), (2000000000, .pushItem 1 20)]

theorem serves_sampleTicks : ServesRun (fun _ => none) (start 500 2) sampleTicks := by
  refine (serves_iff 500 2 sampleTicks (by decide)).mpr ⟨.inl rfl, fun t ht => ?_⟩
  cases ht
  refine ⟨trivial, fun t ht => ?_⟩
  cases ht
  exact ⟨.inl rfl, fun t ht => trivial⟩

/-- **A push without a tick between** leaves the expired item, and nothing is found. -/
theorem not_serves : ¬ ∀ (ttlMs capacity : Nat) (ops : List (Nat × Op Nat Nat)),
    ops.Pairwise (fun op op' => op.1 ≤ op'.1) →
      ServesRun (fun _ => none) (start ttlMs capacity) ops := by
  intro h
  obtain ⟨t, ht, -, -, t', ht', hserves, -⟩ :=
    h 500 2 [(0, .pushItem 1 10), (1000000000, .pushItem 1 20)] (by decide)
  cases ht
  cases ht'
  exact absurd (hserves 1000000000 (Nat.le_refl _) 1) (by decide)

end Sample

end LruTtl

end Hatn.Common
