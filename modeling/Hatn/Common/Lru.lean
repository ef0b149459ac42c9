import Hatn.Cache.Recency
import Mathlib.Data.List.AList

/-!
# LRU cache

`CacheLru` keeps its items in a map, and an intrusive list of them, the queue, from the
least to the most recently used item.  An item of the list is a node of the map; it is named
by its key here.  A push that meets its key in the map does not what it is for: one of
the pushes links an item that is linked, the other keeps the old value, and both make room
for a key that needs none.  `keeps_iff` says that the cache does what it is for, in all
states of a run, just when no push meets its key.
-/

namespace Hatn.Common

open Cache

/-- The cache: `m_capacity`, the map of the storage, `m_queue`, and the items that were handed
to their displace handlers. -/
structure Lru (κ ν : Type) [DecidableEq κ] where
  capacity : Nat
  storage : AList fun _ : κ => ν
  queue : List κ
  displaced : List (κ × ν)

namespace Lru

variable {κ ν : Type} [DecidableEq κ]

def start (capacity : Nat) : Lru κ ν := ⟨capacity, ∅, [], []⟩

def size (s : Lru κ ν) : Nat := s.storage.keys.length

/-- `isFull` -/
def isFull (s : Lru κ ν) : Bool := s.capacity ≠ 0 ∧ s.size ≠ 0 ∧ s.size = s.capacity

/-- The call of the displace handler. -/
def displace (k : κ) (s : Lru κ ν) : Lru κ ν :=
  { s with displaced := s.displaced ++ ((s.storage.lookup k).map (k, ·)).toList }

/-- `m_storage.doRemove` -/
def doRemove (k : κ) (s : Lru κ ν) : Lru κ ν := { s with storage := s.storage.erase k }

/-- `m_queue.erase` -/
def unlink (k : κ) (s : Lru κ ν) : Lru κ ν := { s with queue := s.queue.erase k }

/-- `m_queue.push_back`: the list asserts that the item is not linked (`safe_link`). -/
def pushBack (k : κ) (s : Lru κ ν) : Option (Lru κ ν) :=
  if k ∈ s.queue then none else some { s with queue := s.queue ++ [k] }

/-- `checkFull`: nothing can be popped from an empty list. -/
def checkFull (s : Lru κ ν) : Option (Lru κ ν) :=
  if s.isFull then
    match s.queue with
    | [] => none
    | k :: _ => some (((s.unlink k).displace k).doRemove k)
  else some s

/-- `MapStorage::doInsert`: `insert_or_assign` -/
def doInsert (k : κ) (v : ν) (s : Lru κ ν) : Lru κ ν := { s with storage := s.storage.insert k v }

/-- `MapStorage::doEmplace`: `emplace` leaves an item that is there. -/
def doEmplace (k : κ) (v : ν) (s : Lru κ ν) : Lru κ ν :=
  if k ∈ s.storage then s else s.doInsert k v

/-- `pushItem` of an item with its key; an item that is assigned to stays linked. -/
def pushItem (k : κ) (v : ν) (s : Lru κ ν) : Option (Lru κ ν) := do
  let s ← s.checkFull
  (s.doInsert k v).pushBack k

/-- `emplaceItem` -/
def emplaceItem (k : κ) (v : ν) (s : Lru κ ν) : Option (Lru κ ν) := do
  let s ← s.checkFull
  let s := s.doEmplace k v
  (if k ∈ s.queue then s.unlink k else s).pushBack k

/-- `pushItem` with a key and an item. -/
def pushKeyItem (k : κ) (v : ν) (s : Lru κ ν) : Option (Lru κ ν) := s.emplaceItem k v

/-- `touchItem` -/
def touchItem (k : κ) (s : Lru κ ν) : Option (Lru κ ν) :=
  if k ∈ s.queue then
    if s.queue.getLast? = some k then some s else (s.unlink k).pushBack k
  else s.pushBack k

/-- `removeItem` of an item, by its key. -/
def removeItem (k : κ) (s : Lru κ ν) : Lru κ ν :=
  (if k ∈ s.queue then (s.unlink k).displace k else s).doRemove k

/-- `clear` -/
def clear (s : Lru κ ν) : Lru κ ν := { s with storage := ∅, queue := [] }

/-- The calls of a user; an item to touch or to remove is first looked up by its key. -/
inductive Op (κ ν : Type)
  | pushItem (k : κ) (v : ν)
  | pushKeyItem (k : κ) (v : ν)
  | emplaceItem (k : κ) (v : ν)
  | touchItem (k : κ)
  | removeItem (k : κ)
  | clear

def step (s : Lru κ ν) : Op κ ν → Option (Lru κ ν)
  | .pushItem k v => s.pushItem k v
  | .pushKeyItem k v => s.pushKeyItem k v
  | .emplaceItem k v => s.emplaceItem k v
  | .touchItem k => if k ∈ s.storage then s.touchItem k else some s
  | .removeItem k => if k ∈ s.storage then some (s.removeItem k) else some s
  | .clear => some s.clear

/-! ### What the cache is for -/

/-- The key and the value of a push. -/
def Op.pushed : Op κ ν → Option (κ × ν)
  | .pushItem k v | .pushKeyItem k v | .emplaceItem k v => some (k, v)
  | _ => none

/-- The key that is used. -/
def Op.used : Op κ ν → List κ
  | .pushItem k _ | .pushKeyItem k _ | .emplaceItem k _ | .touchItem k => [k]
  | _ => []

/-- The call on the keys in the order of last use. -/
def Op.apply (n : Nat) : Op κ ν → Recency κ ν → Recency κ ν
  | .pushItem k v, r | .pushKeyItem k v, r | .emplaceItem k v, r => r.put n k v
  | .touchItem k, r => r.touch k
  | .removeItem k, r => r.remove k
  | .clear, _ => .empty

/-- The cache has the keys of `r`, each linked once, in their order, and their values. -/
structure Shows (s : Lru κ ν) (r : Recency κ ν) : Prop where
  queue : s.queue = r.order
  lookup : ∀ k, s.storage.lookup k = r.value k

/-- The stored keys are those of the queue, each linked once; there is place for them, and they
are in the order in which they were used last. -/
structure Consistent (uses : List κ) (s : Lru κ ν) : Prop where
  nodup : s.queue.Nodup
  mem : ∀ k, k ∈ s.queue ↔ k ∈ s.storage
  size_le : s.capacity ≠ 0 → s.size ≤ s.capacity
  ordered : s.queue.Sublist uses.dedup

/-- The key of the item that has to go for a new one. -/
def evicted (s : Lru κ ν) : Option κ := if s.isFull then s.queue.head? else none

/-- The item of a key. -/
def itemOf (s : Lru κ ν) (k : κ) : List (κ × ν) := ((s.storage.lookup k).map (k, ·)).toList

/-- The item that a push of the key displaces: none, when the key is there. -/
def evicts (s : Lru κ ν) (k : κ) : List (κ × ν) :=
  if k ∈ s.storage then [] else s.evicted.toList.flatMap s.itemOf

/-- What a call promises: it is that of the order of last use; what is pushed is found; and
a push leaves all other items as they are, but for the one that has to go. -/
structure Meets (s : Lru κ ν) (op : Op κ ν) (t : Lru κ ν) : Prop where
  shows_ : ∀ r, s.Shows r → t.Shows (op.apply s.capacity r)
  found : ∀ k v, op.pushed = some (k, v) → t.storage.lookup k = some v
  kept : ∀ k v, op.pushed = some (k, v) → ∀ k', k' ≠ k →
    k ∈ s.storage ∨ s.evicted ≠ some k' → t.storage.lookup k' = s.storage.lookup k'
  displaced : ∀ k v, op.pushed = some (k, v) → t.displaced = s.displaced ++ s.evicts k

/-- All states and calls of a run are as they should be. -/
def Keeps : List κ → Lru κ ν → List (Op κ ν) → Prop
  | uses, s, [] => s.Consistent uses
  | uses, s, op :: ops => s.Consistent uses ∧
      ∃ t, s.step op = some t ∧ s.Meets op t ∧ Keeps (uses ++ op.used) t ops

/-- A push does not meet its key, unless with the same value and place enough. -/
def Regular (s : Lru κ ν) : Op κ ν → Prop
  | .pushItem k _ => k ∉ s.storage
  | .pushKeyItem k v | .emplaceItem k v =>
    k ∉ s.storage ∨ s.storage.lookup k = some v ∧ s.isFull = false
  | _ => True

/-- All calls of a run are regular. -/
def RegularRun : Lru κ ν → List (Op κ ν) → Prop
  | _, [] => True
  | s, op :: ops => s.Regular op ∧ ∀ t, s.step op = some t → RegularRun t ops

/-! ### The parts of a call -/

section
variable {s t : Lru κ ν} {r : Recency κ ν} {k : κ} {v : ν} {uses : List κ}

namespace Shows

theorem mem (h : s.Shows r) : k ∈ s.storage ↔ k ∈ r.order := by
  rw [← AList.lookup_isSome, h.lookup, r.mem_order]

theorem size_eq (h : s.Shows r) : s.size = r.order.length := by
  have hperm : s.storage.keys.Perm r.order :=
    (List.perm_ext_iff_of_nodup s.storage.keys_nodup r.nodup).mpr fun k => h.mem
  exact hperm.length_eq

theorem isFull_iff (h : s.Shows r) :
    s.isFull = true ↔ s.capacity ≠ 0 ∧ r.order.length = s.capacity := by
  rw [isFull, decide_eq_true_eq, h.size_eq]
  exact ⟨fun h => ⟨h.1, h.2.2⟩, fun h => ⟨h.1, h.2 ▸ h.1, h.2⟩⟩

theorem displaced (h : s.Shows r) (hk : k ∉ s.storage) : r.displaced s.capacity k = s.evicted := by
  rw [Recency.displaced, evicted, h.queue]
  by_cases hfull : s.isFull = true
  · rw [if_pos ⟨fun hmem => hk (h.mem.mpr hmem), h.isFull_iff.mp hfull⟩, if_pos hfull]
  · rw [if_neg fun h' => hfull (h.isFull_iff.mpr h'.2), if_neg hfull]

theorem evicted_of_full (h : s.Shows r) (hfull : s.isFull = true) : ∃ k' queue v',
    s.queue = k' :: queue ∧ s.evicted = some k' ∧ s.storage.lookup k' = some v' := by
  obtain ⟨hcap, hlen⟩ := h.isFull_iff.mp hfull
  cases hq : s.queue with
  | nil =>
    rw [← h.queue, hq] at hlen
    exact absurd hlen.symm hcap
  | cons k' queue =>
    have hmem : k' ∈ r.order := by
      rw [← h.queue, hq]
      exact List.mem_cons_self
    obtain ⟨v', hv'⟩ := Option.isSome_iff_exists.mp ((r.mem_order k').mp hmem)
    refine ⟨k', queue, v', rfl, ?_, (h.lookup k').trans hv'⟩
    rw [evicted, if_pos hfull, hq]
    rfl

/-- **Room for one more**: of a full cache the first item of the queue is displaced. -/
theorem checkFull (h : s.Shows r) : ∃ t, s.checkFull = some t ∧ t.Shows (r.without s.evicted) ∧
    t.displaced = s.displaced ++ s.evicted.toList.flatMap s.itemOf := by
  by_cases hfull : s.isFull = true
  · obtain ⟨k', queue, v', hq, hevicted, hv'⟩ := h.evicted_of_full hfull
    rw [hevicted]
    refine ⟨((s.unlink k').displace k').doRemove k', ?_, ⟨?_, fun k => ?_⟩, ?_⟩
    · rw [Lru.checkFull, if_pos hfull, hq]
    · show s.queue.erase k' = r.order.erase k'
      rw [h.queue]
    · show (s.storage.erase k').lookup k = Function.update r.value k' none k
      by_cases hk : k = k'
      · rw [hk, AList.lookup_erase, Function.update_self]
      · rw [AList.lookup_erase_ne hk, Function.update_of_ne hk, h.lookup]
    · rw [Option.toList_some, List.flatMap_singleton]
      rfl
  · rw [evicted, if_neg hfull]
    refine ⟨s, if_neg hfull, h, ?_⟩
    rw [Option.toList_none, List.flatMap_nil, List.append_nil]

/-- A new item is linked. -/
theorem insert (h : s.Shows r) (hk : k ∉ s.storage) (v : ν) : ∃ t,
    (s.doInsert k v).pushBack k = some t ∧ t.Shows (r.use k v) ∧ t.displaced = s.displaced := by
  have hnot : k ∉ r.order := fun hmem => hk (h.mem.mpr hmem)
  refine ⟨{ s.doInsert k v with queue := s.queue ++ [k] }, ?_, ⟨?_, fun k' => ?_⟩, rfl⟩
  · rw [pushBack, if_neg]
    · rfl
    · show k ∉ s.queue
      rw [h.queue]
      exact hnot
  · show s.queue ++ [k] = r.order.erase k ++ [k]
    rw [h.queue, List.erase_of_not_mem hnot]
  · show (s.storage.insert k v).lookup k' = Function.update r.value k (some v) k'
    by_cases hk' : k' = k
    · rw [hk', AList.lookup_insert, Function.update_self]
    · rw [AList.lookup_insert_ne hk', Function.update_of_ne hk', h.lookup]

/-- An item is linked again, behind all others. -/
theorem relink (h : s.Shows r) (hv : s.storage.lookup k = some v) : ∃ t,
    (s.unlink k).pushBack k = some t ∧ t.Shows (r.use k v) ∧ t.displaced = s.displaced ∧
      t.queue = s.queue.erase k ++ [k] := by
  refine ⟨{ s with queue := s.queue.erase k ++ [k] }, ?_, ⟨?_, fun k' => ?_⟩, rfl, rfl⟩
  · rw [pushBack, if_neg]
    · rfl
    · show k ∉ s.queue.erase k
      rw [h.queue]
      exact fun hmem => (r.nodup.mem_erase_iff.mp hmem).1 rfl
  · show s.queue.erase k ++ [k] = r.order.erase k ++ [k]
    rw [h.queue]
  · show s.storage.lookup k' = Function.update r.value k (some v) k'
    by_cases hk' : k' = k
    · rw [hk', Function.update_self, hv]
    · rw [Function.update_of_ne hk', h.lookup]

theorem mem_queue (h : s.Shows r) : k ∈ s.queue ↔ k ∈ s.storage := by
  rw [h.queue, h.mem]

end Shows

/-- The last item of a queue is where a use puts it. -/
theorem erase_concat_of_getLast? {l : List κ} (hl : l.Nodup) (h : l.getLast? = some k) :
    l.erase k ++ [k] = l := by
  obtain ⟨l', rfl⟩ := List.getLast?_eq_some_iff.mp h
  have hnot : k ∉ l' := fun hmem => (List.nodup_append.mp hl).2.2 k hmem k
    (List.mem_singleton_self k) rfl
  rw [List.erase_append_right _ hnot, List.erase_cons_head, List.append_nil]

theorem Shows.touchItem (h : s.Shows r) (hk : k ∈ s.storage) : ∃ t,
    s.touchItem k = some t ∧ t.Shows (r.touch k) ∧ t.displaced = s.displaced := by
  obtain ⟨v, hv⟩ := Option.isSome_iff_exists.mp (AList.lookup_isSome.mpr hk)
  rw [Lru.touchItem, if_pos (h.mem_queue.mpr hk), Recency.touch_eq ((h.lookup k).symm.trans hv)]
  obtain ⟨t, ht, hshows, hdisplaced, hqueue⟩ := h.relink hv
  by_cases hlast : s.queue.getLast? = some k
  · refine ⟨s, if_pos hlast, ⟨?_, fun k' => ?_⟩, rfl⟩
    · have hnodup : s.queue.Nodup := h.queue ▸ r.nodup
      rw [← hshows.queue, hqueue, erase_concat_of_getLast? hnodup hlast]
    · have hlookup := hshows.lookup k'
      rw [pushBack] at ht
      split at ht
      · cases ht
      · cases ht
        exact hlookup
  · exact ⟨t, (if_neg hlast).trans ht, hshows, hdisplaced⟩

theorem Shows.removeItem (h : s.Shows r) (hk : k ∈ s.storage) :
    (s.removeItem k).Shows (r.remove k) := by
  rw [Lru.removeItem, if_pos (h.mem_queue.mpr hk)]
  refine ⟨?_, fun k' => ?_⟩
  · show s.queue.erase k = r.order.erase k
    rw [h.queue]
  · show (s.storage.erase k).lookup k' = Function.update r.value k none k'
    by_cases hk' : k' = k
    · rw [hk', AList.lookup_erase, Function.update_self]
    · rw [AList.lookup_erase_ne hk', Function.update_of_ne hk', h.lookup]

/-! ### Calls -/

theorem Shows.pushItem (h : s.Shows r) (hk : k ∉ s.storage) (v : ν) : ∃ t,
    s.pushItem k v = some t ∧ t.Shows (r.put s.capacity k v) ∧
      t.displaced = s.displaced ++ s.evicts k := by
  obtain ⟨t₀, ht₀, hshows₀, hlog₀⟩ := h.checkFull
  have hnot : k ∉ t₀.storage := fun hmem => hk (h.mem.mpr (Recency.mem_of_mem_without (hshows₀.mem.mp hmem)))
  obtain ⟨t, ht, hshows, hlog⟩ := hshows₀.insert hnot v
  refine ⟨t, ?_, ?_, ?_⟩
  · rw [Lru.pushItem, ht₀]
    exact ht
  · rw [Recency.put, h.displaced hk]
    exact hshows
  · rw [hlog, hlog₀, evicts, if_neg hk]

/-- **Behind the room for one more**, an item that is new, or has the value that is pushed, is
linked behind all others. -/
theorem Shows.emplace (h : s.Shows r)
    (hk : (r.without s.evicted).value k = none ∨ (r.without s.evicted).value k = some v) : ∃ t,
      s.emplaceItem k v = some t ∧ t.Shows ((r.without s.evicted).use k v) ∧
        t.displaced = s.displaced ++ s.evicted.toList.flatMap s.itemOf := by
  obtain ⟨t₀, ht₀, hshows₀, hlog₀⟩ := h.checkFull
  rw [Lru.emplaceItem, ht₀]
  show ∃ t, (if k ∈ (t₀.doEmplace k v).queue then (t₀.doEmplace k v).unlink k
    else t₀.doEmplace k v).pushBack k = some t ∧ _
  rcases hk with hk | hk
  · have hnot : k ∉ t₀.storage := AList.lookup_eq_none.mp ((hshows₀.lookup k).trans hk)
    obtain ⟨t, ht, hshows, hlog⟩ := hshows₀.insert hnot v
    have hqueue : k ∉ (t₀.doInsert k v).queue := fun hmem => hnot (hshows₀.mem_queue.mp hmem)
    rw [doEmplace, if_neg hnot, if_neg hqueue]
    exact ⟨t, ht, hshows, hlog.trans hlog₀⟩
  · have hv : t₀.storage.lookup k = some v := (hshows₀.lookup k).trans hk
    have hmem : k ∈ t₀.storage := AList.lookup_isSome.mp (hv ▸ rfl)
    obtain ⟨t, ht, hshows, hlog, -⟩ := hshows₀.relink hv
    rw [doEmplace, if_pos hmem, if_pos (hshows₀.mem_queue.mpr hmem)]
    exact ⟨t, ht, hshows, hlog.trans hlog₀⟩

theorem evicted_of_not_full (h : s.isFull = false) : s.evicted = none :=
  if_neg fun h' => by
    rw [h] at h'
    cases h'

theorem checkFull_of_not_full (h : s.isFull = false) : s.checkFull = some s :=
  if_neg fun h' => by
    rw [h] at h'
    cases h'

theorem Shows.emplaceItem (h : s.Shows r)
    (hk : k ∉ s.storage ∨ s.storage.lookup k = some v ∧ s.isFull = false) : ∃ t,
      s.emplaceItem k v = some t ∧ t.Shows (r.put s.capacity k v) ∧
        t.displaced = s.displaced ++ s.evicts k := by
  by_cases hmem : k ∈ s.storage
  · obtain ⟨hv, hfull⟩ := hk.resolve_left (not_not.mpr hmem)
    have hsame := h.emplace (k := k) (v := v)
    rw [evicted_of_not_full hfull] at hsame
    obtain ⟨t, ht, hshows, hlog⟩ := hsame (.inr ((h.lookup k).symm.trans hv))
    refine ⟨t, ht, ?_, ?_⟩
    · rw [Recency.put, Recency.displaced_of_mem (h.mem.mp hmem)]
      exact hshows
    · rw [hlog, evicts, if_pos hmem]
      rfl
  · have hvalue : (r.without s.evicted).value k = none := by
      rw [Recency.value_eq_none]
      exact fun h' => hmem (h.mem.mpr (Recency.mem_of_mem_without h'))
    obtain ⟨t, ht, hshows, hlog⟩ := h.emplace (.inl hvalue)
    refine ⟨t, ht, ?_, ?_⟩
    · rw [Recency.put, h.displaced hmem]
      exact hshows
    · rw [hlog, evicts, if_neg hmem]

theorem Shows.unique {r' : Recency κ ν} (h : s.Shows r) (h' : s.Shows r') : r = r' :=
  Recency.ext (h.queue.symm.trans h'.queue) (funext fun k => (h.lookup k).symm.trans (h'.lookup k))

/-- What is pushed is found, and other items are kept. -/
theorem Shows.found (h : t.Shows (r.put s.capacity k v)) : t.storage.lookup k = some v :=
  (h.lookup k).trans Recency.value_put

theorem Shows.kept (h : s.Shows r) (ht : t.Shows (r.put s.capacity k v)) {k' : κ} (hk : k' ≠ k)
    (hevicted : k ∈ s.storage ∨ s.evicted ≠ some k') :
    t.storage.lookup k' = s.storage.lookup k' := by
  rw [ht.lookup, h.lookup]
  refine Recency.value_put_of_ne hk ?_
  by_cases hmem : k ∈ s.storage
  · rw [Recency.displaced_of_mem (h.mem.mp hmem)]
    exact nofun
  · rw [h.displaced hmem]
    exact hevicted.resolve_left hmem

/-- **A regular call** does what it promises. -/
theorem Shows.step (h : s.Shows r) {op : Op κ ν} (hop : s.Regular op) : ∃ t,
    s.step op = some t ∧ t.Shows (op.apply s.capacity r) ∧ s.Meets op t := by
  have hmeets : ∀ {t}, t.Shows (op.apply s.capacity r) →
      (∀ k v, op.pushed = some (k, v) → t.Shows (r.put s.capacity k v) ∧
        t.displaced = s.displaced ++ s.evicts k) → s.Meets op t := by
    intro t hshows hpush
    refine ⟨fun r' hr' => h.unique hr' ▸ hshows, fun k v hop => ?_, fun k v hop k' hk => ?_,
      fun k v hop => (hpush k v hop).2⟩
    · exact (hpush k v hop).1.found
    · exact h.kept (hpush k v hop).1 hk
  cases op with
  | pushItem k v =>
    obtain ⟨t, ht, hshows, hlog⟩ := h.pushItem hop v
    refine ⟨t, ht, hshows, hmeets hshows fun _ _ heq => ?_⟩
    cases heq
    exact ⟨hshows, hlog⟩
  | pushKeyItem k v | emplaceItem k v =>
    obtain ⟨t, ht, hshows, hlog⟩ := h.emplaceItem hop
    refine ⟨t, ht, hshows, hmeets hshows fun _ _ heq => ?_⟩
    cases heq
    exact ⟨hshows, hlog⟩
  | touchItem k =>
    by_cases hk : k ∈ s.storage
    · obtain ⟨t, ht, hshows, -⟩ := h.touchItem hk
      exact ⟨t, (if_pos hk).trans ht, hshows, hmeets hshows nofun⟩
    · have hsame : s.Shows (r.touch k) := by
        rw [Recency.touch_of_notMem fun hmem => hk (h.mem.mpr hmem)]
        exact h
      exact ⟨s, if_neg hk, hsame, hmeets hsame nofun⟩
  | removeItem k =>
    by_cases hk : k ∈ s.storage
    · exact ⟨s.removeItem k, if_pos hk, h.removeItem hk, hmeets (h.removeItem hk) nofun⟩
    · have hsame : s.Shows (r.remove k) := by
        refine ⟨?_, fun k' => ?_⟩
        · rw [h.queue]
          exact (List.erase_of_not_mem fun hmem => hk (h.mem.mpr hmem)).symm
        · show _ = Function.update r.value k none k'
          by_cases hk' : k' = k
          · rw [hk', Function.update_self, AList.lookup_eq_none.mpr hk]
          · rw [Function.update_of_ne hk', h.lookup]
      exact ⟨s, if_neg hk, hsame, hmeets hsame nofun⟩
  | clear =>
    have hempty : s.clear.Shows .empty := ⟨rfl, fun k => AList.lookup_empty k⟩
    exact ⟨s.clear, rfl, hempty, hmeets hempty nofun⟩

/-! ### What a call leaves as it is -/

theorem pushBack_eq_some (h : s.pushBack k = some t) :
    k ∉ s.queue ∧ t = { s with queue := s.queue ++ [k] } := by
  rw [pushBack] at h
  split at h
  · cases h
  · exact ⟨‹_›, (Option.some.inj h).symm⟩

theorem checkFull_capacity (h : s.checkFull = some t) : t.capacity = s.capacity := by
  rw [checkFull] at h
  split at h
  · split at h
    · cases h
    · cases h
      rfl
  · cases h
    rfl

theorem doEmplace_capacity : (s.doEmplace k v).capacity = s.capacity := by
  rw [doEmplace]
  split <;> rfl

theorem doEmplace_displaced : (s.doEmplace k v).displaced = s.displaced := by
  rw [doEmplace]
  split <;> rfl

theorem pushItem_capacity (h : s.pushItem k v = some t) : t.capacity = s.capacity := by
  obtain ⟨t₀, ht₀, ht⟩ := Option.bind_eq_some_iff.mp h
  obtain ⟨-, rfl⟩ := pushBack_eq_some ht
  have hcap : t₀.capacity = s.capacity := checkFull_capacity ht₀
  exact hcap

/-- `emplaceItem` changes the map by `doEmplace` only. -/
theorem emplaceItem_eq_some (h : s.emplaceItem k v = some t) : ∃ t₀, s.checkFull = some t₀ ∧
    t.capacity = t₀.capacity ∧ t.displaced = t₀.displaced ∧
      t.storage = (t₀.doEmplace k v).storage := by
  obtain ⟨t₀, ht₀, ht⟩ := Option.bind_eq_some_iff.mp h
  obtain ⟨-, rfl⟩ := pushBack_eq_some ht
  refine ⟨t₀, ht₀, ?_, ?_, ?_⟩
  · split
    · exact doEmplace_capacity
    · exact doEmplace_capacity
  · split
    · exact doEmplace_displaced
    · exact doEmplace_displaced
  · split <;> rfl

theorem touchItem_capacity (h : s.touchItem k = some t) : t.capacity = s.capacity := by
  rw [touchItem] at h
  split at h
  · split at h
    · cases h
      rfl
    · obtain ⟨-, rfl⟩ := pushBack_eq_some h
      rfl
  · obtain ⟨-, rfl⟩ := pushBack_eq_some h
    rfl

theorem removeItem_capacity : (s.removeItem k).capacity = s.capacity := by
  rw [removeItem]
  split <;> rfl

theorem step_capacity {op : Op κ ν} (h : s.step op = some t) : t.capacity = s.capacity := by
  cases op with
  | pushItem k v => exact pushItem_capacity h
  | pushKeyItem k v | emplaceItem k v =>
    obtain ⟨t₀, ht₀, hcap, -⟩ := emplaceItem_eq_some h
    exact hcap.trans (checkFull_capacity ht₀)
  | touchItem k =>
    by_cases hk : k ∈ s.storage
    · exact touchItem_capacity ((if_pos hk).symm.trans h)
    · have hs : some s = some t := (if_neg hk).symm.trans h
      cases hs
      rfl
  | removeItem k =>
    by_cases hk : k ∈ s.storage
    · have hs : some (s.removeItem k) = some t := (if_pos hk).symm.trans h
      cases hs
      exact removeItem_capacity
    · have hs : some s = some t := (if_neg hk).symm.trans h
      cases hs
      rfl
  | clear =>
    cases h
    rfl

/-! ### Pushes that meet their keys -/

/-- A push that meets its key in a full cache displaces an item. -/
theorem Shows.not_full_of_evicts (h : s.Shows r) (hk : k ∈ s.storage) {t₀ : Lru κ ν}
    (ht₀ : s.checkFull = some t₀) (hlog : t₀.displaced = s.displaced ++ s.evicts k) :
    s.isFull = false := by
  by_contra hfull
  obtain ⟨k', -, v', -, hevicted, hv'⟩ := h.evicted_of_full (Bool.not_eq_false _ ▸ hfull)
  obtain ⟨t₁, ht₁, -, hlog₁⟩ := h.checkFull
  obtain rfl : t₁ = t₀ := Option.some.inj (ht₁.symm.trans ht₀)
  rw [hlog₁, evicts, if_pos hk, hevicted, Option.toList_some, List.flatMap_singleton, itemOf,
    hv'] at hlog
  exact List.cons_ne_nil _ _ (List.append_cancel_left hlog)

/-- **A call that is not regular** breaks a promise. -/
theorem Shows.regular (h : s.Shows r) {op : Op κ ν} (ht : s.step op = some t)
    (hmeets : s.Meets op t) : s.Regular op := by
  cases op with
  | pushItem k v =>
    intro hk
    obtain ⟨t₀, ht₀, ht⟩ := Option.bind_eq_some_iff.mp ht
    obtain ⟨hnot, rfl⟩ := pushBack_eq_some ht
    have hfull := h.not_full_of_evicts hk ht₀ (hmeets.displaced k v rfl)
    rw [checkFull_of_not_full hfull] at ht₀
    cases ht₀
    exact hnot (h.mem_queue.mpr hk)
  | pushKeyItem k v | emplaceItem k v =>
    refine or_iff_not_imp_left.mpr fun hk => ?_
    have hk := not_not.mp hk
    obtain ⟨t₀, ht₀, -, hdisplaced, hstorage⟩ := emplaceItem_eq_some ht
    have hfull := h.not_full_of_evicts hk ht₀ (hdisplaced.symm.trans (hmeets.displaced k v rfl))
    rw [checkFull_of_not_full hfull] at ht₀
    cases ht₀
    have hfound := hmeets.found k v rfl
    rw [hstorage, doEmplace, if_pos hk] at hfound
    exact ⟨hfound, hfull⟩
  | touchItem k => trivial
  | removeItem k => trivial
  | clear => trivial

/-! ### Runs -/

/-- A consistent cache as keys in the order of last use. -/
def Consistent.view (h : s.Consistent uses) : Recency κ ν where
  order := s.queue
  value := fun k => s.storage.lookup k
  nodup := h.nodup
  mem_order k := (h.mem k).trans AList.lookup_isSome.symm

theorem Consistent.shows_view (h : s.Consistent uses) : s.Shows h.view := ⟨rfl, fun _ => rfl⟩

theorem Shows.consistent (h : s.Shows r)
    (hlen : s.capacity ≠ 0 → r.order.length ≤ s.capacity) (hordered : r.Ordered uses) :
    s.Consistent uses := by
  refine ⟨h.queue ▸ r.nodup, fun k => h.mem_queue, fun hcap => ?_, ?_⟩
  · rw [h.size_eq]
    exact hlen hcap
  · rw [h.queue]
    exact hordered

theorem Op.apply_ordered (h : r.Ordered uses) (n : Nat) (op : Op κ ν) :
    (op.apply n r).Ordered (uses ++ op.used) := by
  cases op with
  | pushItem k v | pushKeyItem k v | emplaceItem k v => exact h.put n k v
  | touchItem k => exact h.touch k
  | removeItem k =>
    show (r.remove k).Ordered (uses ++ [])
    rw [List.append_nil]
    exact h.remove k
  | clear => exact List.nil_sublist _

theorem Op.length_apply_le {n : Nat} (hn : n ≠ 0) (h : r.order.length ≤ n) (op : Op κ ν) :
    (op.apply n r).order.length ≤ n := by
  cases op with
  | pushItem k v | pushKeyItem k v | emplaceItem k v => exact Recency.length_put_le hn h
  | touchItem k =>
    rw [Op.apply, Recency.length_touch]
    exact h
  | removeItem k => exact le_trans Recency.length_remove_le h
  | clear => exact Nat.zero_le n

/-- The step: a consistent cache stays consistent under a regular call. -/
theorem Consistent.step (h : s.Consistent uses) {op : Op κ ν} (hop : s.Regular op) : ∃ t,
    s.step op = some t ∧ s.Meets op t ∧ t.Consistent (uses ++ op.used) := by
  obtain ⟨t, ht, hshows, hmeets⟩ := h.shows_view.step hop
  have hordered : h.view.Ordered uses := h.ordered
  refine ⟨t, ht, hmeets, hshows.consistent (fun hcap => ?_) (op.apply_ordered hordered _)⟩
  rw [step_capacity ht] at hcap ⊢
  refine Op.length_apply_le hcap ?_ op
  rw [← h.shows_view.size_eq]
  exact h.size_le hcap

theorem Consistent.keepsRun_iff {ops : List (Op κ ν)} : ∀ {uses : List κ} {s : Lru κ ν},
    s.Consistent uses → (Keeps uses s ops ↔ s.RegularRun ops) := by
  induction ops with
  | nil => exact fun h => iff_of_true h trivial
  | cons op ops ih =>
    intro uses s h
    constructor
    · rintro ⟨-, t, ht, hmeets, hkeeps⟩
      have hop := h.shows_view.regular ht hmeets
      refine ⟨hop, fun t' ht' => ?_⟩
      obtain rfl : t = t' := Option.some.inj (ht.symm.trans ht')
      obtain ⟨t', ht', -, hcons⟩ := h.step hop
      obtain rfl : t = t' := Option.some.inj (ht.symm.trans ht')
      exact (ih hcons).mp hkeeps
    · rintro ⟨hop, hrun⟩
      obtain ⟨t, ht, hmeets, hcons⟩ := h.step hop
      exact ⟨h, t, ht, hmeets, (ih hcons).mpr (hrun t ht)⟩

theorem start_consistent (capacity : Nat) : (start capacity : Lru κ ν).Consistent [] :=
  ⟨.nil, fun _ => iff_of_false List.not_mem_nil (AList.notMem_empty _), fun _ => Nat.zero_le _,
    .slnil⟩

/-- **The cache does what it is for**, in all states of a run and in all calls, just when no
push meets its key, unless with the same value and place enough. -/
theorem keeps_iff (capacity : Nat) (ops : List (Op κ ν)) :
    Keeps [] (start capacity) ops ↔ (start capacity).RegularRun ops :=
  (start_consistent capacity).keepsRun_iff

end

/-- **A value is not replaced**: the second push of a key leaves the first value. -/
theorem not_keeps : ¬ ∀ (capacity : Nat) (ops : List (Op Nat Nat)),
    Keeps [] (start capacity) ops := by
  intro h
  obtain ⟨-, t, ht, -, -, t', ht', hmeets, -⟩ := h 2 [.emplaceItem 1 10, .emplaceItem 1 20]
  cases ht
  cases ht'
  exact absurd (hmeets.found 1 20 rfl) (by decide)

end Lru

end Hatn.Common
