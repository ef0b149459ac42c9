import Hatn.Common.LruTtlEntries

/-!
# The objects cache

`ObjectsCache` keeps objects in memory in three caches with expiration, by their local, server
and global ids.  A call goes to the caches of the ids that its uid carries, so the copies of one
object are put, touched and removed apart from each other.

`coherent_iff` looks at one object.  Behind a put with all its ids, the caches should serve the
value of this put or nothing, and behind a removal with all its ids nothing.  This is so in all
states of a run just when no put with all ids meets another value that is still served: a push
leaves the item that it meets.
-/

namespace Hatn.Clientserver

open Common Common.LruTtl

section
variable {κ₁ κ₂ κ₃ δ : Type}

/-- The ids of an object; a uid may carry a part of them. -/
structure Uid (κ₁ κ₂ κ₃ : Type) where
  local_ : Option κ₁
  server : Option κ₂
  global : Option κ₃
  deriving DecidableEq

/-- An object with the uid of its field `with_uid::uid`. -/
structure Object (κ₁ κ₂ κ₃ δ : Type) where
  uid : Uid κ₁ κ₂ κ₃
  data : δ

/-- The value of an item; a null pointer is the mark of a deleted object. -/
abbrev Value (κ₁ κ₂ κ₃ δ : Type) := Option (Object κ₁ κ₂ κ₃ δ)

/-- The started cache. -/
structure ObjectsCache (κ₁ κ₂ κ₃ δ : Type) [DecidableEq κ₁] [DecidableEq κ₂] [DecidableEq κ₃] where
  localCache : LruTtl κ₁ (Value κ₁ κ₂ κ₃ δ)
  serverCache : LruTtl κ₂ (Value κ₁ κ₂ κ₃ δ)
  guidCache : LruTtl κ₃ (Value κ₁ κ₂ κ₃ δ)
  stopped : Bool

variable [DecidableEq κ₁] [DecidableEq κ₂] [DecidableEq κ₃]

namespace ObjectsCache

/-- `start` of a new cache. -/
def start (ttlSeconds capacity : Nat) : ObjectsCache κ₁ κ₂ κ₃ δ where
  localCache := .start (ttlSeconds * 1000) capacity
  serverCache := .start (ttlSeconds * 1000) capacity
  guidCache := .start (ttlSeconds * 1000) capacity
  stopped := false

/-- A call of a cache for an id that is set; no item has the key of an id that is not. -/
def forId {κ ν : Type} [DecidableEq κ] (call : κ → LruTtl κ ν → Option (LruTtl κ ν)) :
    Option κ → LruTtl κ ν → Option (LruTtl κ ν)
  | none, cache => some cache
  | some k, cache => call k cache

/-- The uid of a put: without one, that of the item. -/
def putUid (item : Value κ₁ κ₂ κ₃ δ) (uid : Option (Uid κ₁ κ₂ κ₃)) : Option (Uid κ₁ κ₂ κ₃) :=
  match item, uid with
  | some object, none => some object.uid
  | _, uid => uid

/-- `put`, in memory. -/
def put (now : Nat) (item : Value κ₁ κ₂ κ₃ δ) (uid : Option (Uid κ₁ κ₂ κ₃))
    (s : ObjectsCache κ₁ κ₂ κ₃ δ) : Option (ObjectsCache κ₁ κ₂ κ₃ δ) :=
  match putUid item uid with
  | none => some s
  | some uid =>
    if s.stopped then some s
    else do
      let localCache ← forId (fun k => pushItem now k item) uid.local_ s.localCache
      let serverCache ← forId (fun k => pushItem now k item) uid.server s.serverCache
      let guidCache ← forId (fun k => pushItem now k item) uid.global s.guidCache
      return { s with localCache := localCache, serverCache := serverCache, guidCache := guidCache }

/-- `remove`, in memory. -/
def remove (now : Nat) (uid : Uid κ₁ κ₂ κ₃) (s : ObjectsCache κ₁ κ₂ κ₃ δ) :
    ObjectsCache κ₁ κ₂ κ₃ δ :=
  { s with
    localCache := uid.local_.elim s.localCache fun k => s.localCache.remove now k
    serverCache := uid.server.elim s.serverCache fun k => s.serverCache.remove now k
    guidCache := uid.global.elim s.guidCache fun k => s.guidCache.remove now k }

/-- `touch`, in memory. -/
def touch (now : Nat) (uid : Uid κ₁ κ₂ κ₃) (s : ObjectsCache κ₁ κ₂ κ₃ δ) :
    Option (ObjectsCache κ₁ κ₂ κ₃ δ) := do
  let localCache ← forId (LruTtl.touch now) uid.local_ s.localCache
  let serverCache ← forId (LruTtl.touch now) uid.server s.serverCache
  let guidCache ← forId (LruTtl.touch now) uid.global s.guidCache
  return { s with localCache := localCache, serverCache := serverCache, guidCache := guidCache }

/-- The item that a cache serves for an id that is set. -/
def found {κ ν : Type} [DecidableEq κ] (now : Nat) (id : Option κ) (cache : LruTtl κ ν) :
    Option ν :=
  id.bind (cache.get now)

/-- What `get` finds: the first of the local, the server and the global id that is served. -/
def find (now : Nat) (uid : Uid κ₁ κ₂ κ₃) (s : ObjectsCache κ₁ κ₂ κ₃ δ) :
    Option (Value κ₁ κ₂ κ₃ δ) :=
  match found now uid.local_ s.localCache with
  | some value => some value
  | none =>
    match found now uid.server s.serverCache with
    | some value => some value
    | none => found now uid.global s.guidCache

/-- `get`, in memory: the caches are touched up to the first that serves. -/
def get (now : Nat) (uid : Uid κ₁ κ₂ κ₃) (s : ObjectsCache κ₁ κ₂ κ₃ δ) :
    Option (ObjectsCache κ₁ κ₂ κ₃ δ) := do
  let localCache ← forId (getAndTouch now) uid.local_ s.localCache
  let serverCache ←
    forId (getAndTouch now) (if (found now uid.local_ s.localCache).isSome then none else uid.server)
      s.serverCache
  let guidCache ←
    forId (getAndTouch now)
      (if (found now uid.local_ s.localCache).isSome || (found now uid.server s.serverCache).isSome
        then none else uid.global)
      s.guidCache
  return { s with localCache := localCache, serverCache := serverCache, guidCache := guidCache }

/-- A call, or a tick of the timer of one cache. -/
inductive Event (κ₁ κ₂ κ₃ δ : Type)
  | put (item : Value κ₁ κ₂ κ₃ δ) (uid : Option (Uid κ₁ κ₂ κ₃))
  | remove (uid : Uid κ₁ κ₂ κ₃)
  | touch (uid : Uid κ₁ κ₂ κ₃)
  | get (uid : Uid κ₁ κ₂ κ₃)
  | tickLocal
  | tickServer
  | tickGuid

def step (now : Nat) (s : ObjectsCache κ₁ κ₂ κ₃ δ) :
    Event κ₁ κ₂ κ₃ δ → Option (ObjectsCache κ₁ κ₂ κ₃ δ)
  | .put item uid => s.put now item uid
  | .remove uid => some (s.remove now uid)
  | .touch uid => s.touch now uid
  | .get uid => s.get now uid
  | .tickLocal => some { s with localCache := s.localCache.tick now }
  | .tickServer => some { s with serverCache := s.serverCache.tick now }
  | .tickGuid => some { s with guidCache := s.guidCache.tick now }

/-! ### What the cache is for -/

/-- The uid carries no ids but those of the object. -/
def Names (uid object : Uid κ₁ κ₂ κ₃) : Prop :=
  (uid.local_ = none ∨ uid.local_ = object.local_) ∧
    (uid.server = none ∨ uid.server = object.server) ∧
      (uid.global = none ∨ uid.global = object.global)

/-- The uid carries an id of the object. -/
def Shares (uid object : Uid κ₁ κ₂ κ₃) : Prop :=
  uid.local_ ≠ none ∧ uid.local_ = object.local_ ∨
    uid.server ≠ none ∧ uid.server = object.server ∨
      uid.global ≠ none ∧ uid.global = object.global

instance (uid object : Uid κ₁ κ₂ κ₃) : Decidable (Shares uid object) :=
  inferInstanceAs (Decidable (_ ∨ _))

/-- What was done last with the object: put with all its ids, removed with all of them or never
there, or put with a part of them. -/
inductive Latest (κ₁ κ₂ κ₃ δ : Type)
  | put (item : Value κ₁ κ₂ κ₃ δ)
  | removed
  | partly

def Latest.after (object : Uid κ₁ κ₂ κ₃) (latest : Latest κ₁ κ₂ κ₃ δ) :
    Event κ₁ κ₂ κ₃ δ → Latest κ₁ κ₂ κ₃ δ
  | .put item uid =>
    match putUid item uid with
    | none => latest
    | some uid => if uid = object then .put item else if Shares uid object then .partly else latest
  | .remove uid => if uid = object then .removed else latest
  | _ => latest

/-- The values that may be served; behind a put with a part of the ids nothing is promised. -/
def Latest.Allows : Latest κ₁ κ₂ κ₃ δ → Value κ₁ κ₂ κ₃ δ → Prop
  | .put item, value => value = item
  | .removed, _ => False
  | .partly, _ => True

/-- From now on a get by any ids of the object finds what is allowed, or nothing. -/
def Serves (now : Nat) (object : Uid κ₁ κ₂ κ₃) (latest : Latest κ₁ κ₂ κ₃ δ)
    (s : ObjectsCache κ₁ κ₂ κ₃ δ) : Prop :=
  ∀ at_, now ≤ at_ → ∀ uid, Names uid object → ∀ value, s.find at_ uid = some value →
    latest.Allows value

/-- **Coherence**: in a run all calls return, and in all states what is served is allowed. -/
def Coherent (object : Uid κ₁ κ₂ κ₃) : Latest κ₁ κ₂ κ₃ δ → ObjectsCache κ₁ κ₂ κ₃ δ →
    List (Nat × Event κ₁ κ₂ κ₃ δ) → Prop
  | _, _, [] => True
  | latest, s, (now, e) :: es => ∃ t, s.step now e = some t ∧
      t.Serves now object (latest.after object e) ∧ Coherent object (latest.after object e) t es

/-- The item that a push meets is expired, has the value already, or has to go for it. -/
def Fits {κ ν : Type} [DecidableEq κ] (now : Nat) (id : Option κ) (v : ν) (cache : LruTtl κ ν) :
    Prop :=
  ∀ k, id = some k → ∀ i, cache.entry k = some i →
    isExpired cache.ttlMs now i = true ∨ i.item = v ∨ cache.lru.evicted = some k

/-- A put with all ids of the object fits in the three caches. -/
def Regular (object : Uid κ₁ κ₂ κ₃) (now : Nat) (s : ObjectsCache κ₁ κ₂ κ₃ δ) :
    Event κ₁ κ₂ κ₃ δ → Prop
  | .put item uid => putUid item uid = some object →
    Fits now object.local_ item s.localCache ∧ Fits now object.server item s.serverCache ∧
      Fits now object.global item s.guidCache
  | _ => True

def RegularRun (object : Uid κ₁ κ₂ κ₃) : ObjectsCache κ₁ κ₂ κ₃ δ →
    List (Nat × Event κ₁ κ₂ κ₃ δ) → Prop
  | _, [] => True
  | s, (now, e) :: es => s.Regular object now e ∧
      ∀ t, s.step now e = some t → RegularRun object t es

/-! ### One cache -/

section
variable {κ ν : Type} [DecidableEq κ] {now now' : Nat} {id u : Option κ} {ok : ν → Prop}
  {cache : LruTtl κ ν} {v : ν}

/-- What the cache has for the id is expired or as it should be. -/
structure Kept (now : Nat) (id : Option κ) (ok : ν → Prop) (cache : LruTtl κ ν) : Prop where
  linked : cache.Linked
  holds : ∀ k, id = some k → ∀ i, cache.entry k = some i →
    isExpired cache.ttlMs now i = true ∨ ok i.item

theorem Kept.mono (h : Kept now id ok cache) (hle : now ≤ now') : Kept now' id ok cache :=
  ⟨h.linked, fun k hk i hi => (h.holds k hk i hi).imp_left (isExpired_mono hle)⟩

/-- Items that stay as they are, or go, are kept. -/
theorem Kept.of_entry (h : Kept now id ok cache) {cache' : LruTtl κ ν} (hlinked : cache'.Linked)
    (httl : cache'.ttlMs = cache.ttlMs)
    (hentry : ∀ k, id = some k → cache'.entry k = cache.entry k ∨ cache'.entry k = none) :
    Kept now id ok cache' := by
  refine ⟨hlinked, fun k hk i hi => ?_⟩
  obtain heq | hnone := hentry k hk
  · rw [httl]
    exact h.holds k hk i (heq ▸ hi)
  · exact absurd (hi.symm.trans hnone) (Option.some_ne_none i)

/-- An item that is served is as it should be. -/
theorem Kept.found (h : Kept now id ok cache) (hle : now ≤ now') (hu : u = none ∨ u = id)
    (hfound : ObjectsCache.found now' u cache = some v) : ok v := by
  obtain rfl | rfl := hu
  · cases hfound
  cases u with
  | none => cases hfound
  | some k =>
    have hlive : live cache.ttlMs now' (cache.entry k) = some v := hfound
    cases hi : cache.entry k with
    | none =>
      rw [hi] at hlive
      cases hlive
    | some i =>
      rw [hi] at hlive
      cases hexpired : isExpired cache.ttlMs now' i with
      | true =>
        rw [live_of_expired hexpired] at hlive
        cases hlive
      | false =>
        rw [live_of_not_expired hexpired] at hlive
        obtain rfl := Option.some.inj hlive
        refine (h.holds k rfl i hi).resolve_left fun h' => ?_
        rw [isExpired_mono hle h'] at hexpired
        cases hexpired

/-- What is served now is as it should be, so it is later. -/
theorem kept_of_found (hlinked : cache.Linked)
    (h : ∀ v, ObjectsCache.found now id cache = some v → ok v) : Kept now id ok cache := by
  refine ⟨hlinked, fun k hk i hi => ?_⟩
  cases hexpired : isExpired cache.ttlMs now i with
  | true => exact .inl rfl
  | false =>
    refine .inr (h i.item ?_)
    rw [hk]
    show live cache.ttlMs now (cache.entry k) = some i.item
    rw [hi, live_of_not_expired hexpired]

/-- **A push**: by the id it keeps what it should just when it fits; by another id it keeps
what is there. -/
theorem Kept.push (h : Kept now id ok cache) (u : Option κ) (v : ν) : ∃ t,
    forId (fun k => pushItem now k v) u cache = some t ∧ t.Linked ∧
      (u = id → (Fits now id v cache ↔ Kept now id (· = v) t)) ∧
        (u = none ∨ u ≠ id → Kept now id ok t) := by
  cases u with
  | none =>
    refine ⟨cache, rfl, h.linked, ?_, fun _ => h⟩
    rintro rfl
    exact iff_of_true nofun ⟨h.linked, nofun⟩
  | some k =>
    obtain ⟨t, ht, httl, hlinked, hself, hother⟩ := h.linked.pushItem now k v
    refine ⟨t, ht, hlinked, ?_, fun hne => h.of_entry hlinked httl fun k' hk' => ?_⟩
    · rintro rfl
      constructor
      · refine fun hfits => ⟨hlinked, fun k' hk' i hi => ?_⟩
        obtain rfl := Option.some.inj hk'
        rw [httl]
        rw [hself] at hi
        split at hi
        · obtain rfl := Option.some.inj hi
          exact .inr rfl
        · next hevicted =>
          cases hentry : cache.entry k with
          | none =>
            rw [hentry] at hi
            obtain rfl := Option.some.inj hi
            exact .inr rfl
          | some i' =>
            rw [hentry] at hi
            obtain rfl := Option.some.inj hi
            exact (hfits k rfl _ hentry).imp_right fun h' => h'.resolve_right hevicted
      · intro hkept k' hk' i hi
        obtain rfl := Option.some.inj hk'
        by_cases hevicted : cache.lru.evicted = some k
        · exact .inr (.inr hevicted)
        · rw [if_neg hevicted, hi] at hself
          have hholds := hkept.holds k rfl i hself
          rw [httl] at hholds
          exact hholds.imp_right .inl
    · refine hother k' ?_
      rintro rfl
      exact (hne.resolve_left (Option.some_ne_none k')) hk'.symm

/-- A touch keeps what is there. -/
theorem Kept.getAndTouch (h : Kept now id ok cache) (u : Option κ) : ∃ t,
    forId (LruTtl.getAndTouch now) u cache = some t ∧ Kept now id ok t := by
  cases u with
  | none => exact ⟨cache, rfl, h⟩
  | some k =>
    obtain ⟨t, ht, httl, hlinked, hother, hself⟩ := h.linked.getAndTouch now k
    refine ⟨t, ht, hlinked, fun k' hk' i hi => ?_⟩
    rw [httl]
    by_cases heq : k' = k
    · subst heq
      obtain hself | ⟨i', hi', hexpired, hrenewed⟩ := hself
      · exact h.holds k' hk' i (hself ▸ hi)
      · obtain rfl := Option.some.inj (hi.symm.trans hrenewed)
        refine .inr ((h.holds k' hk' i' hi').resolve_left fun h' => ?_)
        rw [hexpired] at h'
        cases h'
    · exact h.holds k' hk' i (hother k' heq ▸ hi)

/-- A removal keeps what is there, and by the id of the object leaves nothing that is served. -/
theorem Kept.remove (h : Kept now id ok cache) (u : Option κ) :
    Kept now id ok (u.elim cache fun k => cache.remove now k) ∧
      (u = id → Kept now id (fun _ => False) (u.elim cache fun k => cache.remove now k)) := by
  cases u with
  | none =>
    refine ⟨h, ?_⟩
    rintro rfl
    exact ⟨h.linked, nofun⟩
  | some k =>
    obtain ⟨httl, hlinked, hentry, hself⟩ := h.linked.remove now k
    refine ⟨h.of_entry hlinked httl fun k' _ => hentry k', ?_⟩
    rintro rfl
    refine ⟨hlinked, fun k' hk' i hi => ?_⟩
    obtain rfl := Option.some.inj hk'
    exact .inl (httl ▸ hself i hi)

theorem Kept.tick (h : Kept now id ok cache) : Kept now id ok (cache.tick now) := by
  obtain ⟨hlinked, hentry⟩ := h.linked.tick now
  exact h.of_entry hlinked rfl fun k _ => hentry k

end

/-! ### The three caches -/

section
variable {now now' : Nat} {object : Uid κ₁ κ₂ κ₃} {latest : Latest κ₁ κ₂ κ₃ δ}
  {s t : ObjectsCache κ₁ κ₂ κ₃ δ}

/-- What the caches have for the object is expired or allowed. -/
structure Inv (now : Nat) (object : Uid κ₁ κ₂ κ₃) (latest : Latest κ₁ κ₂ κ₃ δ)
    (s : ObjectsCache κ₁ κ₂ κ₃ δ) : Prop where
  local_ : Kept now object.local_ latest.Allows s.localCache
  server : Kept now object.server latest.Allows s.serverCache
  global : Kept now object.global latest.Allows s.guidCache
  started : s.stopped = false

theorem Inv.mono (h : Inv now object latest s) (hle : now ≤ now') : Inv now' object latest s :=
  ⟨h.local_.mono hle, h.server.mono hle, h.global.mono hle, h.started⟩

theorem Inv.serves (h : Inv now object latest s) : s.Serves now object latest := by
  rintro at_ hat uid ⟨hlocal, hserver, hglobal⟩ value hfind
  rw [find] at hfind
  split at hfind
  · next v hv =>
    obtain rfl := Option.some.inj hfind
    exact h.local_.found hat hlocal hv
  split at hfind
  · next v hv =>
    obtain rfl := Option.some.inj hfind
    exact h.server.found hat hserver hv
  · exact h.global.found hat hglobal hfind

/-- By one id of the object alone, its cache is asked. -/
theorem Serves.found (h : s.Serves now object latest) :
    (∀ v, ObjectsCache.found now object.local_ s.localCache = some v → latest.Allows v) ∧
      (∀ v, ObjectsCache.found now object.server s.serverCache = some v → latest.Allows v) ∧
        ∀ v, ObjectsCache.found now object.global s.guidCache = some v → latest.Allows v := by
  refine ⟨fun v hv => ?_, fun v hv => ?_, fun v hv => ?_⟩
  · refine h now (Nat.le_refl now) ⟨object.local_, none, none⟩ ⟨.inr rfl, .inl rfl, .inl rfl⟩ v ?_
    rw [find, hv]
  · refine h now (Nat.le_refl now) ⟨none, object.server, none⟩ ⟨.inl rfl, .inr rfl, .inl rfl⟩ v ?_
    have hnone : ObjectsCache.found now none s.localCache = none := rfl
    rw [find, hnone]
    dsimp only
    rw [hv]
  · exact h now (Nat.le_refl now) ⟨none, none, object.global⟩ ⟨.inl rfl, .inl rfl, .inr rfl⟩ v hv

/-- The pushes of a put. -/
theorem Inv.put (h : Inv now object latest s) (item : Value κ₁ κ₂ κ₃ δ) {u : Uid κ₁ κ₂ κ₃}
    {uid : Option (Uid κ₁ κ₂ κ₃)} (hu : putUid item uid = some u) : ∃ t,
      s.put now item uid = some t ∧
      (u = object → s.Regular object now (.put item uid) → Inv now object (.put item) t) ∧
        (u = object → t.Serves now object (.put item) → s.Regular object now (.put item uid)) ∧
          Inv now object .partly t ∧ (¬ Shares u object → Inv now object latest t) := by
  obtain ⟨localCache, hlocal, hlinked₁, hfits₁, hother₁⟩ := h.local_.push u.local_ item
  obtain ⟨serverCache, hserver, hlinked₂, hfits₂, hother₂⟩ := h.server.push u.server item
  obtain ⟨guidCache, hguid, hlinked₃, hfits₃, hother₃⟩ := h.global.push u.global item
  refine ⟨⟨localCache, serverCache, guidCache, s.stopped⟩, ?_, ?_, ?_, ?_, ?_⟩
  · rw [ObjectsCache.put, hu]
    simp only [h.started, Bool.false_eq_true, if_false, hlocal, hserver, hguid]
    rfl
  · rintro rfl hregular
    obtain ⟨h₁, h₂, h₃⟩ := hregular hu
    exact ⟨(hfits₁ rfl).mp h₁, (hfits₂ rfl).mp h₂, (hfits₃ rfl).mp h₃, h.started⟩
  · rintro rfl hserves -
    obtain ⟨h₁, h₂, h₃⟩ := hserves.found
    exact ⟨(hfits₁ rfl).mpr (kept_of_found hlinked₁ h₁),
      (hfits₂ rfl).mpr (kept_of_found hlinked₂ h₂), (hfits₃ rfl).mpr (kept_of_found hlinked₃ h₃)⟩
  · exact ⟨⟨hlinked₁, fun _ _ _ _ => .inr trivial⟩, ⟨hlinked₂, fun _ _ _ _ => .inr trivial⟩,
      ⟨hlinked₃, fun _ _ _ _ => .inr trivial⟩, h.started⟩
  · intro hshares
    rw [Shares, not_or, not_or] at hshares
    obtain ⟨h₁, h₂, h₃⟩ := hshares
    exact ⟨hother₁ (not_and_or.mp h₁ |>.imp_left not_not.mp),
      hother₂ (not_and_or.mp h₂ |>.imp_left not_not.mp),
      hother₃ (not_and_or.mp h₃ |>.imp_left not_not.mp), h.started⟩

/-- **A step** whose put fits serves what is allowed. -/
theorem Inv.step (h : Inv now object latest s) {e : Event κ₁ κ₂ κ₃ δ}
    (he : s.Regular object now e) : ∃ t, s.step now e = some t ∧
      Inv now object (latest.after object e) t := by
  cases e with
  | put item uid =>
    rw [Latest.after]
    cases hu : putUid item uid with
    | none =>
      refine ⟨s, ?_, h⟩
      rw [ObjectsCache.step, ObjectsCache.put, hu]
    | some u =>
      obtain ⟨t, ht, hfull, -, hpartly, hother⟩ := h.put item hu
      refine ⟨t, ht, ?_⟩
      dsimp only
      split
      · next heq => exact hfull heq he
      split
      · exact hpartly
      · next hshares => exact hother hshares
  | remove uid =>
    obtain ⟨h₁, hall₁⟩ := h.local_.remove uid.local_
    obtain ⟨h₂, hall₂⟩ := h.server.remove uid.server
    obtain ⟨h₃, hall₃⟩ := h.global.remove uid.global
    refine ⟨_, rfl, ?_⟩
    rw [Latest.after]
    split
    · next heq =>
      obtain rfl := heq
      exact ⟨hall₁ rfl, hall₂ rfl, hall₃ rfl, h.started⟩
    · exact ⟨h₁, h₂, h₃, h.started⟩
  | touch uid =>
    obtain ⟨localCache, hlocal, h₁⟩ := h.local_.getAndTouch uid.local_
    obtain ⟨serverCache, hserver, h₂⟩ := h.server.getAndTouch uid.server
    obtain ⟨guidCache, hguid, h₃⟩ := h.global.getAndTouch uid.global
    refine ⟨⟨localCache, serverCache, guidCache, s.stopped⟩, ?_, h₁, h₂, h₃, h.started⟩
    have htouch : ∀ {κ : Type} [DecidableEq κ],
        (LruTtl.touch now : κ → LruTtl κ (Value κ₁ κ₂ κ₃ δ) → _) = LruTtl.getAndTouch now :=
      fun {_} _ => rfl
    rw [ObjectsCache.step, ObjectsCache.touch, htouch, htouch, htouch, hlocal, hserver, hguid]
    rfl
  | get uid =>
    obtain ⟨localCache, hlocal, h₁⟩ := h.local_.getAndTouch uid.local_
    obtain ⟨serverCache, hserver, h₂⟩ := h.server.getAndTouch
      (if (ObjectsCache.found now uid.local_ s.localCache).isSome then none else uid.server)
    obtain ⟨guidCache, hguid, h₃⟩ := h.global.getAndTouch
      (if (ObjectsCache.found now uid.local_ s.localCache).isSome ||
        (ObjectsCache.found now uid.server s.serverCache).isSome then none else uid.global)
    refine ⟨⟨localCache, serverCache, guidCache, s.stopped⟩, ?_, h₁, h₂, h₃, h.started⟩
    rw [ObjectsCache.step, ObjectsCache.get, hlocal, hserver, hguid]
    rfl
  | tickLocal => exact ⟨_, rfl, h.local_.tick, h.server, h.global, h.started⟩
  | tickServer => exact ⟨_, rfl, h.local_, h.server.tick, h.global, h.started⟩
  | tickGuid => exact ⟨_, rfl, h.local_, h.server, h.global.tick, h.started⟩

/-- A put that does not fit serves what it meets. -/
theorem Inv.regular (h : Inv now object latest s) {e : Event κ₁ κ₂ κ₃ δ}
    (ht : s.step now e = some t) (hserves : t.Serves now object (latest.after object e)) :
    s.Regular object now e := by
  cases e with
  | put item uid =>
    intro hu
    obtain ⟨t', ht', -, hregular, -⟩ := h.put item hu
    obtain rfl : t = t' := Option.some.inj (ht.symm.trans ht')
    simp only [Latest.after, hu, if_true] at hserves
    exact hregular rfl hserves hu
  | _ => trivial

/-! ### Runs -/

theorem Inv.run_iff {es : List (Nat × Event κ₁ κ₂ κ₃ δ)} : ∀ {now : Nat}
    {latest : Latest κ₁ κ₂ κ₃ δ} {s : ObjectsCache κ₁ κ₂ κ₃ δ}, Inv now object latest s →
      (∀ e ∈ es, now ≤ e.1) → es.Pairwise (fun e e' => e.1 ≤ e'.1) →
        (Coherent object latest s es ↔ RegularRun object s es) := by
  induction es with
  | nil => exact fun _ _ _ => iff_of_true trivial trivial
  | cons e es ih =>
    obtain ⟨now', e⟩ := e
    intro now latest s h hle hpairwise
    have h := h.mono (hle (now', e) List.mem_cons_self)
    obtain ⟨hlater, hpairwise⟩ := List.pairwise_cons.mp hpairwise
    have hnext : s.Regular object now' e → ∀ t, s.step now' e = some t →
        (Coherent object (latest.after object e) t es ↔ RegularRun object t es) := by
      intro he t ht
      obtain ⟨t', ht', hinv⟩ := h.step he
      obtain rfl : t = t' := Option.some.inj (ht.symm.trans ht')
      exact ih hinv hlater hpairwise
    constructor
    · rintro ⟨t, ht, hserves, hrun⟩
      have he := h.regular ht hserves
      refine ⟨he, fun t' ht' => ?_⟩
      obtain rfl : t = t' := Option.some.inj (ht.symm.trans ht')
      exact (hnext he t ht).mp hrun
    · rintro ⟨he, hrun⟩
      obtain ⟨t, ht, hinv⟩ := h.step he
      exact ⟨t, ht, hinv.serves, (hnext he t ht).mpr (hrun t ht)⟩

/-- **The cache is coherent** for an object in a run just when no put with all its ids meets
another value that is served, unless that has to go. -/
theorem coherent_iff (object : Uid κ₁ κ₂ κ₃) (ttlSeconds capacity : Nat)
    (es : List (Nat × Event κ₁ κ₂ κ₃ δ)) (h : es.Pairwise fun e e' => e.1 ≤ e'.1) :
    Coherent object .removed (start ttlSeconds capacity) es ↔
      RegularRun object (start ttlSeconds capacity) es := by
  have hkept : ∀ {κ : Type} [DecidableEq κ] (id : Option κ), Kept 0 id (fun _ => False)
      (LruTtl.start (ttlSeconds * 1000) capacity : LruTtl κ (Value κ₁ κ₂ κ₃ δ)) := by
    intro κ _ id
    refine ⟨⟨.empty, rfl, fun k => AList.lookup_empty k⟩, fun k _ i hi => ?_⟩
    exact absurd (hi.symm.trans (AList.lookup_empty k)) (Option.some_ne_none i)
  have hstart : Inv 0 object (.removed : Latest κ₁ κ₂ κ₃ δ) (start ttlSeconds capacity) :=
    ⟨hkept _, hkept _, hkept _, rfl⟩
  exact hstart.run_iff (fun _ _ => Nat.zero_le _) h

end

section Sample

def sampleUid : Uid Nat Nat Nat := ⟨some 1, some 2, some 3⟩

def sampleObject (n : Nat) : Value Nat Nat Nat Nat := some ⟨sampleUid, n⟩

/-- A put, a removal, and a put again. -/
def sampleEvents : List (Nat × Event Nat Nat Nat Nat) :=
  [(0, .put (sampleObject 10) none), (0, .remove sampleUid),
    (0, .put (sampleObject 20) (some sampleUid))]

theorem coherent_sampleEvents : Coherent sampleUid .removed (start 1 4) sampleEvents := by
  refine (coherent_iff sampleUid 1 4 sampleEvents (by decide)).mpr ⟨fun _ => ?_, fun t ht => ?_⟩
  · exact ⟨nofun, nofun, nofun⟩
  cases ht
  refine ⟨trivial, fun t ht => ?_⟩
  cases ht
  refine ⟨fun _ => ⟨fun k hk i hi => ?_, fun k hk i hi => ?_, fun k hk i hi => ?_⟩,
    fun _ _ => trivial⟩
  · cases hk
    cases hi
  · cases hk
    cases hi
  · cases hk
    cases hi

/-- **A second put without a removal** leaves the first value. -/
theorem not_coherent : ¬ ∀ (object : Uid Nat Nat Nat) (ttlSeconds capacity : Nat)
    (es : List (Nat × Event Nat Nat Nat Nat)), es.Pairwise (fun e e' => e.1 ≤ e'.1) →
      Coherent object .removed (start ttlSeconds capacity) es := by
  intro h
  obtain ⟨t, ht, -, t', ht', hserves, -⟩ := h sampleUid 1 4
    [(0, .put (sampleObject 10) none), (0, .put (sampleObject 20) none)] (by decide)
  cases ht
  cases ht'
  have hserved : sampleObject 10 = sampleObject 20 :=
    hserves 0 (Nat.le_refl 0) sampleUid ⟨.inr rfl, .inr rfl, .inr rfl⟩ (sampleObject 10) rfl
  exact absurd (Object.mk.inj (Option.some.inj hserved)).2 (by decide)

end Sample

end ObjectsCache

end

end Hatn.Clientserver
