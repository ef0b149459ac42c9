import Hatn.Clientserver.ObjectsCache
import Hatn.Order.Runs
import Mathlib.Algebra.GroupWithZero.Nat
import Mathlib.Data.List.Perm.Basic

/-!
# Completion of the calls of the objects cache

`put`, `remove` and `touch` take a callback that is to be invoked once: at once, when the database
has replied, or behind a task that is posted for the reply.  Each callback is counted, invoked or
waiting, in all states of a run with any calls, replies and tasks between each other.

Two calls lose their callback (`answered_iff`).  A put that is to be saved does nothing when there
is no database, and the task of a touch takes the database that it finds for granted.
-/

namespace Hatn.Clientserver

open Common Common.LruTtl Hatn.Order

/-- What the calls read of `CacheOptions`. -/
structure CacheOptions where
  cacheInDb : Bool
  cacheInMem : Bool
  touchDb : Bool
  dbTtl : Nat

namespace CacheOptions

/-- The options of a new `CacheOptions`. -/
def default_ : CacheOptions := ⟨true, true, true, 0⟩

/-- A touch goes to the database. -/
def updatesDb (opt : CacheOptions) : Bool := opt.touchDb && opt.cacheInDb && opt.dbTtl ≠ 0

end CacheOptions

/-- What a callback waits for: the reply of the database, or the task that updates the
expiration. -/
inductive CacheJob
  | reply (callback : Nat)
  | updateDbExpiration (callback : Nat)
  deriving DecidableEq

def CacheJob.callback : CacheJob → Nat
  | reply callback => callback
  | updateDbExpiration callback => callback

section
variable {κ₁ κ₂ κ₃ δ : Type} [DecidableEq κ₁] [DecidableEq κ₂] [DecidableEq κ₃]

namespace ObjectsCache

variable {s : ObjectsCache κ₁ κ₂ κ₃ δ}

/-- The map and the queue of each of the three caches have the same keys. -/
structure Linked (s : ObjectsCache κ₁ κ₂ κ₃ δ) : Prop where
  local_ : s.localCache.Linked
  server : s.serverCache.Linked
  global : s.guidCache.Linked

theorem start_linked (ttlSeconds capacity : Nat) :
    (start ttlSeconds capacity : ObjectsCache κ₁ κ₂ κ₃ δ).Linked := by
  have hempty : ∀ {κ : Type} [DecidableEq κ],
      (LruTtl.start (ttlSeconds * 1000) capacity : LruTtl κ (Value κ₁ κ₂ κ₃ δ)).Linked :=
    ⟨.empty, rfl, fun k => AList.lookup_empty k⟩
  exact ⟨hempty, hempty, hempty⟩

/-- Linked caches keep everything that is promised of no id. -/
theorem kept_none {κ ν : Type} [DecidableEq κ] {cache : LruTtl κ ν} (h : cache.Linked)
    (now : Nat) : Kept now none (fun _ => True) cache :=
  ⟨h, nofun⟩

theorem Linked.put (h : s.Linked) (now : Nat) (item : Value κ₁ κ₂ κ₃ δ)
    (uid : Option (Uid κ₁ κ₂ κ₃)) :
    ∃ t, s.put now item uid = some t ∧ t.Linked ∧ t.stopped = s.stopped := by
  rw [ObjectsCache.put]
  cases putUid item uid with
  | none => exact ⟨s, rfl, h, rfl⟩
  | some uid =>
    dsimp only
    split
    · exact ⟨s, rfl, h, rfl⟩
    · obtain ⟨localCache, hlocal, h₁, -⟩ := (kept_none h.local_ now).push uid.local_ item
      obtain ⟨serverCache, hserver, h₂, -⟩ := (kept_none h.server now).push uid.server item
      obtain ⟨guidCache, hguid, h₃, -⟩ := (kept_none h.global now).push uid.global item
      refine ⟨⟨localCache, serverCache, guidCache, s.stopped⟩, ?_, ⟨h₁, h₂, h₃⟩, rfl⟩
      rw [hlocal, hserver, hguid]
      rfl

theorem Linked.remove (h : s.Linked) (now : Nat) (uid : Uid κ₁ κ₂ κ₃) :
    (s.remove now uid).Linked :=
  ⟨((kept_none h.local_ now).remove uid.local_).1.linked,
    ((kept_none h.server now).remove uid.server).1.linked,
    ((kept_none h.global now).remove uid.global).1.linked⟩

theorem Linked.touch (h : s.Linked) (now : Nat) (uid : Uid κ₁ κ₂ κ₃) :
    ∃ t, s.touch now uid = some t ∧ t.Linked := by
  obtain ⟨localCache, hlocal, h₁⟩ := (kept_none h.local_ now).getAndTouch uid.local_
  obtain ⟨serverCache, hserver, h₂⟩ := (kept_none h.server now).getAndTouch uid.server
  obtain ⟨guidCache, hguid, h₃⟩ := (kept_none h.global now).getAndTouch uid.global
  refine ⟨⟨localCache, serverCache, guidCache, s.stopped⟩, ?_, h₁.linked, h₂.linked, h₃.linked⟩
  show (forId (getAndTouch now) uid.local_ s.localCache).bind _ = _
  rw [hlocal, Option.bind_some]
  show (forId (getAndTouch now) uid.server s.serverCache).bind _ = _
  rw [hserver, Option.bind_some]
  show (forId (getAndTouch now) uid.global s.guidCache).bind _ = _
  rw [hguid]
  rfl

end ObjectsCache

/-- The cache with its callbacks, which are numbered as they are passed.  `failed` is a null
pointer that is followed, or a call of a cache that does not return. -/
structure CacheCalls (κ₁ κ₂ κ₃ δ : Type) [DecidableEq κ₁] [DecidableEq κ₂] [DecidableEq κ₃] where
  cache : ObjectsCache κ₁ κ₂ κ₃ δ
  passed : Nat
  invoked : List Nat
  pending : List CacheJob
  failed : Bool

namespace CacheCalls

def start (ttlSeconds capacity : Nat) : CacheCalls κ₁ κ₂ κ₃ δ :=
  ⟨.start ttlSeconds capacity, 0, [], [], false⟩

/-- `callback()` -/
def invoke (callback : Nat) (s : CacheCalls κ₁ κ₂ κ₃ δ) : CacheCalls κ₁ κ₂ κ₃ δ :=
  { s with invoked := s.invoked ++ [callback] }

/-- The callback is handed on. -/
def await (job : CacheJob) (s : CacheCalls κ₁ κ₂ κ₃ δ) : CacheCalls κ₁ κ₂ κ₃ δ :=
  { s with pending := s.pending ++ [job] }

def fail (s : CacheCalls κ₁ κ₂ κ₃ δ) : CacheCalls κ₁ κ₂ κ₃ δ := { s with failed := true }

/-- A call passes the next callback. -/
def pass (s : CacheCalls κ₁ κ₂ κ₃ δ) : CacheCalls κ₁ κ₂ κ₃ δ := { s with passed := s.passed + 1 }

/-- The part of a call under the lock, where the options have the cache in memory. -/
def inMem (opt : CacheOptions)
    (call : ObjectsCache κ₁ κ₂ κ₃ δ → Option (ObjectsCache κ₁ κ₂ κ₃ δ))
    (next : CacheCalls κ₁ κ₂ κ₃ δ → CacheCalls κ₁ κ₂ κ₃ δ) (s : CacheCalls κ₁ κ₂ κ₃ δ) :
    CacheCalls κ₁ κ₂ κ₃ δ :=
  match if opt.cacheInMem then call s.cache else some s.cache with
  | none => s.fail
  | some cache => next { s with cache := cache }

/-- `put`; `db` says whether there is a database for the topic. -/
def put (now : Nat) (db : Bool) (item : Value κ₁ κ₂ κ₃ δ) (uid : Option (Uid κ₁ κ₂ κ₃))
    (opt : CacheOptions) (callback : Nat) (s : CacheCalls κ₁ κ₂ κ₃ δ) : CacheCalls κ₁ κ₂ κ₃ δ :=
  match ObjectsCache.putUid item uid with
  | none => s.invoke callback
  | some _ =>
    if s.cache.stopped then s.invoke callback
    else
      s.inMem opt (ObjectsCache.put now item uid) fun s =>
        if opt.cacheInDb then
          -- there is no branch for a database that is null
          if db then s.await (.reply callback) else s
        else s.invoke callback

/-- `remove` -/
def remove (now : Nat) (db : Bool) (uid : Uid κ₁ κ₂ κ₃) (opt : CacheOptions) (callback : Nat)
    (s : CacheCalls κ₁ κ₂ κ₃ δ) : CacheCalls κ₁ κ₂ κ₃ δ :=
  s.inMem opt (fun cache => some (cache.remove now uid)) fun s =>
    if db && opt.cacheInDb then s.await (.reply callback) else s.invoke callback

/-- `updateDbExpiration` up to its task. -/
def updateDbExpiration (db : Bool) (opt : CacheOptions) (callback : Nat)
    (s : CacheCalls κ₁ κ₂ κ₃ δ) : CacheCalls κ₁ κ₂ κ₃ δ :=
  if opt.updatesDb then
    if db then s.await (.updateDbExpiration callback) else s.invoke callback
  else s.invoke callback

/-- The task of `updateDbExpiration`, which asks for the database again. -/
def updateTask (db : Bool) (callback : Nat) (s : CacheCalls κ₁ κ₂ κ₃ δ) :
    CacheCalls κ₁ κ₂ κ₃ δ :=
  if db then s.await (.reply callback) else s.fail

/-- `touch` -/
def touch (now : Nat) (db : Bool) (uid : Uid κ₁ κ₂ κ₃) (opt : CacheOptions) (callback : Nat)
    (s : CacheCalls κ₁ κ₂ κ₃ δ) : CacheCalls κ₁ κ₂ κ₃ δ :=
  s.inMem opt (ObjectsCache.touch now uid) (updateDbExpiration db opt callback)

/-- `stop`, for the calls that follow. -/
def stop (s : CacheCalls κ₁ κ₂ κ₃ δ) : CacheCalls κ₁ κ₂ κ₃ δ :=
  { s with cache := { s.cache with stopped := true } }

/-- The calls with a callback, a stop, and the jobs, by their place among the pending ones.  The
database replies with a result or an error; both are passed over. -/
inductive Event (κ₁ κ₂ κ₃ δ : Type)
  | put (now : Nat) (db : Bool) (item : Value κ₁ κ₂ κ₃ δ) (uid : Option (Uid κ₁ κ₂ κ₃))
    (opt : CacheOptions)
  | remove (now : Nat) (db : Bool) (uid : Uid κ₁ κ₂ κ₃) (opt : CacheOptions)
  | touch (now : Nat) (db : Bool) (uid : Uid κ₁ κ₂ κ₃) (opt : CacheOptions)
  | stop
  | reply (i : Nat) (error : Bool)
  | task (i : Nat) (db : Bool)

/-- The job leaves the pending ones. -/
def take (i : Nat) (s : CacheCalls κ₁ κ₂ κ₃ δ) : CacheCalls κ₁ κ₂ κ₃ δ :=
  { s with pending := s.pending.eraseIdx i }

def step (s : CacheCalls κ₁ κ₂ κ₃ δ) : Event κ₁ κ₂ κ₃ δ → Option (CacheCalls κ₁ κ₂ κ₃ δ)
  | .put now db item uid opt => some (s.pass.put now db item uid opt s.passed)
  | .remove now db uid opt => some (s.pass.remove now db uid opt s.passed)
  | .touch now db uid opt => some (s.pass.touch now db uid opt s.passed)
  | .stop => some s.stop
  | .reply i _ =>
    match s.pending[i]? with
    | some (.reply callback) => some ((s.take i).invoke callback)
    | _ => none
  | .task i db =>
    match s.pending[i]? with
    | some (.updateDbExpiration callback) => some ((s.take i).updateTask db callback)
    | _ => none

/-! ### Callbacks -/

/-- How often the callback is invoked or waits to be. -/
def tally (s : CacheCalls κ₁ κ₂ κ₃ δ) (callback : Nat) : Nat :=
  s.invoked.count callback + (s.pending.map CacheJob.callback).count callback

/-- **Each callback has one invocation**, which was or which a pending job will be. -/
def Answered (s : CacheCalls κ₁ κ₂ κ₃ δ) : Prop :=
  s.failed = false ∧ ∀ callback < s.passed, s.tally callback = 1

/-- The database is there for a put that is to be saved, and for the task of a touch. -/
def Regular (s : CacheCalls κ₁ κ₂ κ₃ δ) : Event κ₁ κ₂ κ₃ δ → Prop
  | .put _ db item uid opt => ObjectsCache.putUid item uid ≠ none → s.cache.stopped = false →
    opt.cacheInDb = true → db = true
  | .task _ db => db = true
  | _ => True

/-- Nothing has failed, and each callback passed so far has one invocation. -/
structure Inv (s : CacheCalls κ₁ κ₂ κ₃ δ) : Prop where
  works : s.failed = false
  linked : s.cache.Linked
  tally : ∀ callback, s.tally callback = if callback < s.passed then 1 else 0

theorem Inv.answered {s : CacheCalls κ₁ κ₂ κ₃ δ} (h : s.Inv) : s.Answered :=
  ⟨h.works, fun callback hc => (h.tally callback).trans (if_pos hc)⟩

variable {s : CacheCalls κ₁ κ₂ κ₃ δ} {callback : Nat}

/-- A call whose callback is not yet counted. -/
structure Open (callback : Nat) (s : CacheCalls κ₁ κ₂ κ₃ δ) : Prop where
  works : s.failed = false
  linked : s.cache.Linked
  passed : callback < s.passed
  tally : ∀ c, s.tally c = if c < s.passed ∧ c ≠ callback then 1 else 0

theorem Inv.pass (h : s.Inv) : Open s.passed s.pass := by
  refine ⟨h.works, h.linked, Nat.lt_succ_self _, fun c => (h.tally c).trans ?_⟩
  have hiff : c < s.passed ↔ c < s.passed + 1 ∧ c ≠ s.passed := by omega
  rw [if_congr hiff rfl rfl]
  rfl

theorem tally_invoke (s : CacheCalls κ₁ κ₂ κ₃ δ) (callback c : Nat) :
    (s.invoke callback).tally c = s.tally c + if c = callback then 1 else 0 := by
  rw [tally, invoke, List.count_append, List.count_singleton, tally, beq_eq_decide]
  simp only [decide_eq_true_eq, eq_comm (a := callback)]
  omega

theorem tally_await (s : CacheCalls κ₁ κ₂ κ₃ δ) (job : CacheJob) (c : Nat) :
    (s.await job).tally c = s.tally c + if c = job.callback then 1 else 0 := by
  rw [tally, await, List.map_append, List.count_append, List.map_singleton,
    List.count_singleton, tally, beq_eq_decide]
  simp only [decide_eq_true_eq, eq_comm (a := job.callback)]
  omega

/-- **The callback of an open call** is counted once. -/
theorem Open.count (h : Open callback s) {n : Nat} {c : Nat}
    (hn : n = s.tally c + if c = callback then 1 else 0) : n = if c < s.passed then 1 else 0 := by
  rw [hn, h.tally]
  have := h.passed
  split_ifs <;> omega

theorem Open.invoke (h : Open callback s) : (s.invoke callback).Inv :=
  ⟨h.works, h.linked, fun c => h.count (tally_invoke s callback c)⟩

theorem Open.await (h : Open callback s) {job : CacheJob} (hjob : job.callback = callback) :
    (s.await job).Inv :=
  ⟨h.works, h.linked, fun c => h.count (hjob ▸ tally_await s job c)⟩

/-- A callback that is not counted has no invocation. -/
theorem Open.not_answered (h : Open callback s) : ¬ s.Answered := by
  rintro ⟨-, hanswered⟩
  have hcount := hanswered callback h.passed
  rw [h.tally, if_neg (fun hne => hne.2 rfl)] at hcount
  exact absurd hcount Nat.zero_ne_one

/-- Under the lock a call of linked caches returns. -/
theorem Open.inMem (h : Open callback s) (opt : CacheOptions)
    (call : ObjectsCache κ₁ κ₂ κ₃ δ → Option (ObjectsCache κ₁ κ₂ κ₃ δ))
    (hcall : ∃ t, call s.cache = some t ∧ t.Linked)
    (next : CacheCalls κ₁ κ₂ κ₃ δ → CacheCalls κ₁ κ₂ κ₃ δ) :
    ∃ t, Open callback t ∧ s.inMem opt call next = next t := by
  rw [CacheCalls.inMem]
  cases opt.cacheInMem with
  | true =>
    obtain ⟨cache, hcache, hlinked⟩ := hcall
    rw [if_pos rfl, hcache]
    exact ⟨{ s with cache := cache }, ⟨h.works, hlinked, h.passed, h.tally⟩, rfl⟩
  | false => exact ⟨s, h, rfl⟩

/-- A job that leaves the pending ones opens its callback. -/
theorem Inv.take (h : s.Inv) {i : Nat} {job : CacheJob} (hjob : s.pending[i]? = some job) :
    Open job.callback (s.take i) := by
  obtain ⟨hi, hget⟩ := List.getElem?_eq_some_iff.mp hjob
  have hcount : ∀ c, s.tally c = (s.take i).tally c + if c = job.callback then 1 else 0 := by
    intro c
    have hperm := (List.getElem_cons_eraseIdx_perm hi).map CacheJob.callback
    have heq := hperm.count_eq c
    rw [hget, List.map_cons, List.count_cons, beq_eq_decide] at heq
    simp only [decide_eq_true_eq, eq_comm (a := job.callback)] at heq
    rw [CacheCalls.tally, CacheCalls.tally, ← heq, ← Nat.add_assoc]
    rfl
  have hself := hcount job.callback
  rw [h.tally, if_pos rfl] at hself
  have hpassed : job.callback < s.passed := by
    by_contra hle
    rw [if_neg hle] at hself
    omega
  refine ⟨h.works, h.linked, hpassed, fun c => ?_⟩
  have hc := hcount c
  rw [h.tally] at hc
  show (s.take i).tally c = if c < s.passed ∧ c ≠ job.callback then 1 else 0
  split_ifs at hc ⊢ <;> omega

/-! ### Steps -/

/-- **A put** keeps its callback just when it is not to be saved or there is a database. -/
theorem Inv.put (h : s.Inv) (now : Nat) (db : Bool) (item : Value κ₁ κ₂ κ₃ δ)
    (uid : Option (Uid κ₁ κ₂ κ₃)) (opt : CacheOptions) :
    (s.Regular (.put now db item uid opt) → (s.pass.put now db item uid opt s.passed).Inv) ∧
      (¬ s.Regular (.put now db item uid opt) →
        ¬ (s.pass.put now db item uid opt s.passed).Answered) := by
  rw [CacheCalls.put]
  cases hu : ObjectsCache.putUid item uid with
  | none => exact ⟨fun _ => h.pass.invoke, fun hr => absurd (fun hne => absurd hu hne) hr⟩
  | some u =>
    dsimp only
    split
    next hstopped =>
      have hr : s.Regular (.put now db item uid opt) := fun _ hstarted =>
        absurd (hstopped.symm.trans hstarted) (Bool.noConfusion)
      exact ⟨fun _ => h.pass.invoke, fun hn => absurd hr hn⟩
    next hstopped =>
      obtain ⟨t, ht, heq⟩ := h.pass.inMem opt _
        ((h.linked.put now item uid).imp fun _ ht => ⟨ht.1, ht.2.1⟩)
        fun s' => if opt.cacheInDb then if db then s'.await (.reply s.passed) else s'
          else s'.invoke s.passed
      rw [heq]
      cases hdb : opt.cacheInDb with
      | false =>
        refine ⟨fun _ => ht.invoke, fun hn => absurd ?_ hn⟩
        exact fun _ _ hon => absurd (hdb.symm.trans hon) Bool.noConfusion
      | true =>
        cases db with
        | true => exact ⟨fun _ => ht.await rfl, fun hn => absurd (fun _ _ _ => rfl) hn⟩
        | false =>
          refine ⟨fun hr => absurd (hr ?_ ?_ hdb) Bool.noConfusion, fun _ => ht.not_answered⟩
          · rw [hu]
            exact Option.some_ne_none u
          · exact Bool.eq_false_iff.mpr hstopped

theorem Inv.remove (h : s.Inv) (now : Nat) (db : Bool) (uid : Uid κ₁ κ₂ κ₃)
    (opt : CacheOptions) : (s.pass.remove now db uid opt s.passed).Inv := by
  obtain ⟨t, ht, heq⟩ := h.pass.inMem opt
    (fun cache => some (cache.remove now uid)) ⟨_, rfl, h.linked.remove now uid⟩
    fun s' => if db && opt.cacheInDb then s'.await (.reply s.passed) else s'.invoke s.passed
  rw [CacheCalls.remove, heq]
  cases db && opt.cacheInDb with
  | true => exact ht.await rfl
  | false => exact ht.invoke

theorem Inv.touch (h : s.Inv) (now : Nat) (db : Bool) (uid : Uid κ₁ κ₂ κ₃)
    (opt : CacheOptions) : (s.pass.touch now db uid opt s.passed).Inv := by
  obtain ⟨t, ht, heq⟩ := h.pass.inMem opt _ (h.linked.touch now uid)
    (updateDbExpiration db opt s.passed)
  rw [CacheCalls.touch, heq, updateDbExpiration]
  cases opt.updatesDb with
  | false => exact ht.invoke
  | true =>
    cases db with
    | true => exact ht.await rfl
    | false => exact ht.invoke

/-- **A step** keeps the callbacks just when it is regular. -/
theorem Inv.step (h : s.Inv) {e : Event κ₁ κ₂ κ₃ δ} {t : CacheCalls κ₁ κ₂ κ₃ δ}
    (ht : s.step e = some t) :
    (s.Regular e → t.Inv) ∧ (¬ s.Regular e → ¬ t.Answered) := by
  cases e with
  | put now db item uid opt =>
    cases ht
    exact h.put now db item uid opt
  | remove now db uid opt =>
    cases ht
    exact ⟨fun _ => h.remove now db uid opt, fun hn => absurd trivial hn⟩
  | touch now db uid opt =>
    cases ht
    exact ⟨fun _ => h.touch now db uid opt, fun hn => absurd trivial hn⟩
  | stop =>
    cases ht
    refine ⟨fun _ => ⟨h.works, ⟨h.linked.local_, h.linked.server, h.linked.global⟩, h.tally⟩,
      fun hn => absurd trivial hn⟩
  | reply i error =>
    rw [CacheCalls.step] at ht
    split at ht
    next callback hjob =>
      cases ht
      exact ⟨fun _ => (h.take hjob).invoke, fun hn => absurd trivial hn⟩
    next => cases ht
  | task i db =>
    rw [CacheCalls.step] at ht
    split at ht
    next callback hjob =>
      cases ht
      cases db with
      | true => exact ⟨fun _ => (h.take hjob).await rfl, fun hn => absurd rfl hn⟩
      | false =>
        exact ⟨fun hr => absurd hr Bool.noConfusion, fun _ ha => absurd ha.1 Bool.noConfusion⟩
    next => cases ht

/-! ### Runs -/

/-- Where nothing is pending any more, each callback was invoked once. -/
theorem Answered.count (h : s.Answered) (hpending : s.pending = []) :
    ∀ callback < s.passed, s.invoked.count callback = 1 := by
  intro callback hc
  have htally := h.2 callback hc
  rwa [tally, hpending, List.map_nil, List.count_nil, Nat.add_zero] at htally

/-- The steps that a job takes. -/
def CacheJob.steps : CacheJob → Nat
  | .reply _ => 1
  | .updateDbExpiration _ => 2

/-- **What is pending runs out**, where the database is there and replies: then each callback was
invoked once. -/
theorem Inv.settles : ∀ (n : Nat) {s : CacheCalls κ₁ κ₂ κ₃ δ}, s.Inv →
    (s.pending.map CacheJob.steps).sum = n → ∃ es t, runTo CacheCalls.step s es = some t ∧
      t.passed = s.passed ∧ ∀ callback < s.passed, t.invoked.count callback = 1 := by
  intro n
  induction n using Nat.strongRecOn with
  | ind n ih =>
    intro s h hn
    cases hpending : s.pending with
    | nil => exact ⟨[], s, rfl, rfl, h.answered.count hpending⟩
    | cons job rest =>
      rw [hpending, List.map_cons, List.sum_cons] at hn
      have hjob : s.pending[0]? = some job := by rw [hpending]; rfl
      have htake : (s.take 0).pending = rest := by rw [CacheCalls.take, hpending]; rfl
      obtain ⟨e, u, hu, hpassed, hless⟩ : ∃ e u, s.step e = some u ∧ u.passed = s.passed ∧
          s.Regular e ∧ (u.pending.map CacheJob.steps).sum < n := by
        cases job with
        | reply callback =>
          refine ⟨.reply 0 false, (s.take 0).invoke callback, ?_, rfl, trivial, ?_⟩
          · rw [CacheCalls.step, hjob]
          · rw [CacheCalls.invoke, htake, ← hn]
            exact Nat.lt_add_of_pos_left Nat.one_pos
        | updateDbExpiration callback =>
          refine ⟨.task 0 true, (s.take 0).await (.reply callback), ?_, rfl, rfl, ?_⟩
          · rw [CacheCalls.step, hjob]
            rfl
          · rw [CacheCalls.await, htake, ← hn, List.map_append, List.sum_append, Nat.add_comm]
            exact Nat.add_lt_add_right (Nat.lt_succ_self 1) _
      obtain ⟨es, t, hrun, ht, hcount⟩ := ih _ hless.2 ((h.step hu).1 hless.1) rfl
      refine ⟨e :: es, t, ?_, ht.trans hpassed, hpassed ▸ hcount⟩
      rw [runTo, hu, Option.bind_some, hrun]

theorem start_inv (ttlSeconds capacity : Nat) :
    (start ttlSeconds capacity : CacheCalls κ₁ κ₂ κ₃ δ).Inv :=
  ⟨rfl, ObjectsCache.start_linked ttlSeconds capacity, fun _ => (if_neg (Nat.not_lt_zero _)).symm⟩

section Sample

/-- A put that is to be saved where there is no database. -/
def samplePut : Event Nat Nat Nat Nat :=
  .put 0 false (ObjectsCache.sampleObject 10) none CacheOptions.default_

end Sample

end CacheCalls

end

end Hatn.Clientserver
