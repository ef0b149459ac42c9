import Hatn.Common.MachineInt
import Hatn.Memory.Links
import Hatn.Search.OrderedSet
import Mathlib.Algebra.Group.Action.Defs
import Mathlib.Algebra.Order.BigOperators.Group.List

/-!
# Pools with buckets

A pool keeps its buckets in a linked chain.  The garbage collector moves the empty ones to a
schedule and deletes them from it later; an allocation that finds no room takes a bucket from the
schedule again, or creates one.

`m_bucketsCount` is for the buckets in the chain.  It is less by one for a bucket that is moved to
the schedule, and stays as it is for a bucket that is taken from there: `keptRun_iff_noReuse` says
that this is all that is wrong, and that it is wrong each time.
-/

namespace Hatn.Common.MultiBucketPool

open Memory Search

/-- What the pool asks `m_pool` for. -/
structure Config where
  initialChunkCountPerBucket : Nat
  isDynamicBucketSizeEnabled : Bool
  maxBucketSize : Nat
  allocatedChunkSize : Nat
  dropBucketDelay : Nat

/-- A bucket as the pool sees it; which chunk it gives away is its own matter. -/
structure Bucket where
  chunkCount : Nat
  freeCount : Int
  deriving DecidableEq

namespace Bucket

def create (chunkCount : Nat) : Bucket := ⟨chunkCount, toInt chunkCount⟩

/-- `allocate`, or `none` for null. -/
def allocate (b : Bucket) : Option Bucket :=
  if b.freeCount ≤ 0 then none else some { b with freeCount := b.freeCount - 1 }

def deallocate (b : Bucket) : Bucket := { b with freeCount := toInt (b.freeCount + 1) }

/-- `freeCount()`, which is a `size_t`. -/
def free (b : Bucket) : Nat := (b.freeCount % 2 ^ 64).toNat

def isEmpty (b : Bucket) : Bool := b.free == b.chunkCount

end Bucket

/-- The pool, the buckets that exist, and the buckets of the blocks that are allocated.  A bucket is
named by its address. -/
structure Pool where
  buckets : Nat → Bucket
  links : Links Nat
  existing : List Nat
  bucketsCount : Int
  scheduleDropCount : Int
  scheduleDropChunkCount : Nat
  nextBucketChunkCount : Nat
  createdBucketSinceLastGbCollecting : Bool
  freedBucketSinceLastGbCollecting : Bool
  dropSchedule : List (Nat × Nat)
  live : List Nat

/-- `fetch_sub` of a `size_t` -/
def subSize (m n : Nat) : Nat := (m + (2 ^ 64 - n)) % 2 ^ 64

namespace Pool

def start (cfg : Config) : Pool :=
  ⟨fun _ => ⟨0, 0⟩, ⟨none, fun _ => none⟩, [], 0, 0, 0, cfg.initialChunkCountPerBucket, false,
    false, [], []⟩

/-- The buckets of the chain.  There are not more than there are buckets at all. -/
def chain (s : Pool) : List Nat := s.links.walk (s.existing.length + 1) none

/-- The buckets of the schedule, in the order of their addresses. -/
def scheduled (s : Pool) : List Nat := s.dropSchedule.map Prod.fst

/-! ### Allocation -/

/-- A chunk of a bucket is taken. -/
def take (p : Nat) (s : Pool) : Option Pool :=
  (s.buckets p).allocate.map fun b => { s with buckets := Function.update s.buckets p b }

/-- `allocateChunk` without `requestSync`: the first bucket of the chain that has a chunk. -/
def allocateChunk (s : Pool) : Option (Nat × Pool) :=
  s.chain.findSome? fun p => (s.take p).map fun s' => (p, s')

def minFreeChunks (cfg : Config) : Nat := cfg.initialChunkCountPerBucket / 2

/-- The loop to the last bucket of the chain, which allocates where the buckets so far have enough
free chunks. -/
def allocateInExisting (cfg : Config) (s : Pool) : List Nat → Nat → Option (Nat × Pool)
  | [], _ => none
  | p :: ps, freeChunks =>
    let freeChunks := (freeChunks + (s.buckets p).free) % 2 ^ 64
    if minFreeChunks cfg ≤ freeChunks then
      match s.allocateChunk with
      | some r => some r
      | none => allocateInExisting cfg s ps freeChunks
    else allocateInExisting cfg s ps freeChunks

/-- The bucket of the schedule that is to be reused. -/
def reusable (cfg : Config) (s : Pool) : Option Nat :=
  match s.scheduled with
  | [] => none
  | first :: rest =>
    let minSize := (first :: rest).foldl (fun minSize p =>
      if (s.buckets p).chunkCount < (s.buckets minSize).chunkCount ∧
          minFreeChunks cfg ≤ (s.buckets p).chunkCount then p else minSize) first
    if minFreeChunks cfg ≤ (s.buckets minSize).chunkCount then some minSize else none

/-- The bucket is taken from the schedule. -/
def reuse (p : Nat) (s : Pool) : Pool :=
  { s with
    dropSchedule := s.dropSchedule.filter (·.1 ≠ p)
    scheduleDropChunkCount := subSize s.scheduleDropChunkCount (s.buckets p).chunkCount
    scheduleDropCount := toInt (s.scheduleDropCount - 1) }

/-- A bucket is created at a new address. -/
def createBucket (cfg : Config) (address : Nat) (s : Pool) : Pool :=
  let chunkCount := s.nextBucketChunkCount
  let nextChunkCount := chunkCount * 2 % 2 ^ 64
  { s with
    nextBucketChunkCount :=
      if cfg.isDynamicBucketSizeEnabled ∧
          nextChunkCount * cfg.allocatedChunkSize % 2 ^ 64 ≤ cfg.maxBucketSize then nextChunkCount
      else s.nextBucketChunkCount
    buckets := Function.update s.buckets address (.create chunkCount)
    links := s.links.setLink (some address) none
    existing := address :: s.existing
    bucketsCount := toInt (s.bucketsCount + 1) }

/-- The bucket is added behind the chain. -/
def append (chain : List Nat) (p : Nat) (s : Pool) : Pool :=
  { s with
    links := s.links.setLink (Links.lastOf none chain) (some p)
    createdBucketSinceLastGbCollecting := true }

/-- `allocateBucketAndChunkSync`; a new bucket gets the address. -/
def allocateBucketAndChunk (cfg : Config) (address : Nat) (s : Pool) : Nat × Pool :=
  match allocateInExisting cfg s s.chain 0 with
  | some r => r
  | none =>
    let chain := s.chain
    match s.reusable cfg with
    | some p => (p, append chain p (((s.reuse p).take p).getD (s.reuse p)))
    | none =>
      let s := s.createBucket cfg address
      (address, append chain address ((s.take address).getD s))

/-- `allocateRawBlock` -/
def allocateRawBlock (cfg : Config) (address : Nat) (s : Pool) : Pool :=
  let r := s.allocateChunk.getD (s.allocateBucketAndChunk cfg address)
  { r.2 with live := r.1 :: r.2.live }

/-- `deallocateRawBlock` of a block of the bucket -/
def deallocateRawBlock (p : Nat) (s : Pool) : Pool :=
  let b := (s.buckets p).deallocate
  { s with
    live := s.live.erase p
    buckets := Function.update s.buckets p b
    freedBucketSinceLastGbCollecting := s.freedBucketSinceLastGbCollecting || b.isEmpty }

/-! ### The garbage collector -/

/-- The bucket is deleted. -/
def dropBucket (p : Nat) (s : Pool) : Pool :=
  { s with
    scheduleDropChunkCount := subSize s.scheduleDropChunkCount (s.buckets p).chunkCount
    existing := s.existing.erase p
    dropSchedule := s.dropSchedule.filter (·.1 ≠ p)
    scheduleDropCount := toInt (s.scheduleDropCount - 1) }

/-- The bucket of an entry is deleted when it is empty and was scheduled long enough ago; `checked`
is the time that is read for it. -/
def checkDrop (cfg : Config) (checked : Nat → Nat) (s : Pool) (entry : Nat × Nat) : Pool :=
  if (s.buckets entry.1).isEmpty ∧
      cfg.dropBucketDelay ≤ (checked entry.1 + (2 ^ 32 - entry.2)) % 2 ^ 32 then
    s.dropBucket entry.1
  else s

/-- The bucket behind `prev` is moved to the schedule; `time` is the time that is read for it. -/
def schedule (time : Nat → Nat) (prev : Option Nat) (p : Nat) (s : Pool) : Pool :=
  { s with
    links := s.links.unlink prev p
    dropSchedule := (OrderedSet.emplace (fun a b => a.1 < b.1) (p, time p) s.dropSchedule).2
    bucketsCount := toInt (s.bucketsCount - 1)
    scheduleDropChunkCount := (s.scheduleDropChunkCount + (s.buckets p).chunkCount) % 2 ^ 64
    scheduleDropCount := toInt (s.scheduleDropCount + 1) }

/-- The loop from the last bucket of the array to the first one. -/
def removeEmpty (time : Nat → Nat) : Option Nat → List Nat → Pool → Pool
  | _, [], s => s
  | prev, p :: ps, s =>
    let s := removeEmpty time (some p) ps s
    if (s.buckets p).isEmpty then s.schedule time prev p else s

/-- `garbageCollectorSync` -/
def garbageCollector (cfg : Config) (force : Bool) (checked time : Nat → Nat) (s : Pool) : Pool :=
  let s := s.dropSchedule.foldl (checkDrop cfg checked) s
  if force ∨ (!s.createdBucketSinceLastGbCollecting ∧ s.freedBucketSinceLastGbCollecting) then
    { removeEmpty time none s.chain s with
      freedBucketSinceLastGbCollecting := false
      nextBucketChunkCount :=
        if cfg.isDynamicBucketSizeEnabled then cfg.initialChunkCountPerBucket
        else s.nextBucketChunkCount }
  else { s with createdBucketSinceLastGbCollecting := false }

/-- `doClear` -/
def clear (s : Pool) : Pool :=
  { s with
    existing := s.existing.filter fun p => p ∉ s.chain ∧ p ∉ s.scheduled
    links := { s.links with head := none }
    bucketsCount := 0
    scheduleDropCount := 0
    scheduleDropChunkCount := 0
    dropSchedule := []
    createdBucketSinceLastGbCollecting := false
    freedBucketSinceLastGbCollecting := false }

/-- `isEmpty` -/
def isEmpty (s : Pool) : Bool :=
  s.bucketsCount == 0 || !s.chain.isEmpty && s.chain.all fun p => (s.buckets p).isEmpty

end Pool

/-! ### Runs -/

inductive Action
  | allocate (address : Nat)
  | deallocate (p : Nat)
  | garbageCollector (force : Bool) (checked time : Nat → Nat)
  | clear

/-- A step.  A new bucket is not where another one is, only blocks that are allocated are
deallocated, and a pool is cleared only when no chunk is used. -/
def next (cfg : Config) (s : Pool) : Action → Option Pool
  | .allocate address =>
    if address ∈ s.existing then none else some (s.allocateRawBlock cfg address)
  | .deallocate p => if p ∈ s.live then some (s.deallocateRawBlock p) else none
  | .garbageCollector force checked time => some (s.garbageCollector cfg force checked time)
  | .clear => if s.live = [] then some s.clear else none

namespace Pool

/-- **The bookkeeping**: the counters are those of the chain and of the schedule, no bucket is in
both, the buckets of all blocks exist, and the pool says that it is empty when it is. -/
structure Kept (s : Pool) : Prop where
  linked : s.links.Linked none s.chain
  bucketsCount : s.bucketsCount = s.chain.length
  scheduleDropCount : s.scheduleDropCount = s.dropSchedule.length
  scheduleDropChunkCount :
    s.scheduleDropChunkCount = (s.scheduled.map fun p => (s.buckets p).chunkCount).sum
  disjoint : ∀ p ∈ s.chain, p ∉ s.scheduled
  exists_live : ∀ p ∈ s.live, p ∈ s.existing
  isEmpty : s.isEmpty = true ↔ s.live = []

/-- All states of a run are as they should be. -/
def KeptRun (cfg : Config) : Pool → List Action → Prop
  | s, [] => s.Kept
  | s, a :: as => s.Kept ∧ ∀ t, next cfg s a = some t → KeptRun cfg t as

/-- No bucket of the schedule is reused. -/
def NoReuse (cfg : Config) (s : Pool) : Action → Prop
  | .allocate address => address ∉ s.existing → s.allocateChunk = none → s.reusable cfg = none
  | _ => True

def NoReuseRun (cfg : Config) : Pool → List Action → Prop
  | _, [] => True
  | s, a :: as => NoReuse cfg s a ∧ ∀ t, next cfg s a = some t → NoReuseRun cfg t as

/-- A bucket that is created has chunks, not more than an `int` can count, and so are the
buckets. -/
def Sized (cfg : Config) (s : Pool) : Action → Prop
  | .allocate _ => s.allocateChunk = none → s.reusable cfg = none →
    0 < s.nextBucketChunkCount ∧ s.nextBucketChunkCount < 2 ^ 31 ∧ s.existing.length + 1 < 2 ^ 31
  | _ => True

def SizedRun (cfg : Config) : Pool → List Action → Prop
  | _, [] => True
  | s, a :: as => Sized cfg s a ∧ ∀ t, next cfg s a = some t → SizedRun cfg t as

end Pool

/-! ### The invariant -/

/-- A bucket of which `n` chunks are used. -/
structure Bucket.Used (b : Bucket) (n : Nat) : Prop where
  pos : 0 < b.chunkCount
  lt : b.chunkCount < 2 ^ 31
  le : n ≤ b.chunkCount
  free : b.freeCount = b.chunkCount - n

namespace Bucket.Used

variable {b b' : Bucket} {n : Nat}

theorem isEmpty_iff (h : b.Used n) : b.isEmpty = true ↔ n = 0 := by
  have hlt := h.lt
  have hle := h.le
  rw [isEmpty, beq_iff_eq, Bucket.free, h.free]
  omega

theorem allocate (h : b.Used n) (hb : b.allocate = some b') : b'.Used (n + 1) := by
  have hle := h.le
  rw [Bucket.allocate] at hb
  split_ifs at hb with hfree
  cases hb
  rw [h.free] at hfree
  exact ⟨h.pos, h.lt, by simp only; omega, by simp only [h.free]; omega⟩

theorem allocate_of_unused (h : b.Used 0) :
    b.allocate = some { b with freeCount := b.freeCount - 1 } := by
  have hpos := h.pos
  rw [Bucket.allocate, if_neg]
  rw [h.free]
  omega

theorem deallocate (h : b.Used (n + 1)) : b.deallocate.Used n := by
  have hlt := h.lt
  have hle := h.le
  have hfree : toInt (b.freeCount + 1) = b.chunkCount - n := by
    rw [h.free, toInt_of_lt (by omega) (by omega)]
    omega
  exact ⟨h.pos, h.lt, by simp only [Bucket.deallocate]; omega, hfree⟩

theorem create {n : Nat} (hpos : 0 < n) (hlt : n < 2 ^ 31) : (Bucket.create n).Used 0 :=
  ⟨hpos, hlt, Nat.zero_le _, by
    rw [Bucket.create, toInt_of_lt (by omega) (by omega)]
    exact (Int.sub_zero _).symm⟩

end Bucket.Used

namespace Pool

/-- The chain is `l`, and the counters and blocks are those of the buckets. -/
structure Good (s : Pool) (l : List Nat) : Prop where
  linked : s.links.Linked none l
  unlinked : ∀ p ∈ s.scheduled, s.links.next p = none
  nodup : (l ++ s.scheduled).Nodup
  existing : s.existing.Perm (l ++ s.scheduled)
  length_lt : s.existing.length < 2 ^ 31
  used : ∀ p ∈ s.existing, (s.buckets p).Used (s.live.count p)
  live : ∀ p ∈ s.live, p ∈ l
  bucketsCount : s.bucketsCount = l.length
  scheduleDropCount : s.scheduleDropCount = s.scheduled.length
  scheduleDropChunkCount :
    s.scheduleDropChunkCount = (s.scheduled.map fun p => (s.buckets p).chunkCount).sum

theorem Good.start (cfg : Config) : Good (start cfg) [] where
  linked := rfl
  unlinked := nofun
  nodup := .nil
  existing := .refl _
  length_lt := Nat.two_pow_pos 31
  used := nofun
  live := nofun
  bucketsCount := rfl
  scheduleDropCount := rfl
  scheduleDropChunkCount := rfl

section
variable {cfg : Config} {s t : Pool} {l front back : List Nat} {p address : Nat}

theorem Good.mem_existing (h : s.Good l) : p ∈ s.existing ↔ p ∈ l ∨ p ∈ s.scheduled := by
  rw [h.existing.mem_iff, List.mem_append]

theorem Good.nodup_existing (h : s.Good l) : s.existing.Nodup := h.existing.nodup_iff.mpr h.nodup

theorem Good.disjoint (h : s.Good l) (hl : p ∈ l) : p ∉ s.scheduled := fun hp =>
  (List.nodup_append.mp h.nodup).2.2 p hl p hp rfl

theorem Good.chain_eq (h : s.Good l) : s.chain = l := by
  refine h.linked.walk_eq ?_
  rw [h.existing.length_eq, List.length_append]
  omega

/-- No block is in a bucket of the schedule. -/
theorem Good.count_scheduled (h : s.Good l) (hp : p ∈ s.scheduled) : s.live.count p = 0 :=
  List.count_eq_zero.mpr fun hlive => h.disjoint (h.live p hlive) hp

theorem Good.isEmpty_iff (h : s.Good l) : s.isEmpty = true ↔ s.live = [] := by
  have hempty : (∀ p ∈ l, (s.buckets p).isEmpty = true) ↔ s.live = [] := by
    constructor
    · intro hall
      rw [List.eq_nil_iff_forall_not_mem]
      intro p hp
      have hl := h.live p hp
      have hcount := (h.used p (h.mem_existing.mpr (.inl hl))).isEmpty_iff.mp (hall p hl)
      exact List.count_eq_zero.mp hcount hp
    · intro hlive p hp
      rw [(h.used p (h.mem_existing.mpr (.inl hp))).isEmpty_iff, hlive, List.count_nil]
  rw [Pool.isEmpty, h.chain_eq, h.bucketsCount, ← hempty, Bool.or_eq_true, beq_iff_eq,
    Bool.and_eq_true, List.all_eq_true]
  cases l with
  | nil => exact iff_of_true (.inl rfl) nofun
  | cons p l =>
    have hne : ((p :: l).length : Int) ≠ 0 := by
      rw [List.length_cons]
      omega
    rw [or_iff_right hne]
    exact and_iff_right rfl

/-- **The invariant implies the bookkeeping.** -/
theorem Good.kept (h : s.Good l) : s.Kept where
  linked := by
    rw [h.chain_eq]
    exact h.linked
  bucketsCount := by rw [h.chain_eq, h.bucketsCount]
  scheduleDropCount := by rw [h.scheduleDropCount, scheduled, List.length_map]
  scheduleDropChunkCount := h.scheduleDropChunkCount
  disjoint p hp := by
    rw [h.chain_eq] at hp
    exact h.disjoint hp
  exists_live p hp := h.mem_existing.mpr (.inl (h.live p hp))
  isEmpty := h.isEmpty_iff

/-! ### Blocks -/

/-- The blocks of the other buckets are the same. -/
theorem Good.used_update (h : s.Good l) {b : Bucket} {live : List Nat}
    (hb : b.Used (live.count p)) (hlive : ∀ q ≠ p, live.count q = s.live.count q) :
    ∀ q ∈ s.existing, (Function.update s.buckets p b q).Used (live.count q) := by
  intro q hq
  by_cases hqp : q = p
  · rw [hqp, Function.update_self]
    exact hb
  · rw [Function.update_of_ne hqp, hlive q hqp]
    exact h.used q hq

/-- The chunks of the schedule are the same when a bucket keeps its chunks. -/
theorem sum_update {b : Bucket} (hb : b.chunkCount = (s.buckets p).chunkCount) (l : List Nat) :
    (l.map fun q => (Function.update s.buckets p b q).chunkCount).sum =
      (l.map fun q => (s.buckets q).chunkCount).sum := by
  congr 1
  refine List.map_congr_left fun q _ => ?_
  by_cases hqp : q = p
  · rw [hqp, Function.update_self, hb]
  · rw [Function.update_of_ne hqp]

/-- **A chunk is taken** from a bucket of the chain. -/
theorem Good.take (h : s.Good l) (hp : p ∈ l) (ht : s.take p = some t) :
    Good { t with live := p :: t.live } l := by
  obtain ⟨b, hb, rfl⟩ := Option.map_eq_some_iff.mp ht
  have hused := h.used p (h.mem_existing.mpr (.inl hp))
  have hchunks : b.chunkCount = (s.buckets p).chunkCount := by
    rw [Bucket.allocate] at hb
    split_ifs at hb
    cases hb
    rfl
  refine { h with used := h.used_update ?_ ?_, live := ?_, scheduleDropChunkCount := ?_ }
  · rw [List.count_cons_self]
    exact hused.allocate hb
  · exact fun q hq => List.count_cons_of_ne (Ne.symm hq)
  · exact List.forall_mem_cons.mpr ⟨hp, h.live⟩
  · exact h.scheduleDropChunkCount.trans (sum_update hchunks _).symm

theorem Good.allocateChunk (h : s.Good l) {r : Nat × Pool} (hr : s.allocateChunk = some r) :
    Good { r.2 with live := r.1 :: r.2.live } l := by
  rw [Pool.allocateChunk, h.chain_eq] at hr
  obtain ⟨p, hp, hr⟩ := List.exists_of_findSome?_eq_some hr
  obtain ⟨t, ht, rfl⟩ := Option.map_eq_some_iff.mp hr
  exact h.take hp ht

/-- **A block is given back.** -/
theorem Good.deallocateRawBlock (h : s.Good l) (hp : p ∈ s.live) :
    Good (s.deallocateRawBlock p) l := by
  have hused := h.used p (h.mem_existing.mpr (.inl (h.live p hp)))
  have hchunks : (s.buckets p).deallocate.chunkCount = (s.buckets p).chunkCount := rfl
  refine { h with used := h.used_update ?_ ?_, live := ?_, scheduleDropChunkCount := ?_ }
  · obtain ⟨n, hn⟩ := Nat.exists_eq_succ_of_ne_zero (Nat.ne_of_gt (List.count_pos_iff.mpr hp))
    show (s.buckets p).deallocate.Used ((s.live.erase p).count p)
    rw [List.count_erase_self, hn]
    rw [hn] at hused
    exact hused.deallocate
  · exact fun q hq => List.count_erase_of_ne hq
  · exact fun q hq => h.live q (List.mem_of_mem_erase hq)
  · exact h.scheduleDropChunkCount.trans (sum_update hchunks _).symm

/-- Where no bucket of the chain has a chunk, the loop over the buckets finds none. -/
theorem allocateInExisting_eq_none (hnone : s.allocateChunk = none) : ∀ (ps : List Nat)
    (freeChunks : Nat), allocateInExisting cfg s ps freeChunks = none := by
  intro ps
  induction ps with
  | nil => exact fun _ => rfl
  | cons p ps ih =>
    intro freeChunks
    rw [allocateInExisting, hnone]
    split_ifs
    · exact ih _
    · exact ih _

/-- **A bucket is created**, and its first chunk is taken. -/
theorem Good.createBucket (h : s.Good l) (cfg : Config) (hsized : 0 < s.nextBucketChunkCount ∧
    s.nextBucketChunkCount < 2 ^ 31 ∧ s.existing.length + 1 < 2 ^ 31) (hp : p ∉ s.existing) :
    ∃ t, (s.createBucket cfg p).take p = some t ∧
      Good { append l p t with live := p :: (append l p t).live } (l ++ [p]) := by
  obtain ⟨hpos, hlt, hlength⟩ := hsized
  have hcreated := Bucket.Used.create hpos hlt
  have hpl : p ∉ l := fun hl => hp (h.mem_existing.mpr (.inl hl))
  have hps : p ∉ s.scheduled := fun hs => hp (h.mem_existing.mpr (.inr hs))
  have hlive : s.live.count p = 0 := List.count_eq_zero.mpr fun hl => hpl (h.live p hl)
  obtain ⟨b, hb⟩ : ∃ b, (Bucket.create s.nextBucketChunkCount).allocate = some b :=
    ⟨_, hcreated.allocate_of_unused⟩
  obtain ⟨buckets, hbuckets⟩ : ∃ buckets, buckets =
    Function.update (Function.update s.buckets p (.create s.nextBucketChunkCount)) p b := ⟨_, rfl⟩
  have htake : (s.createBucket cfg p).take p =
      some { s.createBucket cfg p with buckets := buckets } := by
    rw [Pool.take, hbuckets]
    show Option.map _ (Function.update s.buckets p (.create s.nextBucketChunkCount) p).allocate = _
    rw [Function.update_self, hb]
    rfl
  have hself : buckets p = b := by rw [hbuckets, Function.update_self]
  have hother : ∀ q ≠ p, buckets q = s.buckets q := fun q hq => by
    rw [hbuckets, Function.update_of_ne hq, Function.update_of_ne hq]
  refine ⟨_, htake, ?_⟩
  have hlinked : (s.links.setLink (some p) none).Linked none l :=
    h.linked.setLink_of_not_mem (Option.some_ne_none p).symm fun a ha heq =>
      hpl (Option.some.inj heq ▸ ha)
  have hnext : (s.links.setLink (some p) none).next p = none := Links.link_setLink _ (some p) none
  have hne : ∀ q ∈ s.scheduled, q ≠ p := fun q hq heq => hps (heq ▸ hq)
  have hnodup := (List.nodup_append.mp h.nodup).1
  refine ⟨hlinked.concat hnodup hpl hnext, fun q hq => ?_, ?_, ?_, hlength, ?_, ?_, ?_,
    h.scheduleDropCount, ?_⟩
  · have hlast : some q ≠ Links.lastOf none l :=
      Links.some_ne_lastOf fun hl => h.disjoint hl hq
    exact (Links.link_setLink_of_ne hlast).trans ((Links.link_setLink_of_ne fun heq =>
      hne q hq (Option.some.inj heq)).trans (h.unlinked q hq))
  · show (l ++ [p] ++ s.scheduled).Nodup
    rw [List.append_assoc, List.singleton_append, List.nodup_middle]
    exact List.nodup_cons.mpr ⟨fun hmem => (List.mem_append.mp hmem).elim hpl hps, h.nodup⟩
  · show (p :: s.existing).Perm (l ++ [p] ++ s.scheduled)
    rw [List.append_assoc, List.singleton_append]
    exact (h.existing.cons p).trans List.perm_middle.symm
  · refine List.forall_mem_cons.mpr ⟨?_, fun q hq => ?_⟩
    · show (buckets p).Used ((p :: s.live).count p)
      rw [hself, List.count_cons_self, hlive]
      exact hcreated.allocate hb
    · have hqp : q ≠ p := fun heq => hp (heq ▸ hq)
      show (buckets q).Used ((p :: s.live).count q)
      rw [hother q hqp, List.count_cons_of_ne (Ne.symm hqp)]
      exact h.used q hq
  · refine List.forall_mem_cons.mpr ⟨List.mem_append_right l (List.mem_singleton_self p), ?_⟩
    exact fun q hq => List.mem_append_left _ (h.live q hq)
  · have hle : l.length ≤ s.existing.length := by
      rw [h.existing.length_eq, List.length_append]
      exact Nat.le_add_right _ _
    show toInt (s.bucketsCount + 1) = ((l ++ [p]).length : Int)
    rw [h.bucketsCount, List.length_append, List.length_singleton,
      toInt_of_lt (by omega) (by omega)]
    rfl
  · refine h.scheduleDropChunkCount.trans (congrArg List.sum (List.map_congr_left fun q hq => ?_))
    exact congrArg Bucket.chunkCount (hother q (hne q hq)).symm

/-! ### The schedule -/

theorem subSize_add {m n : Nat} (h : m + n < 2 ^ 64) : subSize (m + n) m = n := by
  rw [subSize]
  omega

/-- The chunks of some of the buckets are a number of `size_t`. -/
theorem Good.sum_lt (h : s.Good l) {ps : List Nat} (hps : ps.length ≤ s.existing.length)
    (hsub : ps ⊆ s.existing) : (ps.map fun p => (s.buckets p).chunkCount).sum < 2 ^ 64 := by
  have hlength := h.length_lt
  have hsum : (ps.map fun p => (s.buckets p).chunkCount).sum ≤
      (ps.map fun p => (s.buckets p).chunkCount).length • 2 ^ 31 := by
    refine List.sum_le_card_nsmul _ _ fun n hn => ?_
    obtain ⟨p, hp, rfl⟩ := List.mem_map.mp hn
    exact (h.used p (hsub hp)).lt.le
  rw [List.length_map, smul_eq_mul] at hsum
  omega

theorem Good.nodup_scheduled (h : s.Good l) : s.scheduled.Nodup :=
  (List.nodup_append.mp h.nodup).2.1

theorem scheduled_filter (h : s.scheduled.Nodup) (p : Nat) :
    (s.dropSchedule.filter (·.1 ≠ p)).map Prod.fst = s.scheduled.erase p := by
  rw [h.erase_eq_filter, scheduled, List.filter_map]
  congr 1
  refine List.filter_congr fun entry _ => ?_
  rw [Function.comp_apply, bne, decide_not, Bool.beq_eq_decide_eq]

/-- **A bucket of the schedule is deleted.** -/
theorem Good.dropBucket (h : s.Good l) (hp : p ∈ s.scheduled) : (s.dropBucket p).Good l := by
  have hscheduled : (s.dropBucket p).scheduled = s.scheduled.erase p :=
    scheduled_filter h.nodup_scheduled p
  have hpl : p ∉ l := fun hl => h.disjoint hl hp
  have hexists : p ∈ s.existing := h.mem_existing.mpr (.inr hp)
  have hlength := h.existing.length_eq
  rw [List.length_append] at hlength
  have hperm : s.scheduled.Perm (p :: s.scheduled.erase p) := List.perm_cons_erase hp
  have hpos : 0 < s.scheduled.length := List.length_pos_of_mem hp
  have hlt := h.length_lt
  refine ⟨h.linked, ?_, ?_, ?_, ?_, ?_, h.live, h.bucketsCount, ?_, ?_⟩
  · rw [hscheduled]
    exact fun q hq => h.unlinked q (List.mem_of_mem_erase hq)
  · rw [hscheduled]
    exact h.nodup.sublist (List.erase_sublist.append_left l)
  · rw [hscheduled]
    have herase := h.existing.erase p
    rwa [List.erase_append_right _ hpl] at herase
  · exact (List.length_erase_le).trans_lt hlt
  · exact fun q hq => h.used q (List.mem_of_mem_erase hq)
  · rw [hscheduled, List.length_erase_of_mem hp]
    show toInt (s.scheduleDropCount - 1) = _
    rw [h.scheduleDropCount, toInt_of_lt (by omega) (by omega)]
    omega
  · rw [hscheduled]
    have hsum := (hperm.map fun q => (s.buckets q).chunkCount).sum_eq
    have hle : s.scheduled ⊆ s.existing := fun q hq => h.mem_existing.mpr (.inr hq)
    have hlt := h.sum_lt (by omega) hle
    show subSize s.scheduleDropChunkCount (s.buckets p).chunkCount = _
    rw [List.map_cons, List.sum_cons] at hsum
    rw [hsum] at hlt
    rw [h.scheduleDropChunkCount, hsum, subSize_add hlt]
    rfl

/-- The loop over the schedule. -/
theorem Good.checkDrops (checked : Nat → Nat) : ∀ {entries : List (Nat × Nat)} {s : Pool},
    s.Good l → (∀ entry ∈ entries, entry.1 ∈ s.scheduled) → (entries.map Prod.fst).Nodup →
    (entries.foldl (checkDrop cfg checked) s).Good l := by
  intro entries
  induction entries with
  | nil => exact fun h _ _ => h
  | cons entry entries ih =>
    intro s h hmem hnodup
    obtain ⟨hentry, hmem⟩ := List.forall_mem_cons.mp hmem
    obtain ⟨hnot, hnodup⟩ := List.nodup_cons.mp hnodup
    rw [List.foldl_cons, checkDrop]
    split_ifs
    · refine ih (h.dropBucket hentry) (fun other hother => ?_) hnodup
      have hne : other.1 ≠ entry.1 := fun heq => hnot (heq ▸ List.mem_map_of_mem hother)
      rw [scheduled, Pool.dropBucket, scheduled_filter h.nodup_scheduled]
      exact (List.mem_erase_of_ne hne).mpr (hmem other hother)
    · exact ih h hmem hnodup

/-- **An empty bucket is moved to the schedule.** -/
theorem Good.schedule (time : Nat → Nat) (h : s.Good (front ++ p :: back))
    (hempty : (s.buckets p).isEmpty = true) :
    (s.schedule time (Links.lastOf none front) p).Good (front ++ back) := by
  have hp : p ∈ front ++ p :: back := List.mem_append_right front List.mem_cons_self
  have hnot : p ∉ s.scheduled := h.disjoint hp
  have hcount : s.live.count p = 0 :=
    (h.used p (h.mem_existing.mpr (.inl hp))).isEmpty_iff.mp hempty
  have hscheduled : (s.schedule time (Links.lastOf none front) p).scheduled.Perm
      (p :: s.scheduled) := by
    refine (OrderedSet.emplace_perm fun entry hentry => ?_).map Prod.fst
    have hne : p ≠ entry.1 := fun heq => hnot (heq ▸ List.mem_map_of_mem hentry)
    rcases Nat.lt_or_gt_of_ne hne with hlt | hlt
    · exact .inl (decide_eq_true hlt)
    · exact .inr (decide_eq_true hlt)
  have hall : (front ++ p :: back ++ s.scheduled).Perm
      (front ++ back ++ (s.schedule time (Links.lastOf none front) p).scheduled) := by
    have hmiddle : (front ++ p :: back ++ s.scheduled).Perm (p :: (front ++ back ++ s.scheduled)) :=
      List.perm_middle.append_right s.scheduled
    refine hmiddle.trans (List.perm_middle.symm.trans ?_)
    exact hscheduled.symm.append_left (front ++ back)
  have hlength := h.existing.length_eq
  have hlt := h.length_lt
  rw [List.length_append, List.length_append, List.length_cons] at hlength
  have hnodup := (List.nodup_append.mp h.nodup).1
  refine ⟨h.linked.unlink hnodup, fun q hq => ?_, hall.nodup_iff.mp h.nodup,
    h.existing.trans hall, hlt, h.used, fun q hq => ?_, ?_, ?_, ?_⟩
  · rcases List.mem_cons.mp (hscheduled.mem_iff.mp hq) with rfl | hq
    · exact Links.next_unlink_self _ _ _
    · have hqp : q ≠ p := fun heq => hnot (heq ▸ hq)
      have hlast : some q ≠ Links.lastOf none front :=
        Links.some_ne_lastOf fun hf => h.disjoint (List.mem_append_left _ hf) hq
      exact (Links.next_unlink_of_ne hqp hlast).trans (h.unlinked q hq)
  · have hqp : q ≠ p := fun heq => List.count_eq_zero.mp hcount (heq ▸ hq)
    rcases List.mem_append.mp (h.live q hq) with hf | hb
    · exact List.mem_append_left _ hf
    · exact List.mem_append_right _ ((List.mem_cons.mp hb).resolve_left hqp)
  · show toInt (s.bucketsCount - 1) = _
    rw [h.bucketsCount, List.length_append, List.length_cons, List.length_append,
      toInt_of_lt (by omega) (by omega)]
    omega
  · show toInt (s.scheduleDropCount + 1) = _
    rw [hscheduled.length_eq, h.scheduleDropCount, List.length_cons,
      toInt_of_lt (by omega) (by omega)]
    rfl
  · have hsum := (hscheduled.map fun q => (s.buckets q).chunkCount).sum_eq
    rw [List.map_cons, List.sum_cons] at hsum
    have hsub : p :: s.scheduled ⊆ s.existing :=
      List.cons_subset.mpr ⟨h.mem_existing.mpr (.inl hp), fun q hq => h.mem_existing.mpr (.inr hq)⟩
    have hsize := h.sum_lt (by rw [List.length_cons]; omega) hsub
    rw [List.map_cons, List.sum_cons] at hsize
    show (s.scheduleDropChunkCount + (s.buckets p).chunkCount) % 2 ^ 64 = _
    rw [h.scheduleDropChunkCount, Nat.add_comm, Nat.mod_eq_of_lt hsize]
    exact hsum.symm

theorem buckets_removeEmpty (time : Nat → Nat) : ∀ (ps : List Nat) (prev : Option Nat) (s : Pool),
    (removeEmpty time prev ps s).buckets = s.buckets := by
  intro ps
  induction ps with
  | nil => exact fun _ _ => rfl
  | cons p ps ih =>
    intro prev s
    rw [removeEmpty]
    split_ifs
    · exact ih (some p) s
    · exact ih (some p) s

/-- **The loop over the chain** leaves the buckets that are not empty. -/
theorem Good.removeEmpty (time : Nat → Nat) : ∀ {l front : List Nat} {s : Pool},
    s.Good (front ++ l) → (removeEmpty time (Links.lastOf none front) l s).Good
      (front ++ l.filter fun p => !(s.buckets p).isEmpty) := by
  intro l
  induction l with
  | nil => exact fun h => h
  | cons p l ih =>
    intro front s h
    have hlast : Links.lastOf none (front ++ [p]) = some p :=
      Links.lastOf_append_cons none front p []
    rw [← List.singleton_append, ← List.append_assoc] at h
    have hrest := ih h
    rw [hlast, List.append_assoc] at hrest
    have hbuckets := buckets_removeEmpty time l (some p) s
    rw [Pool.removeEmpty]
    by_cases hempty : (s.buckets p).isEmpty = true
    · rw [if_pos (by rwa [hbuckets]), List.filter_cons_of_neg (by rw [hempty]; decide)]
      exact hrest.schedule time (by rwa [hbuckets])
    · have hkept : (!(s.buckets p).isEmpty) = true := by rwa [Bool.not_eq_true', ← Bool.not_eq_true]
      rw [if_neg (by rwa [hbuckets]), List.filter_cons, if_pos hkept]
      exact hrest

theorem Good.garbageCollector (h : s.Good l) (cfg : Config) (force : Bool)
    (checked time : Nat → Nat) : ∃ l', (s.garbageCollector cfg force checked time).Good l' := by
  have hchecked : (s.dropSchedule.foldl (checkDrop cfg checked) s).Good l :=
    h.checkDrops checked (fun entry hentry => List.mem_map_of_mem hentry) h.nodup_scheduled
  rw [Pool.garbageCollector]
  generalize s.dropSchedule.foldl (checkDrop cfg checked) s = s at hchecked
  have hfront : s.Good ([] ++ l) := hchecked
  have hremoved := hfront.removeEmpty time
  rw [← hchecked.chain_eq] at hremoved
  split_ifs
  · exact ⟨_, { hremoved with }⟩
  · exact ⟨_, { hremoved with }⟩
  · exact ⟨l, { hchecked with }⟩

/-- An empty pool is cleared. -/
theorem Good.clear (h : s.Good l) (hlive : s.live = []) : s.clear.Good [] := by
  have hnone : s.clear.existing = [] := by
    refine List.filter_eq_nil_iff.mpr fun p hp => ?_
    rw [decide_eq_true_iff, h.chain_eq]
    exact fun hnot => (h.mem_existing.mp hp).elim hnot.1 hnot.2
  refine ⟨rfl, nofun, .nil, ?_, ?_, ?_, ?_, rfl, rfl, rfl⟩
  · rw [hnone]
    exact .refl _
  · rw [hnone]
    exact Nat.two_pow_pos 31
  · rw [hnone]
    exact nofun
  · intro p hp
    rw [show s.clear.live = s.live by rfl, hlive] at hp
    cases hp

/-! ### Reuse -/

theorem mem_scheduled_of_reusable (h : s.reusable cfg = some p) : p ∈ s.scheduled := by
  rw [reusable] at h
  cases hs : s.scheduled with
  | nil =>
    rw [hs] at h
    cases h
  | cons first rest =>
    rw [hs] at h
    simp only at h
    split_ifs at h
    cases h
    refine List.foldlRecOn (motive := fun q => q ∈ first :: rest) _ _ List.mem_cons_self ?_
    intro q hq r hr
    split_ifs
    · exact hr
    · exact hq

/-- **A bucket that is reused** is in the chain and is not counted. -/
theorem Good.not_kept_of_reuse (h : s.Good l) (hnone : s.allocateChunk = none)
    (hp : s.reusable cfg = some p) (address : Nat) : ¬ (s.allocateRawBlock cfg address).Kept := by
  have hscheduled := mem_scheduled_of_reusable hp
  have hpl : p ∉ l := fun hl => h.disjoint hl hscheduled
  have hlinked := h.linked.concat (List.nodup_append.mp h.nodup).1 hpl (h.unlinked p hscheduled)
  have hlength : (l ++ [p]).length < s.existing.length + 1 := by
    have hpos : 0 < s.scheduled.length := List.length_pos_of_mem hscheduled
    rw [h.existing.length_eq, List.length_append, List.length_append, List.length_singleton]
    omega
  obtain ⟨buckets, hbuckets⟩ : ∃ buckets,
      ((s.reuse p).take p).getD (s.reuse p) = { s.reuse p with buckets := buckets } := by
    rw [Pool.take]
    cases (s.reuse p).buckets p |>.allocate with
    | none => exact ⟨_, rfl⟩
    | some b => exact ⟨_, rfl⟩
  have hnext : s.allocateRawBlock cfg address =
      { append l p { s.reuse p with buckets := buckets } with live := p :: s.live } := by
    rw [allocateRawBlock, hnone, Option.getD_none, allocateBucketAndChunk,
      allocateInExisting_eq_none hnone, hp, h.chain_eq]
    simp only [hbuckets]
    rfl
  intro hkept
  rw [hnext] at hkept
  have hchain :
      chain { append l p { s.reuse p with buckets := buckets } with live := p :: s.live } =
        l ++ [p] := hlinked.walk_eq hlength
  have hcount := hkept.bucketsCount
  rw [hchain, List.length_append, List.length_singleton] at hcount
  have hold : s.bucketsCount = ((l.length + 1 : Nat) : Int) := hcount
  rw [h.bucketsCount] at hold
  omega

end

/-! ### Runs -/

section
variable {cfg : Config} {s t : Pool} {l : List Nat}

/-- **A step** keeps the invariant, unless it reuses a bucket. -/
theorem Good.next {a : Action} (h : s.Good l) (hsized : Sized cfg s a) (hreuse : NoReuse cfg s a)
    (ht : next cfg s a = some t) : ∃ l', t.Good l' := by
  cases a with
  | allocate address =>
    rw [MultiBucketPool.next] at ht
    split_ifs at ht with hnew
    cases ht
    cases hchunk : s.allocateChunk with
    | some r =>
      rw [allocateRawBlock, hchunk, Option.getD_some]
      exact ⟨l, h.allocateChunk hchunk⟩
    | none =>
      have hreuse := hreuse hnew hchunk
      obtain ⟨u, htake, hgood⟩ := h.createBucket cfg (hsized hchunk hreuse) hnew
      rw [allocateRawBlock, hchunk, Option.getD_none, allocateBucketAndChunk,
        allocateInExisting_eq_none hchunk, hreuse, h.chain_eq]
      simp only [htake, Option.getD_some]
      exact ⟨_, hgood⟩
  | deallocate p =>
    rw [MultiBucketPool.next] at ht
    split_ifs at ht with hlive
    cases ht
    exact ⟨l, h.deallocateRawBlock hlive⟩
  | garbageCollector force checked time =>
    cases ht
    exact h.garbageCollector cfg force checked time
  | clear =>
    rw [MultiBucketPool.next] at ht
    split_ifs at ht with hlive
    cases ht
    exact ⟨[], h.clear hlive⟩

theorem Good.keptRun_iff : ∀ {as : List Action} {s : Pool} {l : List Nat}, s.Good l →
    SizedRun cfg s as → (KeptRun cfg s as ↔ NoReuseRun cfg s as) := by
  intro as
  induction as with
  | nil => exact fun h _ => iff_of_true h.kept trivial
  | cons a as ih =>
    intro s l h hsized
    constructor
    · rintro ⟨-, hkept⟩
      have hreuse : NoReuse cfg s a := by
        cases a with
        | allocate address =>
          intro hnew hnone
          by_contra hsome
          obtain ⟨p, hp⟩ := Option.ne_none_iff_exists'.mp hsome
          have hnext := hkept (s.allocateRawBlock cfg address) (if_neg hnew)
          refine h.not_kept_of_reuse hnone hp address ?_
          cases as with
          | nil => exact hnext
          | cons _ _ => exact hnext.1
        | _ => trivial
      refine ⟨hreuse, fun t ht => ?_⟩
      obtain ⟨l', ht'⟩ := h.next hsized.1 hreuse ht
      exact (ih ht' (hsized.2 t ht)).mp (hkept t ht)
    · rintro ⟨hreuse, hrun⟩
      refine ⟨h.kept, fun t ht => ?_⟩
      obtain ⟨l', ht'⟩ := h.next hsized.1 hreuse ht
      exact (ih ht' (hsized.2 t ht)).mpr (hrun t ht)

/-- **When the bookkeeping is right**: exactly in the runs that never reuse a bucket. -/
theorem keptRun_iff_noReuse {as : List Action} (hsized : SizedRun cfg (start cfg) as) :
    KeptRun cfg (start cfg) as ↔ NoReuseRun cfg (start cfg) as :=
  (Good.start cfg).keptRun_iff hsized

/-- A bucket is used and cleared away. -/
theorem kept_cleared :
    KeptRun ⟨16, true, 2 ^ 20, 64, 5⟩ (start ⟨16, true, 2 ^ 20, 64, 5⟩)
      [.allocate 8, .deallocate 8, .clear] := by
  refine (keptRun_iff_noReuse ?_).mpr ?_
  · exact ⟨fun _ _ => ⟨by decide, by decide, by decide⟩, fun _ _ =>
      ⟨trivial, fun _ _ => ⟨trivial, fun _ _ => trivial⟩⟩⟩
  · exact ⟨fun _ _ => rfl, fun _ _ => ⟨trivial, fun _ _ => ⟨trivial, fun _ _ => trivial⟩⟩⟩

/-- The last state of a run is as it should be. -/
theorem KeptRun.last : ∀ {as : List Action} {s : Pool}, KeptRun cfg s as →
    as.foldlM (MultiBucketPool.next cfg) s = some t → t.Kept := by
  intro as
  induction as with
  | nil =>
    rintro s h ⟨⟩
    exact h
  | cons a as ih =>
    intro s h ht
    rw [List.foldlM_cons] at ht
    obtain ⟨s', hs', ht⟩ := Option.bind_eq_some_iff.mp ht
    exact ih (h.2 s' hs') ht

/-- The forced garbage collector schedules the empty bucket, the next block takes it from there, and
the pool says that it is empty; then it says that it is not, when the block is given back and the
bucket is scheduled again. -/
theorem reused_not_counted :
    let cfg : Config := ⟨16, true, 2 ^ 20, 64, 5⟩
    let collect : Action := .garbageCollector true (fun _ => 0) (fun _ => 0)
    let run := [.allocate 8, .deallocate 8, collect, .allocate 16]
    let state (s : Pool) := (s.bucketsCount, s.chain, s.live, s.isEmpty)
    (run.foldlM (MultiBucketPool.next cfg) (start cfg)).map state = some (0, [8], [8], true) ∧
      ((run ++ [.deallocate 8, collect]).foldlM (MultiBucketPool.next cfg) (start cfg)).map state =
        some (-1, [], [], false) ∧
      ¬ KeptRun cfg (start cfg) run := by
  intro cfg collect run state
  have hrun : (run.foldlM (MultiBucketPool.next cfg) (start cfg)).map state =
      some (0, [8], [8], true) := by decide +kernel
  refine ⟨hrun, by decide +kernel, fun h => ?_⟩
  obtain ⟨t, ht, hstate⟩ := Option.map_eq_some_iff.mp hrun
  have hcount := (h.last ht).bucketsCount
  obtain ⟨hbuckets, hchain⟩ := Prod.mk.inj hstate
  rw [hbuckets, (Prod.mk.inj hchain).1] at hcount
  cases hcount

end

end Pool

end Hatn.Common.MultiBucketPool
