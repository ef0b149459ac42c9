import Hatn.Common.MachineInt
import Mathlib.Algebra.Order.BigOperators.Group.List
import Mathlib.Data.List.Nodup
import Mathlib.Data.List.Pairwise
import Mathlib.Logic.Function.Basic

/-!
# Buckets of preallocated chunks

Threads take chunks from a bucket and put them back with single atomic steps, in any order.
A chunk that is put back is written to the next slot of a ring; a thread that takes one from
the ring claims the slot in one step and reads it in a later one.  Meanwhile the others can
go round the ring and write to the slot again: the chunk in it is lost then, and the other one
is taken twice.  `kept_iff` says that this is all that can go wrong.
-/

namespace Hatn.Common.PreallocatedBucket

/-- How far a call has come, with what it has in its hands.  A chunk is named by its index in
the array of chunks, and a slot by the count of the cursor. -/
inductive Call
  /-- `allocate` is to add to `m_freeCount` again, and returns null. -/
  | refused
  /-- `m_freeCount` is less by one. -/
  | counted
  /-- `m_firstReadCursor` is to be less by one again. -/
  | overshot
  /-- A chunk of the ring is to be taken. -/
  | reuse
  /-- The slot is claimed by `m_readCursor`. -/
  | reading (i : Nat)
  /-- `deallocate` has the lock. -/
  | locked (chunk : Nat)
  /-- The slot is claimed by `m_writeCursor`. -/
  | writing (chunk i : Nat)
  /-- The chunk is in its slot. -/
  | stored
  /-- `m_freeCount` is more by one. -/
  | unlocking
  deriving DecidableEq

/-- The atomics, the ring, the lock, the calls in progress, and the chunks that are held. -/
structure State where
  freeCount : Int
  writeCursor : Nat
  readCursor : Nat
  firstReadCursor : Nat
  freeChunks : Nat → Option Nat
  lock : Bool
  calls : List Call
  held : List Nat

namespace State

def start (chunkCount : Nat) : State :=
  ⟨toInt chunkCount, 0, 0, 0, fun _ => none, false, [], []⟩

/-- The slot of a cursor, which is of 64 bits. -/
def slot (chunkCount i : Nat) : Nat := i % 2 ^ 64 % chunkCount

/-- One more call, or the next part of a call. -/
def call (s : State) (p : Call) : State := { s with calls := p :: s.calls }

/-- The next step of a call; `s` is without the call. -/
def advance (chunkCount : Nat) (s : State) : Call → State
  | .refused => { s with freeCount := toInt (s.freeCount + 1) }
  | .counted =>
    let cursor := s.firstReadCursor
    let s := { s with firstReadCursor := cursor + 1 }
    if cursor < chunkCount then { s with held := cursor :: s.held } else s.call .overshot
  | .overshot => { s with firstReadCursor := s.firstReadCursor - 1 }.call .reuse
  | .reuse => { s with readCursor := s.readCursor + 1 }.call (.reading s.readCursor)
  | .reading i => { s with held := (s.freeChunks (slot chunkCount i)).toList ++ s.held }
  | .locked chunk =>
    { s with writeCursor := s.writeCursor + 1 }.call (.writing chunk s.writeCursor)
  | .writing chunk i =>
    { s with freeChunks := Function.update s.freeChunks (slot chunkCount i) (some chunk) }.call
      .stored
  | .stored => { s with freeCount := toInt (s.freeCount + 1) }.call .unlocking
  | .unlocking => { s with lock := false }

/-- A thread begins a call, or takes the next step of its call. -/
inductive Action
  | allocate
  | deallocate (chunk : Nat)
  | advance (p : Call)

/-- A step; a thread waits for the lock, and deallocates only what it holds. -/
def next (chunkCount : Nat) (s : State) : Action → Option State
  | .allocate =>
    some ({ s with freeCount := toInt (s.freeCount - 1) }.call
      (if s.freeCount ≤ 0 then .refused else .counted))
  | .deallocate chunk =>
    if chunk ∈ s.held ∧ s.lock = false then
      some ({ s with held := s.held.erase chunk, lock := true }.call (.locked chunk))
    else none
  | .advance p =>
    if p ∈ s.calls then some (advance chunkCount { s with calls := s.calls.erase p } p) else none

/-! ### Where the chunks are -/

/-- The chunk in the hands of `deallocate`. -/
def carriedBy : Call → List Nat
  | .locked chunk | .writing chunk _ => [chunk]
  | _ => []

/-- The slot that `allocate` is to read. -/
def claimedBy : Call → List Nat
  | .reading i => [i]
  | _ => []

def isWriting : Call → Nat
  | .writing _ _ => 1
  | _ => 0

/-- How many slots were written. -/
def written (s : State) : Nat := s.writeCursor - (s.calls.map isWriting).sum

/-- The slots with chunks that are to be read: those claimed, and those that are not. -/
def pending (s : State) : List Nat :=
  s.calls.flatMap claimedBy ++ List.range' s.readCursor (s.written - s.readCursor)

/-- The chunks of the array that were not taken yet. -/
def fresh (chunkCount : Nat) (s : State) : List Nat :=
  List.range' s.firstReadCursor (chunkCount - s.firstReadCursor)

/-- All chunks: held, in the hands of a call, in the ring, and not taken yet. -/
def chunks (chunkCount : Nat) (s : State) : List Nat :=
  s.held ++ (s.calls.flatMap carriedBy ++
    (s.pending.flatMap (fun i => (s.freeChunks (slot chunkCount i)).toList) ++ s.fresh chunkCount))

/-- No chunk is held twice, and none is lost. -/
structure Kept (chunkCount : Nat) (s : State) : Prop where
  once : s.held.Nodup
  all : ∀ chunk < chunkCount, chunk ∈ s.chunks chunkCount

/-- All states of a run are as they should be. -/
def KeptRun (chunkCount : Nat) : State → List Action → Prop
  | s, [] => s.Kept chunkCount
  | s, a :: as => s.Kept chunkCount ∧ ∀ t, s.next chunkCount a = some t → KeptRun chunkCount t as

/-- No chunk is written to a slot whose chunk is to be read. -/
def Regular (chunkCount : Nat) (s : State) : Action → Prop
  | .advance (.writing chunk i) => Call.writing chunk i ∈ s.calls →
    ∀ j ∈ s.pending, slot chunkCount j ≠ slot chunkCount i
  | _ => True

def RegularRun (chunkCount : Nat) : State → List Action → Prop
  | _, [] => True
  | s, a :: as => s.Regular chunkCount a ∧
    ∀ t, s.next chunkCount a = some t → RegularRun chunkCount t as

/-- There are not so many calls that `m_freeCount`, an `int`, wraps. -/
def Counted (s : State) : Action → Prop
  | .allocate => -2 ^ 31 < s.freeCount
  | _ => True

def CountedRun (chunkCount : Nat) : State → List Action → Prop
  | _, [] => True
  | s, a :: as => s.Counted a ∧ ∀ t, s.next chunkCount a = some t → CountedRun chunkCount t as

/-! ### The invariant -/

def isCritical : Call → Nat
  | .locked _ | .writing _ _ | .stored | .unlocking => 1
  | _ => 0

def isRefused : Call → Nat
  | .refused => 1
  | _ => 0

def isOvershot : Call → Nat
  | .overshot => 1
  | _ => 0

def isReuse : Call → Nat
  | .reuse => 1
  | _ => 0

/-- What a call has to do with `m_freeCount` and the cursors: it is counted by one of them
less or more than by the others. -/
def token : Call → Nat
  | .refused | .counted | .reuse | .stored => 1
  | _ => 0

/-- How many calls in progress are of a kind. -/
def total (s : State) (kind : Call → Nat) : Nat := (s.calls.map kind).sum

/-- Each chunk is at one place, and each slot that is to be read has its chunk. -/
structure Placed (chunkCount : Nat) (s : State) : Prop where
  count : ∀ chunk, (s.chunks chunkCount).count chunk = (List.range chunkCount).count chunk
  filled : ∀ i ∈ s.pending, ∃ chunk, s.freeChunks (slot chunkCount i) = some chunk
  slots : (s.pending.map (slot chunkCount)).Nodup

/-- The counters agree with each other and with the calls; `initial` is `m_freeCount` at first. -/
structure Balanced (chunkCount : Nat) (initial : Int) (s : State) : Prop where
  critical : s.total isCritical = s.lock.toNat
  writing : ∀ chunk i, .writing chunk i ∈ s.calls → i + 1 = s.writeCursor
  writing_le : s.total isWriting ≤ s.writeCursor
  read_le : s.readCursor ≤ s.written
  overshot_le : s.firstReadCursor ≤ chunkCount + s.total isOvershot
  overshot_eq : 0 < s.total isOvershot + s.total isReuse + s.readCursor →
    s.firstReadCursor = chunkCount + s.total isOvershot
  tokens : s.freeCount + s.total token + s.firstReadCursor + s.readCursor =
    initial + s.written
  refused : min 0 initial ≤ s.freeCount + s.total isRefused
  count_ge : -2 ^ 31 ≤ s.freeCount

structure Good (chunkCount : Nat) (s : State) : Prop extends
  Placed chunkCount s, Balanced chunkCount (toInt chunkCount) s

section
variable {chunkCount : Nat} {initial : Int} {s t : State} {p : Call} {calls : List Call}

theorem Placed.start (chunkCount : Nat) : Placed chunkCount (start chunkCount) where
  count chunk := by
    show (List.range' 0 (chunkCount - 0)).count chunk = _
    rw [Nat.sub_zero, List.range_eq_range']
  filled := nofun
  slots := .nil

theorem Balanced.start (chunkCount : Nat) :
    Balanced chunkCount (toInt chunkCount) (start chunkCount) where
  critical := rfl
  writing := nofun
  writing_le := Nat.le_refl 0
  read_le := Nat.le_refl 0
  overshot_le := Nat.zero_le _
  overshot_eq h := absurd h (Nat.lt_irrefl 0)
  tokens := by simp [State.start, total, written]
  refused := by simp [State.start, total]
  count_ge := by
    simp only [State.start]
    exact le_toInt chunkCount

theorem Good.start (chunkCount : Nat) : Good chunkCount (start chunkCount) :=
  ⟨.start chunkCount, .start chunkCount⟩

/-! #### The calls are in no order -/

theorem total_perm (hp : s.calls.Perm calls) (kind : Call → Nat) :
    total { s with calls := calls } kind = s.total kind :=
  (hp.map kind).sum_eq.symm

theorem written_perm (hp : s.calls.Perm calls) :
    written { s with calls := calls } = s.written :=
  congrArg (s.writeCursor - ·) (total_perm hp isWriting)

theorem pending_perm (hp : s.calls.Perm calls) :
    (pending { s with calls := calls }).Perm s.pending := by
  rw [pending, written_perm hp]
  exact (hp.flatMap_right claimedBy).symm.append_right _

theorem Placed.perm (h : Placed chunkCount s) (hp : s.calls.Perm calls) :
    Placed chunkCount { s with calls := calls } where
  count chunk := by
    rw [← h.count chunk]
    refine List.Perm.count_eq ?_ chunk
    refine (List.Perm.refl _).append ((hp.flatMap_right carriedBy).symm.append ?_)
    exact ((pending_perm hp).flatMap_right _).append (List.Perm.refl _)
  filled i hi := h.filled i ((pending_perm hp).mem_iff.mp hi)
  slots := ((pending_perm hp).map _).nodup_iff.mpr h.slots

theorem Balanced.perm (h : Balanced chunkCount initial s) (hp : s.calls.Perm calls) :
    Balanced chunkCount initial { s with calls := calls } where
  critical := (total_perm hp _).trans h.critical
  writing chunk i hi := h.writing chunk i (hp.mem_iff.mpr hi)
  writing_le := (total_perm hp _).trans_le h.writing_le
  read_le := h.read_le.trans_eq (written_perm hp).symm
  overshot_le := by
    rw [total_perm hp]
    exact h.overshot_le
  overshot_eq := by
    rw [total_perm hp, total_perm hp]
    exact h.overshot_eq
  tokens := by
    rw [total_perm hp, written_perm hp]
    exact h.tokens
  refused := by
    rw [total_perm hp]
    exact h.refused
  count_ge := h.count_ge

/-! #### One call more -/

theorem total_call (s : State) (p : Call) (kind : Call → Nat) :
    (s.call p).total kind = kind p + s.total kind := by
  rw [total, call, List.map_cons, List.sum_cons]
  rfl

theorem written_call (s : State) (p : Call) :
    (s.call p).written = s.writeCursor - (isWriting p + s.total isWriting) :=
  congrArg (s.writeCursor - ·) (total_call s p isWriting)

theorem total_le {kind kind' : Call → Nat} (h : ∀ p, kind p ≤ kind' p) (s : State) :
    s.total kind ≤ s.total kind' :=
  List.sum_le_sum fun p _ => h p

theorem isWriting_le (p : Call) : isWriting p ≤ isCritical p := by
  cases p <;> simp [isWriting, isCritical]

theorem isRefused_le (p : Call) : isRefused p ≤ token p := by
  cases p <;> simp [isRefused, token]

/-- Only one call is between `lock` and `unlock`. -/
theorem Balanced.alone (h : Balanced chunkCount initial (s.call p)) (hp : isCritical p = 1) :
    s.lock = true ∧ s.total isCritical = 0 ∧ s.total isWriting = 0 := by
  have hcritical := h.critical
  rw [total_call, hp] at hcritical
  have hle := total_le isWriting_le s
  have hlock : (s.call p).lock = s.lock := rfl
  rw [hlock] at hcritical
  cases hs : s.lock with
  | false =>
    rw [hs, Bool.toNat_false] at hcritical
    exact absurd hcritical (by omega)
  | true =>
    rw [hs, Bool.toNat_true] at hcritical
    exact ⟨rfl, by omega, by omega⟩

theorem not_mem_writing (h : s.total isWriting = 0) (chunk i : Nat) :
    Call.writing chunk i ∉ s.calls := by
  intro hi
  have hmem : isWriting (.writing chunk i) ∈ s.calls.map isWriting := List.mem_map_of_mem hi
  have hle := List.single_le_sum (fun _ _ => Nat.zero_le _) _ hmem
  have hone : isWriting (.writing chunk i) = 1 := rfl
  rw [total] at h
  omega

/-! #### Chunks and counts -/

theorem count_chunks (s : State) (chunk : Nat) : (s.chunks chunkCount).count chunk =
    s.held.count chunk + ((s.calls.flatMap carriedBy).count chunk +
      ((s.pending.flatMap fun i => (s.freeChunks (slot chunkCount i)).toList).count chunk +
        (s.fresh chunkCount).count chunk)) := by
  simp only [chunks, List.count_append]

theorem range'_sub_cons {a b : Nat} (h : a < b) :
    List.range' a (b - a) = a :: List.range' (a + 1) (b - (a + 1)) := by
  have hsub : b - a = b - (a + 1) + 1 := by omega
  rw [hsub, List.range'_succ]

theorem range'_sub_concat {a b : Nat} (h : a ≤ b) :
    List.range' a (b + 1 - a) = List.range' a (b - a) ++ [b] := by
  have hsub : b + 1 - a = b - a + 1 := by omega
  rw [hsub, List.range'_1_concat, Nat.add_sub_cancel' h]

theorem Placed.congr (h : Placed chunkCount s) (hfree : t.freeChunks = s.freeChunks)
    (hpending : t.pending.Perm s.pending)
    (hchunks : ∀ chunk, (t.chunks chunkCount).count chunk = (s.chunks chunkCount).count chunk) :
    Placed chunkCount t where
  count chunk := (hchunks chunk).trans (h.count chunk)
  filled i hi := by
    rw [hfree]
    exact h.filled i (hpending.mem_iff.mp hi)
  slots := (hpending.map _).nodup_iff.mpr h.slots

/-- As many chunks are in the ring as have slots that are to be read. -/
theorem Placed.length_ring (h : Placed chunkCount s) :
    (s.pending.flatMap fun i => (s.freeChunks (slot chunkCount i)).toList).length =
      s.pending.length := by
  have hone : ∀ i ∈ s.pending, (s.freeChunks (slot chunkCount i)).toList.length = 1 := by
    intro i hi
    obtain ⟨chunk, hchunk⟩ := h.filled i hi
    rw [hchunk]
    rfl
  rw [List.length_flatMap, List.map_congr_left hone]
  simp

theorem Placed.length_le (h : Placed chunkCount s) :
    (s.written - s.readCursor) + (chunkCount - s.firstReadCursor) ≤ chunkCount := by
  have hperm : (s.chunks chunkCount).Perm (List.range chunkCount) :=
    List.perm_iff_count.mpr h.count
  have hlength := hperm.length_eq
  rw [chunks, List.length_append, List.length_append, List.length_append, h.length_ring, pending,
    List.length_append, fresh, List.length_range', List.length_range', List.length_range] at hlength
  omega

theorem Good.freeCount_le (h : Good chunkCount s) :
    s.freeCount + s.total token ≤ toInt chunkCount := by
  have hle := h.length_le
  have htokens := h.tokens
  have hread := h.read_le
  generalize toInt chunkCount = initial at *
  omega

/-- Nothing is added to `m_freeCount` that makes it wrap. -/
theorem Good.toInt_add_one (h : Good chunkCount (s.call p)) (hp : token p = 1) :
    toInt (s.freeCount + 1) = s.freeCount + 1 := by
  have hle := h.freeCount_le
  have hge := h.count_ge
  have hlt := toInt_lt chunkCount
  rw [total_call, hp] at hle
  have hfree : (s.call p).freeCount = s.freeCount := rfl
  rw [hfree] at hle hge
  exact Int.bmod_eq_of_le (by norm_num; omega) (by norm_num; omega)

/-! ### Steps -/

/-- A call that has no chunk and no slot in its hands. -/
structure Plain (p : Call) : Prop where
  carried : carriedBy p = []
  claimed : claimedBy p = []
  writing : isWriting p = 0

theorem Plain.written_call (hp : Plain p) (s : State) : (s.call p).written = s.written := by
  rw [State.written_call, hp.writing, Nat.zero_add]
  rfl

theorem Plain.pending_call (hp : Plain p) (s : State) : (s.call p).pending = s.pending := by
  rw [pending, hp.written_call, call, List.flatMap_cons, hp.claimed]
  rfl

theorem Plain.chunks_call (hp : Plain p) (s : State) :
    (s.call p).chunks chunkCount = s.chunks chunkCount := by
  rw [chunks, hp.pending_call, call, List.flatMap_cons, hp.carried]
  rfl

theorem Plain.placed (hp : Plain p) : Placed chunkCount (s.call p) ↔ Placed chunkCount s := by
  have hpending := hp.pending_call s
  have hchunks : (s.call p).chunks chunkCount = s.chunks chunkCount := hp.chunks_call s
  exact ⟨fun h => h.congr rfl (.of_eq hpending.symm) fun c => congrArg _ hchunks.symm,
    fun h => h.congr rfl (.of_eq hpending) fun c => congrArg _ hchunks⟩

/-- The cursor of `deallocate` stays the last one while it writes. -/
theorem Balanced.writing_step (h : Balanced chunkCount initial (s.call p)) :
    ∀ chunk i, .writing chunk i ∈ (advance chunkCount s p).calls →
      i + 1 = (advance chunkCount s p).writeCursor := by
  have hrest : ∀ chunk i, .writing chunk i ∈ s.calls → i + 1 = s.writeCursor :=
    fun chunk i hi => h.writing chunk i (List.mem_cons_of_mem _ hi)
  cases p with
  | refused => exact hrest
  | counted =>
    rw [advance]
    dsimp only
    split
    · exact hrest
    · simpa [call] using hrest
  | overshot => simpa [advance, call] using hrest
  | reuse => simpa [advance, call] using hrest
  | reading i => exact hrest
  | locked c =>
    intro chunk i hi
    have hnone := not_mem_writing (h.alone rfl).2.2 chunk i
    simp only [advance, call, List.mem_cons, Call.writing.injEq] at hi ⊢
    obtain ⟨-, rfl⟩ | hi := hi
    · rfl
    · exact absurd hi hnone
  | writing c i => simpa [advance, call] using hrest
  | stored => simpa [advance, call] using hrest
  | unlocking => exact hrest

theorem Balanced.advance_step (h : Balanced chunkCount initial (s.call p))
    (hinitial : initial ≤ chunkCount)
    (hadd : token p = 1 → toInt (s.freeCount + 1) = s.freeCount + 1) :
    Balanced chunkCount initial (advance chunkCount s p) := by
  have hstep := h.writing_step
  have hlock := Bool.toNat_le s.lock
  have htoken := total_le isRefused_le s
  have hcritical := total_le isWriting_le s
  obtain ⟨hlocked, -, hwriting, hread, hle, hfirst, htokens, hrefused, hge⟩ := h
  cases p with
  | counted =>
    simp only [total, written, call, List.map_cons, List.sum_cons, isCritical, isWriting,
      isOvershot, isReuse, isRefused, token]
      at hlocked hwriting hread hle hfirst htokens hrefused hge htoken hcritical
    constructor
    case writing => exact hstep
    all_goals
      rw [advance]
      dsimp only
      split
      all_goals
        simp only [total, written, call, List.map_cons, List.sum_cons, isCritical, isWriting,
          isOvershot, isReuse, isRefused, token]
        omega
  | _ =>
    simp only [total, written, call, List.map_cons, List.sum_cons, isCritical, isWriting,
      isOvershot, isReuse, isRefused, token, true_implies]
      at hadd hlocked hwriting hread hle hfirst htokens hrefused hge htoken hcritical
    constructor
    case writing => exact hstep
    all_goals
      simp only [total, written, call, List.map_cons, List.sum_cons, isCritical, isWriting,
        isOvershot, isReuse, isRefused, token, advance, Bool.toNat_false]
      omega

/-- When a chunk of the ring is to be taken, there is one. -/
theorem Balanced.read_lt (h : Balanced chunkCount initial (s.call .reuse))
    (hinitial : initial ≤ chunkCount) : s.readCursor < s.written := by
  have htoken := total_le isRefused_le s
  obtain ⟨-, -, -, -, -, hfirst, htokens, hrefused, -⟩ := h
  simp only [total, written, call, List.map_cons, List.sum_cons, isWriting, isOvershot, isReuse,
    isRefused, token] at *
  omega

theorem Placed.counted_step (h : Placed chunkCount s) :
    Placed chunkCount (advance chunkCount s .counted) := by
  rw [advance]
  dsimp only
  split
  case isTrue hlt =>
    refine h.congr rfl (.refl _) fun chunk => ?_
    rw [count_chunks, count_chunks, fresh, fresh, range'_sub_cons hlt, List.count_cons,
      List.count_cons]
    dsimp only [pending, written, total]
    omega
  case isFalse hge =>
    refine (Plain.placed ⟨rfl, rfl, rfl⟩).mpr (h.congr rfl (.refl _) fun chunk => ?_)
    have hempty : chunkCount - s.firstReadCursor = 0 := by omega
    have hempty' : chunkCount - (s.firstReadCursor + 1) = 0 := by omega
    rw [count_chunks, count_chunks, fresh, fresh, hempty]
    dsimp only
    rw [hempty']
    rfl

theorem Placed.overshot_step (h : Placed chunkCount s) (hle : chunkCount < s.firstReadCursor) :
    Placed chunkCount (advance chunkCount s .overshot) := by
  refine (Plain.placed ⟨rfl, rfl, rfl⟩).mpr (h.congr rfl (.refl _) fun chunk => ?_)
  have hempty : chunkCount - s.firstReadCursor = 0 := by omega
  have hempty' : chunkCount - (s.firstReadCursor - 1) = 0 := by omega
  rw [count_chunks, count_chunks, fresh, fresh, hempty]
  dsimp only
  rw [hempty']
  rfl

theorem Placed.reuse_step (h : Placed chunkCount s) (hlt : s.readCursor < s.written) :
    Placed chunkCount (advance chunkCount s .reuse) := by
  have hpending : (advance chunkCount s .reuse).pending.Perm s.pending := by
    rw [pending, pending, range'_sub_cons hlt, advance, written_call]
    simp only [isWriting, Nat.zero_add, call, List.flatMap_cons, claimedBy]
    exact List.perm_middle.symm
  refine h.congr rfl hpending fun chunk => ?_
  rw [count_chunks, count_chunks, (hpending.flatMap_right _).count_eq]
  rfl

/-- The chunk goes from its slot to the thread. -/
theorem Placed.reading_step {i : Nat} (h : Placed chunkCount (s.call (.reading i))) :
    Placed chunkCount (advance chunkCount s (.reading i)) := by
  have hpending : (s.call (.reading i)).pending = i :: s.pending := by
    rw [pending, written_call]
    simp only [isWriting, Nat.zero_add, call, List.flatMap_cons, claimedBy]
    rfl
  obtain ⟨hcount, hfilled, hslots⟩ := h
  rw [hpending] at hfilled hslots
  refine ⟨fun chunk => ?_, fun j hj => hfilled j (List.mem_cons_of_mem _ hj),
    (List.nodup_cons.mp hslots).2⟩
  rw [← hcount chunk, count_chunks, count_chunks, hpending, List.flatMap_cons, List.count_append]
  simp only [advance, call, List.flatMap_cons, carriedBy, List.nil_append, List.count_append]
  dsimp only [pending, written, total, fresh]
  omega

theorem Placed.locked_step {chunk : Nat} (h : Placed chunkCount (s.call (.locked chunk)))
    (hnone : s.total isWriting = 0) : Placed chunkCount (advance chunkCount s (.locked chunk)) := by
  rw [total] at hnone
  have hwritten : (advance chunkCount s (.locked chunk)).written =
      (s.call (.locked chunk)).written := by
    simp only [advance, written, call, List.map_cons, List.sum_cons, isWriting, hnone]
    omega
  have hpending : (advance chunkCount s (.locked chunk)).pending =
      (s.call (.locked chunk)).pending := by
    rw [pending, pending, hwritten]
    rfl
  refine h.congr rfl (.of_eq hpending) fun c => ?_
  rw [count_chunks, count_chunks, hpending]
  rfl

/-- One more slot is to be read when a chunk is stored. -/
theorem pending_writing {chunk i : Nat} (hnone : s.total isWriting = 0)
    (hi : i + 1 = s.writeCursor) (hle : s.readCursor ≤ i) :
    (advance chunkCount s (.writing chunk i)).pending =
      (s.call (.writing chunk i)).pending ++ [i] := by
  rw [total] at hnone
  have hwritten : (s.call (.writing chunk i)).written = i := by
    simp only [written, call, List.map_cons, List.sum_cons, isWriting, hnone]
    omega
  have hwritten' : (advance chunkCount s (.writing chunk i)).written = i + 1 := by
    simp only [advance, written, call, List.map_cons, List.sum_cons, isWriting, hnone]
    omega
  rw [pending, pending, hwritten, hwritten', List.append_assoc]
  exact congrArg (s.calls.flatMap claimedBy ++ ·) (range'_sub_concat hle)

/-- The chunk goes from the hands of the call to its slot, and no other one is in the way. -/
theorem Placed.writing_step {chunk i : Nat} (h : Placed chunkCount (s.call (.writing chunk i)))
    (hpending : (advance chunkCount s (.writing chunk i)).pending =
      (s.call (.writing chunk i)).pending ++ [i])
    (hregular : ∀ j ∈ (s.call (.writing chunk i)).pending,
      slot chunkCount j ≠ slot chunkCount i) :
    Placed chunkCount (advance chunkCount s (.writing chunk i)) := by
  have hother : ∀ j ∈ (s.call (.writing chunk i)).pending,
      (advance chunkCount s (.writing chunk i)).freeChunks (slot chunkCount j) =
        s.freeChunks (slot chunkCount j) := fun j hj => Function.update_of_ne (hregular j hj) _ _
  have hself : (advance chunkCount s (.writing chunk i)).freeChunks (slot chunkCount i) =
      some chunk := Function.update_self _ _ _
  refine ⟨fun c => ?_, ?_, ?_⟩
  · have hring := List.flatMap_congr fun j hj => congrArg Option.toList (hother j hj)
    rw [← h.count c, count_chunks, count_chunks, hpending, List.flatMap_append, hring,
      List.flatMap_singleton, hself, List.count_append]
    simp only [advance, call, List.flatMap_cons, carriedBy, List.nil_append, List.count_append,
      Option.toList_some]
    dsimp only [fresh]
    omega
  · intro j hj
    rw [hpending, List.mem_append, List.mem_singleton] at hj
    obtain hj | rfl := hj
    · rw [hother j hj]
      exact h.filled j hj
    · exact ⟨chunk, hself⟩
  · rw [hpending, List.map_append, List.nodup_append]
    refine ⟨h.slots, List.nodup_singleton _, ?_⟩
    intro k hk k' hk'
    obtain ⟨j, hj, rfl⟩ := List.mem_map.mp hk
    rw [List.map_singleton, List.mem_singleton] at hk'
    rw [hk']
    exact hregular j hj

/-- A step of a call keeps the invariant, if it does not write to a slot that is to be read. -/
theorem Good.advance_step (h : Good chunkCount (s.call p))
    (hregular : (s.call p).Regular chunkCount (.advance p)) :
    Good chunkCount (advance chunkCount s p) := by
  have hinitial : toInt chunkCount ≤ chunkCount := toInt_le (Int.natCast_nonneg _)
  refine ⟨?_, h.toBalanced.advance_step hinitial h.toInt_add_one⟩
  have hplaced : Plain p → Placed chunkCount s := fun hp => hp.placed.mp h.toPlaced
  cases p with
  | refused => exact (hplaced ⟨rfl, rfl, rfl⟩).congr rfl (.refl _) fun _ => rfl
  | counted => exact (hplaced ⟨rfl, rfl, rfl⟩).counted_step
  | overshot =>
    refine (hplaced ⟨rfl, rfl, rfl⟩).overshot_step ?_
    have hfirst := h.overshot_eq
    rw [total_call, isOvershot] at hfirst
    exact (Nat.lt_add_of_pos_right (by omega)).trans_eq (hfirst (by omega)).symm
  | reuse => exact (hplaced ⟨rfl, rfl, rfl⟩).reuse_step (h.read_lt hinitial)
  | reading i => exact h.reading_step
  | locked chunk => exact h.locked_step (h.alone rfl).2.2
  | writing chunk i =>
    have hi : i + 1 = s.writeCursor := h.writing chunk i List.mem_cons_self
    have hnone := (h.alone rfl).2.2
    have hread := h.read_le
    rw [written_call, hnone, isWriting] at hread
    have hle : s.readCursor ≤ i := hread.trans_eq (by omega)
    exact h.writing_step (pending_writing hnone hi hle) (hregular List.mem_cons_self)
  | stored =>
    refine (Plain.placed ⟨rfl, rfl, rfl⟩).mpr ?_
    exact (hplaced ⟨rfl, rfl, rfl⟩).congr rfl (.refl _) fun _ => rfl
  | unlocking => exact (hplaced ⟨rfl, rfl, rfl⟩).congr rfl (.refl _) fun _ => rfl

theorem Balanced.allocate_step (h : Balanced chunkCount initial s)
    (hcounted : -2 ^ 31 < s.freeCount) :
    Balanced chunkCount initial ({ s with freeCount := s.freeCount - 1 }.call
      (if s.freeCount ≤ 0 then .refused else .counted)) := by
  have hstep := h.writing
  obtain ⟨hlocked, -, hwriting, hread, hle, hfirst, htokens, hrefused, -⟩ := h
  split
  all_goals
    constructor
    case writing => simpa [call] using hstep
    all_goals
      simp only [total, written, call, List.map_cons, List.sum_cons, isCritical, isWriting,
        isOvershot, isReuse, isRefused, token] at *
      omega

theorem Good.allocate_step (h : Good chunkCount s) (hcounted : s.Counted .allocate)
    (ht : s.next chunkCount .allocate = some t) : Good chunkCount t := by
  have hcounted : -2 ^ 31 < s.freeCount := hcounted
  have hsub : toInt (s.freeCount - 1) = s.freeCount - 1 := by
    have hle := h.freeCount_le
    have hlt := toInt_lt chunkCount
    exact Int.bmod_eq_of_le (by norm_num; omega) (by norm_num; omega)
  rw [next, hsub] at ht
  obtain rfl := Option.some.inj ht
  refine ⟨(Plain.placed ?_).mpr (h.toPlaced.congr rfl (.refl _) fun _ => rfl),
    h.toBalanced.allocate_step hcounted⟩
  split
  · exact ⟨rfl, rfl, rfl⟩
  · exact ⟨rfl, rfl, rfl⟩

theorem Balanced.deallocate_step {chunk : Nat} (h : Balanced chunkCount initial s)
    (hlock : s.lock = false) : Balanced chunkCount initial
      ({ s with held := s.held.erase chunk, lock := true }.call (.locked chunk)) := by
  have hstep := h.writing
  obtain ⟨hlocked, -, hwriting, hread, hle, hfirst, htokens, hrefused, hge⟩ := h
  rw [hlock, Bool.toNat_false] at hlocked
  constructor
  case writing => simpa [call] using hstep
  all_goals
    simp only [total, written, call, List.map_cons, List.sum_cons, isCritical, isWriting,
      isOvershot, isReuse, isRefused, token, Bool.toNat_true] at *
    omega

theorem Placed.deallocate_step {chunk : Nat} (h : Placed chunkCount s) (hheld : chunk ∈ s.held) :
    Placed chunkCount
      ({ s with held := s.held.erase chunk, lock := true }.call (.locked chunk)) := by
  have hpending : pending ({ s with held := s.held.erase chunk, lock := true }.call
      (.locked chunk)) = s.pending := by
    simp only [pending, written, call, List.map_cons, List.sum_cons, isWriting, Nat.zero_add,
      List.flatMap_cons, claimedBy, List.nil_append]
  refine h.congr rfl (.of_eq hpending) fun c => ?_
  have hcount := (List.perm_cons_erase hheld).count_eq c
  rw [List.count_cons] at hcount
  rw [count_chunks, count_chunks, hpending]
  simp only [call, List.flatMap_cons, carriedBy, List.cons_append, List.nil_append,
    List.count_cons]
  dsimp only [fresh]
  omega

theorem Good.deallocate_step {chunk : Nat} (h : Good chunkCount s)
    (ht : s.next chunkCount (.deallocate chunk) = some t) : Good chunkCount t := by
  rw [next] at ht
  split at ht
  case isFalse => cases ht
  case isTrue hheld =>
    obtain rfl := Option.some.inj ht
    exact ⟨h.toPlaced.deallocate_step hheld.1, h.toBalanced.deallocate_step hheld.2⟩

theorem Good.next_step {a : Action} (h : Good chunkCount s) (hregular : s.Regular chunkCount a)
    (hcounted : s.Counted a) (ht : s.next chunkCount a = some t) : Good chunkCount t := by
  cases a with
  | allocate => exact h.allocate_step hcounted ht
  | deallocate chunk => exact h.deallocate_step ht
  | advance p =>
    rw [next] at ht
    split at ht
    case isFalse => cases ht
    case isTrue hp =>
      obtain rfl := Option.some.inj ht
      have hperm := List.perm_cons_erase hp
      refine Good.advance_step ⟨h.toPlaced.perm hperm, h.toBalanced.perm hperm⟩ ?_
      cases p with
      | writing chunk i =>
        exact fun _ j hj => hregular hp j ((pending_perm hperm).mem_iff.mp hj)
      | refused => trivial
      | counted => trivial
      | overshot => trivial
      | reuse => trivial
      | reading i => trivial
      | locked chunk => trivial
      | stored => trivial
      | unlocking => trivial

/-! ### Runs -/

theorem Placed.nodup (h : Placed chunkCount s) : (s.chunks chunkCount).Nodup := by
  refine List.nodup_iff_count_le_one.mpr fun chunk => ?_
  rw [h.count chunk]
  exact List.nodup_iff_count_le_one.mp List.nodup_range chunk

theorem Placed.mem_chunks (h : Placed chunkCount s) {chunk : Nat} :
    chunk ∈ s.chunks chunkCount ↔ chunk < chunkCount := by
  rw [← List.count_pos_iff, h.count chunk, List.count_pos_iff, List.mem_range]

theorem Placed.kept (h : Placed chunkCount s) : s.Kept chunkCount :=
  ⟨(List.nodup_append.mp h.nodup).1, fun _ hchunk => h.mem_chunks.mpr hchunk⟩

/-- What is in a slot that is to be read is in no other place. -/
theorem Placed.not_mem (h : Placed chunkCount s) {chunk : Nat}
    (hring : chunk ∈ s.pending.flatMap fun i => (s.freeChunks (slot chunkCount i)).toList) :
    chunk ∉ s.held ∧ chunk ∉ s.calls.flatMap carriedBy ∧ chunk ∉ s.fresh chunkCount := by
  have hone := List.nodup_iff_count_le_one.mp h.nodup chunk
  have hpos := List.count_pos_iff.mpr hring
  rw [count_chunks] at hone
  exact ⟨List.count_eq_zero.mp (by omega), List.count_eq_zero.mp (by omega),
    List.count_eq_zero.mp (by omega)⟩

theorem Placed.slot_inj (h : Placed chunkCount s) {chunk j k : Nat} (hj : j ∈ s.pending)
    (hk : k ∈ s.pending) (hjc : s.freeChunks (slot chunkCount j) = some chunk)
    (hkc : s.freeChunks (slot chunkCount k) = some chunk) : j = k := by
  by_contra hne
  have hring := (List.nodup_append.mp (List.nodup_append.mp (List.nodup_append.mp
    h.nodup).2.1).2.1).1
  have : Std.Symm (Function.onFun List.Disjoint fun i =>
      (s.freeChunks (slot chunkCount i)).toList) := ⟨fun _ _ hdisjoint _ hi hj => hdisjoint hj hi⟩
  exact (List.nodup_flatMap.mp hring).2.forall hj hk hne
    (Option.mem_toList.mpr hjc) (Option.mem_toList.mpr hkc)

/-- A chunk in a slot that is written to is lost. -/
theorem Placed.lost {chunk i j : Nat} (h : Placed chunkCount (s.call (.writing chunk i)))
    (hpending : (advance chunkCount s (.writing chunk i)).pending =
      (s.call (.writing chunk i)).pending ++ [i])
    (hj : j ∈ (s.call (.writing chunk i)).pending)
    (hslot : slot chunkCount j = slot chunkCount i) :
    ¬(advance chunkCount s (.writing chunk i)).Kept chunkCount := by
  intro hkept
  obtain ⟨x, hx⟩ := h.filled j hj
  have hring : x ∈ (s.call (.writing chunk i)).pending.flatMap fun i =>
      ((s.call (.writing chunk i)).freeChunks (slot chunkCount i)).toList :=
    List.mem_flatMap.mpr ⟨j, hj, Option.mem_toList.mpr hx⟩
  obtain ⟨hheld, hcarried, hfresh⟩ := h.not_mem hring
  have hlt : x < chunkCount := h.mem_chunks.mp
    (List.mem_append_right _ (List.mem_append_right _ (List.mem_append_left _ hring)))
  have hmem := hkept.all x hlt
  rw [chunks, List.mem_append, List.mem_append, List.mem_append] at hmem
  obtain hmem | hmem | hmem | hmem := hmem
  · exact hheld hmem
  · exact hcarried (List.mem_cons_of_mem _ hmem)
  · rw [hpending, List.mem_flatMap] at hmem
    obtain ⟨k, hk, hxk⟩ := hmem
    rw [Option.mem_toList] at hxk
    by_cases hki : slot chunkCount k = slot chunkCount i
    · have hself : (advance chunkCount s (.writing chunk i)).freeChunks (slot chunkCount i) =
          some chunk := Function.update_self _ _ _
      rw [hki, hself] at hxk
      refine hcarried ?_
      rw [← Option.some.inj hxk]
      exact List.mem_cons_self
    · have hother : (advance chunkCount s (.writing chunk i)).freeChunks (slot chunkCount k) =
          s.freeChunks (slot chunkCount k) := Function.update_of_ne hki _ _
      rw [hother] at hxk
      rw [List.mem_append, List.mem_singleton] at hk
      obtain hk | rfl := hk
      · obtain rfl := h.slot_inj hj hk hx hxk
        exact hki hslot
      · exact hki rfl
  · exact hfresh hmem

theorem Good.lost {chunk i : Nat} (h : Good chunkCount s)
    (hregular : ¬s.Regular chunkCount (.advance (.writing chunk i))) :
    ∃ t, s.next chunkCount (.advance (.writing chunk i)) = some t ∧ ¬t.Kept chunkCount := by
  rw [Regular] at hregular
  push Not at hregular
  obtain ⟨hp, j, hj, hslot⟩ := hregular
  have hperm := List.perm_cons_erase hp
  have hgood : Good chunkCount (call { s with calls := s.calls.erase (.writing chunk i) }
    (.writing chunk i)) := ⟨h.toPlaced.perm hperm, h.toBalanced.perm hperm⟩
  refine ⟨_, if_pos hp, ?_⟩
  have hi := hgood.writing chunk i List.mem_cons_self
  have hnone := (hgood.alone rfl).2.2
  have hread := hgood.read_le
  rw [written_call, hnone, isWriting] at hread
  refine hgood.toPlaced.lost (pending_writing hnone hi (hread.trans_eq ?_))
    ((pending_perm hperm).mem_iff.mpr hj) hslot
  dsimp only [call] at hi ⊢
  omega

theorem Good.keptRun_iff {as : List Action} : ∀ {s : State}, Good chunkCount s →
    CountedRun chunkCount s as → (KeptRun chunkCount s as ↔ RegularRun chunkCount s as) := by
  induction as with
  | nil => exact fun h _ => iff_of_true h.kept trivial
  | cons a as ih =>
    intro s h hcounted
    have hnext : s.Regular chunkCount a → ∀ t, s.next chunkCount a = some t →
        (KeptRun chunkCount t as ↔ RegularRun chunkCount t as) := fun hregular t ht =>
      ih (h.next_step hregular hcounted.1 ht) (hcounted.2 t ht)
    constructor
    · intro hkept
      have hregular : s.Regular chunkCount a := by
        by_contra hregular
        cases a with
        | allocate => exact hregular trivial
        | deallocate chunk => exact hregular trivial
        | advance p =>
          cases p with
          | writing chunk i =>
            obtain ⟨t, ht, hlost⟩ := h.lost hregular
            have hrun := hkept.2 t ht
            cases as with
            | nil => exact hlost hrun
            | cons b bs => exact hlost hrun.1
          | _ => exact hregular trivial
      exact ⟨hregular, fun t ht => (hnext hregular t ht).mp (hkept.2 t ht)⟩
    · rintro ⟨hregular, hrun⟩
      exact ⟨h.kept, fun t ht => (hnext hregular t ht).mpr (hrun t ht)⟩

/-- **No chunk is held twice and none is lost**, just when no chunk is written to a slot that is
still to be read. -/
theorem kept_iff (chunkCount : Nat) (as : List Action)
    (h : CountedRun chunkCount (start chunkCount) as) :
    KeptRun chunkCount (start chunkCount) as ↔ RegularRun chunkCount (start chunkCount) as :=
  (Good.start chunkCount).keptRun_iff h

end

section Sample

/-- The steps of `deallocate` after `lock`. -/
def deallocating (chunk i : Nat) : List Action :=
  [.deallocate chunk, .advance (.locked chunk), .advance (.writing chunk i), .advance .stored,
    .advance .unlocking]

/-- The steps of `allocate` when the chunks of the array are taken, to where the slot is
claimed. -/
def claiming : List Action :=
  [.allocate, .advance .counted, .advance .overshot, .advance .reuse]

/-- Of two chunks, one is taken, put back and taken again. -/
def sampleRun : List Action :=
  [.allocate, .advance .counted, .allocate, .advance .counted] ++ deallocating 0 0 ++ claiming ++
    [.advance (.reading 0)]

/-- Two chunks are taken and put back; a thread claims the slot of the first one and is delayed
while another one goes round the ring. -/
def delayedRun : List Action :=
  [.allocate, .advance .counted, .allocate, .advance .counted] ++ deallocating 0 0 ++
    deallocating 1 1 ++ claiming ++ claiming ++ [.advance (.reading 1)] ++ deallocating 1 2 ++
    [.advance (.reading 0)] ++ claiming ++ [.advance (.reading 2)]

instance (s : State) : ∀ a, Decidable (s.Counted a)
  | .allocate => inferInstanceAs (Decidable (-2 ^ 31 < s.freeCount))
  | .deallocate _ | .advance _ => .isTrue trivial

instance (chunkCount : Nat) (s : State) : ∀ a, Decidable (s.Regular chunkCount a)
  | .advance (.writing chunk i) => inferInstanceAs (Decidable (Call.writing chunk i ∈ s.calls →
    ∀ j ∈ s.pending, slot chunkCount j ≠ slot chunkCount i))
  | .allocate | .deallocate _ => .isTrue trivial
  | .advance .refused | .advance .counted | .advance .overshot | .advance .reuse
  | .advance (.reading _) | .advance (.locked _) | .advance .stored | .advance .unlocking =>
    .isTrue trivial

instance decidableCountedRun (chunkCount : Nat) : ∀ (as : List Action) (s : State),
    Decidable (CountedRun chunkCount s as)
  | [], _ => .isTrue trivial
  | a :: as, s =>
    have := decidableCountedRun chunkCount as
    inferInstanceAs (Decidable (s.Counted a ∧
      ∀ t ∈ s.next chunkCount a, CountedRun chunkCount t as))

instance decidableRegularRun (chunkCount : Nat) : ∀ (as : List Action) (s : State),
    Decidable (RegularRun chunkCount s as)
  | [], _ => .isTrue trivial
  | a :: as, s =>
    have := decidableRegularRun chunkCount as
    inferInstanceAs (Decidable (s.Regular chunkCount a ∧
      ∀ t ∈ s.next chunkCount a, RegularRun chunkCount t as))

/-- The state after a run. -/
def after (chunkCount : Nat) : State → List Action → Option State
  | s, [] => some s
  | s, a :: as => (s.next chunkCount a).bind fun t => after chunkCount t as

theorem KeptRun.after {chunkCount : Nat} {as : List Action} : ∀ {s t : State},
    KeptRun chunkCount s as → after chunkCount s as = some t → t.Kept chunkCount := by
  induction as with
  | nil =>
    intro s t h ht
    obtain rfl := Option.some.inj ht
    exact h
  | cons a as ih =>
    intro s t h ht
    rw [State.after, Option.bind_eq_some_iff] at ht
    obtain ⟨u, hu, ht⟩ := ht
    exact ih (h.2 u hu) ht

theorem kept_sampleRun : KeptRun 2 (start 2) sampleRun :=
  (kept_iff 2 sampleRun (by decide +kernel)).mpr (by decide +kernel)

/-- **The thread that was delayed takes what another one holds.** -/
theorem chunk_held_twice : ¬ ∀ (chunkCount : Nat) (as : List Action),
    CountedRun chunkCount (start chunkCount) as → KeptRun chunkCount (start chunkCount) as := by
  intro h
  have hheld : (after 2 (start 2) delayedRun).map State.held = some [1, 1] := by decide +kernel
  obtain ⟨t, ht, hheld⟩ := Option.map_eq_some_iff.mp hheld
  have hkept := (h 2 delayedRun (by decide +kernel)).after ht
  exact absurd (hheld ▸ hkept.once) (by decide)

end Sample

end State

end Hatn.Common.PreallocatedBucket
