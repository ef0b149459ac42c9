import Mathlib.Data.List.Induction
import Mathlib.Logic.Function.Basic

/-!
# A bridge between two streams

`StreamBridge` hands the bytes that are written on one side to the reads of the other side.  A
descriptor holds the operation that waits, and `promote` copies what both descriptors allow for.
Its callbacks run in the middle of it: they may start operations and end in any later state, so
that the callbacks that are still to come are on a stack.  In asynchronous mode a promotion is
posted, and the posted ones run in any order.

All that was written and read is kept beside the descriptors.
-/

namespace Hatn.Common.StreamBridge

/-- A direction. -/
inductive Side
  | leftToRight
  | rightToLeft
  deriving DecidableEq

inductive Op
  | write
  | read
  deriving DecidableEq

/-- A callback that is called: that of the operation with a number in its direction. -/
structure Call where
  side : Side
  op : Op
  number : Option Nat
  size : Nat
  deriving DecidableEq

structure WriteDescr where
  data : List UInt8 := []
  size : Nat := 0
  promotedSize : Nat := 0
  callback : Option Nat := none

/-- The buffer of a read is known by the number of the read. -/
structure ReadDescr where
  data : Option Nat := none
  maxSize : Nat := 0
  callback : Option Nat := none

/-- The buffer of a read, with the bytes that were stored. -/
structure ReadBuffer where
  maxSize : Nat
  bytes : List UInt8

/-- The descriptors of a direction, with all that was written, and the buffers of all reads. -/
structure Pipe where
  writeDescr : WriteDescr
  readDescr : ReadDescr
  written : List (List UInt8)
  reads : List ReadBuffer

/-- The bridge, with the posted promotions, the callbacks that are left in each promotion whose
callback runs, and the callbacks that were called. -/
structure State where
  pipe : Side → Pipe
  async : Bool
  tasks : List Side
  stack : List (List Call)
  calls : List Call

/-- `std::copy` to the buffer of a read. -/
def copy (bytes : List UInt8) (data : Option Nat) (reads : List ReadBuffer) : List ReadBuffer :=
  match data with
  | none => reads
  | some i => reads.modify i fun r => { r with bytes }

/-- `promote` up to its callbacks, and these. -/
def Pipe.promote (side : Side) (p : Pipe) : Pipe × List Call :=
  if p.writeDescr.promotedSize < p.writeDescr.size then
    let notProcessedSize := p.writeDescr.size - p.writeDescr.promotedSize
    let size := min notProcessedSize p.readDescr.maxSize
    if size ≠ 0 then
      let bytes := (p.writeDescr.data.drop p.writeDescr.promotedSize).take size
      let reads := copy bytes p.readDescr.data p.reads
      let readCb : Call := ⟨side, .read, p.readDescr.callback, size⟩
      let promotedSize := p.writeDescr.promotedSize + size
      if p.writeDescr.size = promotedSize then
        let writeCb : Call := ⟨side, .write, p.writeDescr.callback, p.writeDescr.size⟩
        (⟨{ }, { }, p.written, reads⟩, [writeCb, readCb])
      else (⟨{ p.writeDescr with promotedSize }, { }, p.written, reads⟩, [readCb])
    else (p, [])
  else (p, [])

namespace State

/-- The first of the callbacks that are left is called, and the others wait for its end. -/
def invoke (frame : List Call) (st : State) : State :=
  match frame with
  | [] => st
  | c :: rest => { st with stack := rest :: st.stack, calls := st.calls ++ [c] }

def setPipe (st : State) (side : Side) (p : Pipe) : State :=
  { st with pipe := Function.update st.pipe side p }

def promote (st : State) (side : Side) : State :=
  (st.setPipe side ((st.pipe side).promote side).1).invoke ((st.pipe side).promote side).2

/-- `promoteLeftToRight` and `promoteRightToLeft` -/
def promoteOrPost (st : State) (side : Side) : State :=
  if st.async then { st with tasks := st.tasks ++ [side] } else st.promote side

end State

inductive Event
  | write (side : Side) (data : List UInt8)
  | read (side : Side) (maxSize : Nat)
  | setPromoteAsync (enable : Bool)
  | run (i : Nat)
  | proceed

/-- The descriptor of a write. -/
def Pipe.setWrite (p : Pipe) (data : List UInt8) : Pipe :=
  { p with
    writeDescr := { p.writeDescr with data, size := data.length, callback := some p.written.length }
    written := p.written ++ [data] }

/-- The descriptor of a read. -/
def Pipe.setRead (p : Pipe) (maxSize : Nat) : Pipe :=
  { p with
    readDescr := { data := some p.reads.length, maxSize, callback := some p.reads.length }
    reads := p.reads ++ [⟨maxSize, []⟩] }

/-- What can happen: an operation of a positive size begins where none waits, at any time and so in
callbacks too; one of the posted promotions runs; the callback that runs ends. -/
def step (st : State) : Event → Option State
  | .write side data =>
    if data ≠ [] ∧ (st.pipe side).writeDescr.size = 0 then
      some ((st.setPipe side ((st.pipe side).setWrite data)).promoteOrPost side)
    else none
  | .read side maxSize =>
    if 0 < maxSize ∧ (st.pipe side).readDescr.maxSize = 0 then
      some ((st.setPipe side ((st.pipe side).setRead maxSize)).promoteOrPost side)
    else none
  | .setPromoteAsync enable => some { st with async := enable }
  | .run i =>
    match st.tasks[i]? with
    | none => none
    | some side => some (State.promote { st with tasks := st.tasks.eraseIdx i } side)
  | .proceed =>
    match st.stack with
    | [] => none
    | frame :: rest => some (State.invoke frame { st with stack := rest })

/-- A new bridge. -/
def start : State := ⟨fun _ => ⟨{ }, { }, [], []⟩, false, [], [], []⟩

def run (events : List Event) : Option State := events.foldlM step start

/-! ### A reliable pipe -/

/-- The bytes that were stored for the reads, in the order of the reads. -/
def Pipe.delivered (p : Pipe) : List UInt8 := p.reads.flatMap (·.bytes)

/-- All bytes of the write with that number are delivered. -/
def Pipe.HasDelivered (p : Pipe) (number : Nat) : Prop :=
  (p.written.take (number + 1)).flatten <+: p.delivered

instance (p : Pipe) (number : Nat) : Decidable (p.HasDelivered number) :=
  inferInstanceAs (Decidable (_ <+: _))

/-- How often the callback of an operation was called. -/
def State.times (st : State) (side : Side) (op : Op) (number : Nat) : Nat :=
  st.calls.countP fun c => c.side = side ∧ c.op = op ∧ c.number = some number

/-- **A reliable pipe.** -/
structure Reliable (st : State) (side : Side) : Prop where
  /-- What is delivered was written in that order, and there is room for it. -/
  delivered : (st.pipe side).delivered <+: (st.pipe side).written.flatten
  room : ∀ r ∈ (st.pipe side).reads, r.bytes.length ≤ r.maxSize
  /-- Callbacks are called once at most. -/
  once : ∀ op number, st.times side op number ≤ 1
  /-- That of a read is called with the number of its bytes, and that of a write after all its
  bytes were delivered. -/
  called_read : ∀ c ∈ st.calls, c.side = side → c.op = .read → ∃ i r, c.number = some i ∧
    (st.pipe side).reads[i]? = some r ∧ r.bytes ≠ [] ∧ c.size = r.bytes.length
  called_write : ∀ c ∈ st.calls, c.side = side → c.op = .write → ∃ i data, c.number = some i ∧
    (st.pipe side).written[i]? = some data ∧ (st.pipe side).HasDelivered i ∧ c.size = data.length
  /-- When no callback runs, all were called that are due. -/
  answered_read : st.stack = [] → ∀ i r, (st.pipe side).reads[i]? = some r → r.bytes ≠ [] →
    st.times side .read i = 1
  answered_write : st.stack = [] → ∀ i < (st.pipe side).written.length,
    (st.pipe side).HasDelivered i → st.times side .write i = 1
  /-- When nothing is posted, no write waits together with a read. -/
  goes_on : st.tasks = [] → (∀ r ∈ (st.pipe side).reads, r.bytes ≠ []) ∨
    (st.pipe side).delivered = (st.pipe side).written.flatten

/-! ### What descriptors hold -/

namespace Pipe

/-- No write waits, or the last one does, of which a part is copied. -/
def WriteKept (d : WriteDescr) (written : List (List UInt8)) : Prop :=
  d = { } ∨ ∃ before data promotedSize, promotedSize < data.length ∧
    d = ⟨data, data.length, promotedSize, some before.length⟩ ∧ written = before ++ [data]

/-- No read waits, or the last one does, and nothing was stored for it. -/
def ReadKept (d : ReadDescr) (reads : List ReadBuffer) : Prop :=
  d = { } ∧ (∀ r ∈ reads, r.bytes ≠ []) ∨ ∃ before maxSize, 0 < maxSize ∧
    (∀ r ∈ before, r.bytes ≠ []) ∧ d = ⟨some before.length, maxSize, some before.length⟩ ∧
    reads = before ++ [⟨maxSize, []⟩]

structure Kept (p : Pipe) : Prop where
  write : WriteKept p.writeDescr p.written
  read : ReadKept p.readDescr p.reads
  delivered : p.delivered ++ p.writeDescr.data.drop p.writeDescr.promotedSize = p.written.flatten
  room : ∀ r ∈ p.reads, r.bytes.length ≤ r.maxSize

/-- A write waits together with a read. -/
def BothWait (p : Pipe) : Prop := p.writeDescr.size ≠ 0 ∧ p.readDescr.maxSize ≠ 0

/-- The writes that do not wait. -/
def doneWrites (p : Pipe) : List (List UInt8) :=
  if p.writeDescr.size = 0 then p.written else p.written.dropLast

/-- The reads that do not wait. -/
def doneReads (p : Pipe) : List ReadBuffer :=
  if p.readDescr.maxSize = 0 then p.reads else p.reads.dropLast

def writeCall (side : Side) (i : Nat) (data : List UInt8) : Call :=
  ⟨side, .write, some i, data.length⟩

def readCall (side : Side) (i : Nat) (r : ReadBuffer) : Call :=
  ⟨side, .read, some i, r.bytes.length⟩

/-- The callbacks of operations that do not wait. -/
def due (side : Side) (p : Pipe) : List Call :=
  p.doneWrites.mapIdx (writeCall side) ++ p.doneReads.mapIdx (readCall side)

variable {p : Pipe} {side : Side}

theorem copy_last (bytes : List UInt8) (before : List ReadBuffer) (r : ReadBuffer) :
    copy bytes (some before.length) (before ++ [r]) = before ++ [{ r with bytes }] := by
  rw [copy]
  induction before with
  | nil => rfl
  | cons r' before ih => exact congrArg (r' :: ·) ih

theorem promote_idle (h : p.writeDescr.size = 0 ∨ p.readDescr.maxSize = 0) :
    p.promote side = (p, []) := by
  rw [promote]
  rcases h with h | h
  · rw [if_neg (by omega)]
  · simp only [h, Nat.min_zero, ne_eq, not_true_eq_false, if_false, ite_self]

/-- A write and a read that wait for each other. -/
def waiting (before : List (List UInt8)) (data : List UInt8) (promotedSize : Nat)
    (readsBefore : List ReadBuffer) (maxSize : Nat) : Pipe :=
  ⟨⟨data, data.length, promotedSize, some before.length⟩,
    ⟨some readsBefore.length, maxSize, some readsBefore.length⟩,
    before ++ [data], readsBefore ++ [⟨maxSize, []⟩]⟩

variable {before : List (List UInt8)} {data : List UInt8} {promotedSize : Nat}
  {readsBefore : List ReadBuffer} {maxSize : Nat}

/-- The rest of the write goes to the read. -/
theorem promote_whole (hlt : promotedSize < data.length)
    (hle : data.length - promotedSize ≤ maxSize) :
    (waiting before data promotedSize readsBefore maxSize).promote side =
      (⟨{ }, { }, before ++ [data], readsBefore ++ [⟨maxSize, data.drop promotedSize⟩]⟩,
        [writeCall side before.length data,
          readCall side readsBefore.length ⟨maxSize, data.drop promotedSize⟩]) := by
  have htake : (data.drop promotedSize).take (data.length - promotedSize) =
      data.drop promotedSize := by rw [← List.length_drop, List.take_length]
  simp only [promote, waiting, Nat.min_eq_left hle, if_pos hlt, htake, copy_last, writeCall,
    readCall, List.length_drop]
  rw [if_pos (by omega), if_pos (by omega)]

/-- A part of the write fills the read. -/
theorem promote_part (hpos : 0 < maxSize) (hlt : maxSize < data.length - promotedSize) :
    (waiting before data promotedSize readsBefore maxSize).promote side =
      (⟨⟨data, data.length, promotedSize + maxSize, some before.length⟩, { }, before ++ [data],
        readsBefore ++ [⟨maxSize, (data.drop promotedSize).take maxSize⟩]⟩,
        [readCall side readsBefore.length ⟨maxSize, (data.drop promotedSize).take maxSize⟩]) := by
  have hlength : ((data.drop promotedSize).take maxSize).length = maxSize := by
    rw [List.length_take, List.length_drop]
    omega
  simp only [promote, waiting, Nat.min_eq_right (Nat.le_of_lt hlt), copy_last, readCall, hlength]
  rw [if_pos (by omega), if_pos (by omega), if_neg (by omega)]

theorem delivered_concat (writeDescr : WriteDescr) (readDescr : ReadDescr)
    (written : List (List UInt8)) (reads : List ReadBuffer) (r : ReadBuffer) :
    (Pipe.mk writeDescr readDescr written (reads ++ [r])).delivered =
      reads.flatMap (·.bytes) ++ r.bytes := by
  rw [delivered, List.flatMap_append, List.flatMap_singleton]

theorem forall_mem_concat {α : Type} {P : α → Prop} {l : List α} {x : α} (hl : ∀ y ∈ l, P y)
    (hx : P x) : ∀ y ∈ l ++ [x], P y := fun y hy =>
  (List.mem_append.mp hy).elim (hl y) fun hy => List.mem_singleton.mp hy ▸ hx

theorem Kept.whole (h : (waiting before data promotedSize readsBefore maxSize).Kept)
    (hsome : ∀ r ∈ readsBefore, r.bytes ≠ []) (hlt : promotedSize < data.length)
    (hle : data.length - promotedSize ≤ maxSize) :
    Kept ⟨{ }, { }, before ++ [data], readsBefore ++ [⟨maxSize, data.drop promotedSize⟩]⟩ := by
  have hdelivered := h.delivered
  refine ⟨.inl rfl, .inl ⟨rfl, forall_mem_concat hsome ?_⟩, ?_, forall_mem_concat ?_ ?_⟩
  · rw [ne_eq, List.drop_eq_nil_iff]
    exact Nat.not_le.mpr hlt
  · rw [waiting, delivered_concat, List.append_nil] at hdelivered
    rw [delivered_concat, List.drop_nil, List.append_nil]
    exact hdelivered
  · exact fun r hr => h.room r (List.mem_append_left _ hr)
  · rwa [List.length_drop]

theorem Kept.part (h : (waiting before data promotedSize readsBefore maxSize).Kept)
    (hsome : ∀ r ∈ readsBefore, r.bytes ≠ []) (hpos : 0 < maxSize)
    (hlt : maxSize < data.length - promotedSize) :
    Kept ⟨⟨data, data.length, promotedSize + maxSize, some before.length⟩, { }, before ++ [data],
      readsBefore ++ [⟨maxSize, (data.drop promotedSize).take maxSize⟩]⟩ := by
  have hdelivered := h.delivered
  refine ⟨.inr ⟨before, data, promotedSize + maxSize, by omega, rfl, rfl⟩,
    .inl ⟨rfl, forall_mem_concat hsome fun hnil => ?_⟩, ?_, forall_mem_concat ?_ ?_⟩
  · have hlength := congrArg List.length hnil
    rw [List.length_take, List.length_drop, List.length_nil] at hlength
    omega
  · rw [waiting, delivered_concat, List.append_nil] at hdelivered
    rw [delivered_concat, List.append_assoc, ← List.drop_drop, List.take_append_drop]
    exact hdelivered
  · exact fun r hr => h.room r (List.mem_append_left _ hr)
  · exact List.length_take_le _ _

theorem due_waiting (hlt : promotedSize < data.length) (hpos : 0 < maxSize) :
    due side (waiting before data promotedSize readsBefore maxSize) =
      before.mapIdx (writeCall side) ++ readsBefore.mapIdx (readCall side) := by
  simp only [due, doneWrites, doneReads, waiting, List.dropLast_concat]
  rw [if_neg (by omega), if_neg (by omega)]

theorem Kept.promote_waiting (h : (waiting before data promotedSize readsBefore maxSize).Kept)
    (hsome : ∀ r ∈ readsBefore, r.bytes ≠ []) (hlt : promotedSize < data.length)
    (hpos : 0 < maxSize) (side : Side) :
    ((waiting before data promotedSize readsBefore maxSize).promote side).1.Kept ∧
      (due side ((waiting before data promotedSize readsBefore maxSize).promote side).1).Perm
        (due side (waiting before data promotedSize readsBefore maxSize) ++
          ((waiting before data promotedSize readsBefore maxSize).promote side).2) ∧
      ¬((waiting before data promotedSize readsBefore maxSize).promote side).1.BothWait := by
  rw [due_waiting hlt hpos]
  rcases Nat.lt_or_ge maxSize (data.length - promotedSize) with hpart | hwhole
  · rw [promote_part hpos hpart, due, doneWrites, doneReads, if_neg (by dsimp only; omega),
      if_pos rfl, List.dropLast_concat, List.mapIdx_concat, List.append_assoc]
    exact ⟨h.part hsome hpos hpart, List.Perm.refl _, fun hb => hb.2 rfl⟩
  · rw [promote_whole hlt hwhole, due, doneWrites, doneReads, if_pos rfl, if_pos rfl,
      List.mapIdx_concat, List.mapIdx_concat, List.append_assoc, List.append_assoc]
    have hmiddle : List.Perm
        (writeCall side before.length data :: (readsBefore.mapIdx (readCall side) ++
          [readCall side readsBefore.length ⟨maxSize, data.drop promotedSize⟩]))
        (readsBefore.mapIdx (readCall side) ++ [writeCall side before.length data,
          readCall side readsBefore.length ⟨maxSize, data.drop promotedSize⟩]) :=
      List.perm_middle.symm
    exact ⟨h.whole hsome hlt hwhole, hmiddle.append_left _, fun hb => hb.2 rfl⟩

/-- **A promotion** keeps what descriptors hold, calls what is due by it, and leaves no write
together with a read. -/
theorem Kept.promote (h : p.Kept) (side : Side) : (p.promote side).1.Kept ∧
    (due side (p.promote side).1).Perm (due side p ++ (p.promote side).2) ∧
    ¬(p.promote side).1.BothWait := by
  by_cases hidle : p.writeDescr.size = 0 ∨ p.readDescr.maxSize = 0
  · rw [promote_idle hidle, List.append_nil]
    exact ⟨h, List.Perm.refl _, not_and_or.mpr (hidle.imp not_not.mpr not_not.mpr)⟩
  obtain ⟨writeDescr, readDescr, written, reads⟩ := p
  rcases h.write with hwrite | ⟨before, data, promotedSize, hlt, rfl, rfl⟩
  · exact absurd (.inl (congrArg WriteDescr.size hwrite)) hidle
  rcases h.read with hread | ⟨readsBefore, maxSize, hpos, hsome, rfl, rfl⟩
  · exact absurd (.inr (congrArg ReadDescr.maxSize hread.1)) hidle
  exact Kept.promote_waiting h hsome hlt hpos side

/-! ### Operations begin -/

theorem Kept.idle_write (h : p.Kept) (hidle : p.writeDescr.size = 0) : p.writeDescr = { } := by
  rcases h.write with hwrite | ⟨before, data, promotedSize, hlt, hwrite, -⟩
  · exact hwrite
  · rw [hwrite] at hidle
    exact absurd hidle (Nat.ne_of_gt (Nat.zero_lt_of_lt hlt))

theorem Kept.idle_read (h : p.Kept) (hidle : p.readDescr.maxSize = 0) :
    p.readDescr = { } ∧ ∀ r ∈ p.reads, r.bytes ≠ [] := by
  rcases h.read with hread | ⟨before, maxSize, hpos, -, hread, -⟩
  · exact hread
  · rw [hread] at hidle
    exact absurd hidle (Nat.ne_of_gt hpos)

theorem Kept.setWrite (h : p.Kept) (hdata : data ≠ []) (hidle : p.writeDescr.size = 0) :
    (p.setWrite data).Kept ∧ due side (p.setWrite data) = due side p := by
  have hwrite := h.idle_write hidle
  have hdelivered := h.delivered
  rw [hwrite, List.drop_nil, List.append_nil] at hdelivered
  refine ⟨⟨.inr ⟨p.written, data, 0, List.length_pos_iff.mpr hdata, ?_, rfl⟩, h.read, ?_, h.room⟩,
    ?_⟩
  · rw [Pipe.setWrite, hwrite]
  · rw [Pipe.setWrite, hwrite, List.flatten_append, List.flatten_singleton, ← hdelivered]
    rfl
  · rw [due, due, doneWrites, doneWrites, if_pos hidle, Pipe.setWrite,
      if_neg (Nat.ne_of_gt (List.length_pos_iff.mpr hdata)), List.dropLast_concat]
    rfl

theorem Kept.setRead (h : p.Kept) (hpos : 0 < maxSize) (hidle : p.readDescr.maxSize = 0) :
    (p.setRead maxSize).Kept ∧ due side (p.setRead maxSize) = due side p := by
  obtain ⟨hread, hsome⟩ := h.idle_read hidle
  refine ⟨⟨h.write, .inr ⟨p.reads, maxSize, hpos, hsome, rfl, rfl⟩, ?_,
    forall_mem_concat h.room (Nat.zero_le _)⟩, ?_⟩
  · rw [Pipe.setRead, delivered_concat, List.append_nil]
    exact h.delivered
  · rw [due, due, doneReads, doneReads, if_pos hidle, Pipe.setRead,
      if_neg (Nat.ne_of_gt hpos), List.dropLast_concat]
    rfl

/-! ### Operations that are done -/

theorem doneReads_isPrefix (p : Pipe) : p.doneReads <+: p.reads := by
  rw [doneReads]
  split
  · exact List.prefix_rfl
  · exact List.dropLast_prefix _

theorem doneWrites_isPrefix (p : Pipe) : p.doneWrites <+: p.written := by
  rw [doneWrites]
  split
  · exact List.prefix_rfl
  · exact List.dropLast_prefix _

theorem Kept.lt_doneReads_iff (h : p.Kept) (i : Nat) :
    i < p.doneReads.length ↔ ∃ r, p.reads[i]? = some r ∧ r.bytes ≠ [] := by
  rw [doneReads]
  rcases h.read with ⟨hread, hsome⟩ | ⟨before, maxSize, hpos, hsome, hread, hreads⟩
  · rw [hread, if_pos rfl]
    constructor
    · exact fun hi => ⟨p.reads[i], List.getElem?_eq_getElem hi, hsome _ (List.getElem_mem hi)⟩
    · exact fun ⟨r, hr, _⟩ => (List.getElem?_eq_some_iff.mp hr).1
  · rw [hread, if_neg (Nat.ne_of_gt hpos), hreads, List.dropLast_concat]
    constructor
    · exact fun hi => ⟨before[i], by rw [List.getElem?_append_left hi, List.getElem?_eq_getElem hi],
        hsome _ (List.getElem_mem hi)⟩
    · rintro ⟨r, hr, hne⟩
      by_contra hi
      rw [List.getElem?_append_right (Nat.le_of_not_lt hi)] at hr
      obtain rfl := List.mem_singleton.mp (List.mem_of_getElem? hr)
      exact hne rfl

theorem flatten_take_isPrefix {α : Type} (l : List (List α)) (n : Nat) :
    (l.take n).flatten <+: l.flatten :=
  ⟨(l.drop n).flatten, by rw [← List.flatten_append, List.take_append_drop]⟩

theorem Kept.lt_doneWrites_iff (h : p.Kept) (i : Nat) :
    i < p.doneWrites.length ↔ i < p.written.length ∧ p.HasDelivered i := by
  have hdelivered := h.delivered
  rw [doneWrites, HasDelivered]
  rcases h.write with hwrite | ⟨before, data, promotedSize, hlt, hwrite, hwritten⟩
  · rw [hwrite, List.drop_nil, List.append_nil] at hdelivered
    rw [hwrite, if_pos rfl, hdelivered]
    exact (and_iff_left (flatten_take_isPrefix _ _)).symm
  · rw [hwrite, hwritten] at hdelivered
    rw [hwrite, if_neg (Nat.ne_of_gt (Nat.zero_lt_of_lt hlt)), hwritten, List.dropLast_concat,
      List.length_append]
    constructor
    · intro hi
      refine ⟨Nat.lt_add_right _ hi, ?_⟩
      rw [List.take_append_of_le_length hi]
      refine (flatten_take_isPrefix before _).trans ?_
      have hcopied : p.delivered = before.flatten ++ data.take promotedSize := by
        rw [List.flatten_append, List.flatten_singleton] at hdelivered
        refine List.append_cancel_right (hdelivered.trans ?_)
        rw [List.append_assoc, List.take_append_drop]
      rw [hcopied]
      exact List.prefix_append _ _
    · rintro ⟨hi, hfront⟩
      by_contra hge
      have hall : i + 1 = (before ++ [data]).length := by
        rw [List.length_append]
        exact Nat.le_antisymm hi (by rw [List.length_singleton]; omega)
      rw [hall, List.take_length, ← hdelivered] at hfront
      have hle := hfront.length_le
      rw [List.length_append, List.length_drop] at hle
      dsimp only at hle
      omega

/-- A callback that is due is that of a write of which all bytes are delivered, or of a read that
has some. -/
theorem Kept.of_mem_due (h : p.Kept) {c : Call} (hc : c ∈ due side p) :
    (∃ i data, c = writeCall side i data ∧ p.written[i]? = some data ∧ p.HasDelivered i) ∨
      ∃ i r, c = readCall side i r ∧ p.reads[i]? = some r ∧ r.bytes ≠ [] := by
  rcases List.mem_append.mp hc with hc | hc
  · obtain ⟨i, hi, rfl⟩ := List.mem_mapIdx.mp hc
    exact .inl ⟨i, _, rfl, List.prefix_iff_getElem?.mp p.doneWrites_isPrefix i hi,
      ((h.lt_doneWrites_iff i).mp hi).2⟩
  · obtain ⟨i, hi, rfl⟩ := List.mem_mapIdx.mp hc
    have hread := List.prefix_iff_getElem?.mp p.doneReads_isPrefix i hi
    obtain ⟨r, hr, hne⟩ := (h.lt_doneReads_iff i).mp hi
    obtain rfl := Option.some.inj (hread.symm.trans hr)
    exact .inr ⟨i, _, rfl, hread, hne⟩

end Pipe

/-! ### Runs -/

namespace State

open Pipe

/-- All callbacks that were called, and those that are left in promotions. -/
def scheduled (st : State) : List Call := st.calls ++ st.stack.flatten

/-- **What every step keeps**, but for the promotion of one side that is still to come. -/
structure KeptBut (st : State) (but : Side → Prop) : Prop where
  pipes : ∀ side, (st.pipe side).Kept
  scheduled : ∀ side, (st.scheduled.filter (·.side = side)).Perm (due side (st.pipe side))
  posted : ∀ side, (st.pipe side).BothWait → but side ∨ side ∈ st.tasks

def Kept (st : State) : Prop := st.KeptBut fun _ => False

variable {st : State} {side : Side}

theorem pipe_invoke (frame : List Call) (st : State) : (st.invoke frame).pipe = st.pipe := by
  cases frame <;> rfl

theorem tasks_invoke (frame : List Call) (st : State) : (st.invoke frame).tasks = st.tasks := by
  cases frame <;> rfl

theorem scheduled_invoke (frame : List Call) (st : State) :
    (st.invoke frame).scheduled.Perm (st.scheduled ++ frame) := by
  cases frame with
  | nil =>
    rw [List.append_nil]
    exact List.Perm.refl _
  | cons c rest =>
    rw [invoke, State.scheduled, State.scheduled, List.flatten_cons, List.append_assoc,
      List.append_assoc]
    refine List.Perm.append_left _ ?_
    exact @List.perm_append_comm _ ([c] ++ rest) st.stack.flatten

theorem side_of_promote {p : Pipe} : ∀ c ∈ (p.promote side).2, c.side = side := by
  intro c hc
  rw [Pipe.promote] at hc
  split at hc
  · dsimp only at hc
    split at hc
    · split at hc
      · simp only [List.mem_cons, List.not_mem_nil, or_false] at hc
        rcases hc with rfl | rfl <;> rfl
      · rw [List.mem_singleton.mp hc]
    · cases hc
  · cases hc

theorem pipe_setPipe_self (st : State) (side : Side) (p : Pipe) :
    (st.setPipe side p).pipe side = p := Function.update_self ..

theorem pipe_setPipe_of_ne (st : State) {s side : Side} (hs : s ≠ side) (p : Pipe) :
    (st.setPipe side p).pipe s = st.pipe s := Function.update_of_ne hs ..

theorem pipe_promote (st : State) (side : Side) : (st.promote side).pipe =
    Function.update st.pipe side ((st.pipe side).promote side).1 := pipe_invoke _ _

theorem scheduled_promote (st : State) (side : Side) :
    (st.promote side).scheduled.Perm (st.scheduled ++ ((st.pipe side).promote side).2) :=
  scheduled_invoke _ _

/-- A promotion keeps all, also if it was the one that is missing. -/
theorem KeptBut.promote (h : st.KeptBut (· = side)) : (st.promote side).Kept := by
  obtain ⟨hkept, hdue, hnot⟩ := (h.pipes side).promote side
  constructor
  · intro s
    rw [pipe_promote]
    by_cases hs : s = side
    · subst hs
      rwa [Function.update_self]
    · rw [Function.update_of_ne hs]
      exact h.pipes s
  · intro s
    refine ((scheduled_promote st side).filter _).trans ?_
    rw [pipe_promote, List.filter_append]
    by_cases hs : s = side
    · subst hs
      rw [Function.update_self]
      have hframe : ((st.pipe s).promote s).2.filter (·.side = s) = ((st.pipe s).promote s).2 :=
        List.filter_eq_self.mpr fun c hc => decide_eq_true (side_of_promote c hc)
      rw [hframe]
      exact ((h.scheduled s).append_right _).trans hdue.symm
    · have hframe : ((st.pipe side).promote side).2.filter (·.side = s) = [] :=
        List.filter_eq_nil_iff.mpr fun c hc hside =>
          hs ((of_decide_eq_true hside).symm.trans (side_of_promote c hc))
      rw [Function.update_of_ne hs, hframe, List.append_nil]
      exact h.scheduled s
  · intro s hboth
    rw [pipe_promote] at hboth
    by_cases hs : s = side
    · subst hs
      rw [Function.update_self] at hboth
      exact absurd hboth hnot
    · rw [Function.update_of_ne hs] at hboth
      exact .inr ((tasks_invoke _ _).symm ▸ (h.posted s hboth).resolve_left hs)

theorem KeptBut.promoteOrPost (h : st.KeptBut (· = side)) : (st.promoteOrPost side).Kept := by
  rw [State.promoteOrPost]
  split
  · refine ⟨h.pipes, h.scheduled, fun s hboth => .inr ?_⟩
    rcases h.posted s hboth with rfl | hs
    · exact List.mem_append_right _ (List.mem_singleton.mpr rfl)
    · exact List.mem_append_left _ hs
  · exact h.promote

/-- An operation begins on one side. -/
theorem Kept.setPipe (h : st.Kept) {p : Pipe}
    (hp : p.Kept ∧ due side p = due side (st.pipe side)) :
    (st.setPipe side p).KeptBut (· = side) := by
  constructor
  · intro s
    by_cases hs : s = side
    · subst hs
      rw [pipe_setPipe_self]
      exact hp.1
    · rw [pipe_setPipe_of_ne st hs]
      exact h.pipes s
  · intro s
    by_cases hs : s = side
    · subst hs
      rw [pipe_setPipe_self, hp.2]
      exact h.scheduled s
    · rw [pipe_setPipe_of_ne st hs]
      exact h.scheduled s
  · intro s hboth
    by_cases hs : s = side
    · exact .inl hs
    · rw [pipe_setPipe_of_ne st hs] at hboth
      exact .inr ((h.posted s hboth).resolve_left id)

/-- **Every step keeps** what descriptors, callbacks and posted promotions are. -/
theorem Kept.step {st' : State} {event : Event} (h : st.Kept)
    (hstep : step st event = some st') : st'.Kept := by
  cases event with
  | write side data =>
    rw [StreamBridge.step] at hstep
    split at hstep
    next hwrite =>
      obtain rfl := Option.some.inj hstep
      exact (h.setPipe ((h.pipes side).setWrite hwrite.1 hwrite.2)).promoteOrPost
    next => cases hstep
  | read side maxSize =>
    rw [StreamBridge.step] at hstep
    split at hstep
    next hread =>
      obtain rfl := Option.some.inj hstep
      exact (h.setPipe ((h.pipes side).setRead hread.1 hread.2)).promoteOrPost
    next => cases hstep
  | setPromoteAsync enable =>
    obtain rfl := Option.some.inj hstep
    exact ⟨h.pipes, h.scheduled, h.posted⟩
  | run i =>
    rw [StreamBridge.step] at hstep
    split at hstep
    next => cases hstep
    next side hside =>
      obtain rfl := Option.some.inj hstep
      refine KeptBut.promote ⟨h.pipes, h.scheduled, fun s hboth => ?_⟩
      by_cases hs : s = side
      · exact .inl hs
      · -- the other side is posted by another task
        obtain ⟨j, hj⟩ := List.mem_iff_getElem?.mp ((h.posted s hboth).resolve_left id)
        have hne : j ≠ i := fun heq => hs (Option.some.inj (hj.symm.trans (heq ▸ hside)))
        exact .inr (List.mem_eraseIdx_iff_getElem?.mpr ⟨j, hne, hj⟩)
  | proceed =>
    rw [StreamBridge.step] at hstep
    split at hstep
    next => cases hstep
    next frame rest hstack =>
      obtain rfl := Option.some.inj hstep
      refine ⟨fun s => ?_, fun s => ?_, fun s hboth => ?_⟩
      · rw [pipe_invoke]
        exact h.pipes s
      · rw [pipe_invoke]
        refine ((scheduled_invoke frame _).filter _).trans ?_
        refine List.Perm.trans (List.Perm.filter _ ?_) (h.scheduled s)
        rw [State.scheduled, State.scheduled, hstack, List.flatten_cons, List.append_assoc]
        exact List.perm_append_comm.append_left _
      · rw [pipe_invoke] at hboth
        rw [tasks_invoke]
        exact h.posted s hboth

theorem start_kept : start.Kept :=
  ⟨fun _ => ⟨.inl rfl, .inl ⟨rfl, nofun⟩, rfl, nofun⟩, fun _ => List.Perm.refl _,
    fun _ hboth => absurd rfl hboth.1⟩

theorem run_kept {events : List Event} (h : run events = some st) : st.Kept := by
  have hfrom : ∀ (events : List Event) {s : State}, s.Kept →
      events.foldlM StreamBridge.step s = some st → st.Kept := by
    intro events
    induction events with
    | nil =>
      intro s hs h
      obtain rfl := Option.some.inj h
      exact hs
    | cons event events ih =>
      intro s hs h
      rw [List.foldlM_cons] at h
      obtain ⟨s', hs', h⟩ := Option.bind_eq_some_iff.mp h
      exact ih (hs.step hs') h
  exact hfrom events start_kept h

/-! ### The bridge is reliable -/

theorem countP_mapIdx {α : Type} {f : Nat → α → Call} {op : Op} (hop : ∀ i x, (f i x).op = op)
    (hnumber : ∀ i x, (f i x).number = some i) (l : List α) (number : Nat) :
    (l.mapIdx f).countP (fun c => c.op = op ∧ c.number = some number) =
      if number < l.length then 1 else 0 := by
  induction l using List.reverseRecOn with
  | nil => rfl
  | append_singleton l data ih =>
    rw [List.mapIdx_concat, List.countP_append, ih, List.countP_singleton, List.length_append,
      List.length_singleton]
    simp only [hop, hnumber, true_and, Option.some.injEq, decide_eq_true_eq]
    split_ifs <;> omega

theorem countP_mapIdx_other {α : Type} {f : Nat → α → Call} {op : Op}
    (hop : ∀ i x, (f i x).op ≠ op) (l : List α) (number : Nat) :
    (l.mapIdx f).countP (fun c => c.op = op ∧ c.number = some number) = 0 := by
  refine List.countP_eq_zero.mpr fun c hc hcall => ?_
  obtain ⟨i, hi, rfl⟩ := List.mem_mapIdx.mp hc
  exact hop _ _ (of_decide_eq_true hcall).1

/-- How many operations of a kind do not wait. -/
def done (p : Pipe) : Op → Nat
  | .write => p.doneWrites.length
  | .read => p.doneReads.length

theorem countP_due (side : Side) (p : Pipe) (op : Op) (number : Nat) :
    (due side p).countP (fun c => c.op = op ∧ c.number = some number) =
      if number < done p op then 1 else 0 := by
  rw [due, List.countP_append]
  cases op with
  | write =>
    rw [countP_mapIdx (f := writeCall side) (fun _ _ => rfl) (fun _ _ => rfl),
      countP_mapIdx_other (f := readCall side) fun _ _ => show Op.read ≠ Op.write from nofun,
      Nat.add_zero]
    rfl
  | read =>
    rw [countP_mapIdx (f := readCall side) (fun _ _ => rfl) (fun _ _ => rfl),
      countP_mapIdx_other (f := writeCall side) fun _ _ => show Op.write ≠ Op.read from nofun,
      Nat.zero_add]
    rfl

theorem times_add (st : State) (side : Side) (op : Op) (number : Nat) (h : st.Kept) :
    st.times side op number + st.stack.flatten.countP
        (fun c => c.side = side ∧ c.op = op ∧ c.number = some number) =
      if number < done (st.pipe side) op then 1 else 0 := by
  rw [← countP_due side, ← (h.scheduled side).countP_eq, List.countP_filter, times,
    ← List.countP_append]
  refine List.countP_congr fun c _ => ?_
  simp only [Bool.and_eq_true, decide_eq_true_eq]
  exact and_comm

theorem Kept.mem_due (h : st.Kept) {c : Call} (hc : c ∈ st.calls) :
    c ∈ due c.side (st.pipe c.side) :=
  (h.scheduled c.side).subset
    (List.mem_filter.mpr ⟨List.mem_append_left _ hc, decide_eq_true rfl⟩)

theorem Kept.reliable (h : st.Kept) (side : Side) : Reliable st side := by
  have hpipe := h.pipes side
  have htimes := fun op number => times_add st side op number h
  have hanswered : st.stack = [] → ∀ op number, number < done (st.pipe side) op →
      st.times side op number = 1 := by
    intro hstack op number hlt
    have heq := htimes op number
    rwa [hstack, if_pos hlt] at heq
  have hcalls := fun (c : Call) hc (hside : c.side = side) =>
    hpipe.of_mem_due (hside ▸ h.mem_due hc)
  constructor
  · exact ⟨_, hpipe.delivered⟩
  · exact hpipe.room
  · intro op number
    have heq := htimes op number
    split at heq <;> omega
  · intro c hc hside hop
    rcases hcalls c hc hside with ⟨i, data, rfl, -⟩ | ⟨i, r, rfl, hr, hne⟩
    · cases hop
    · exact ⟨i, r, rfl, hr, hne, rfl⟩
  · intro c hc hside hop
    rcases hcalls c hc hside with ⟨i, data, rfl, hdata, hdone⟩ | ⟨i, r, rfl, -⟩
    · exact ⟨i, data, rfl, hdata, hdone, rfl⟩
    · cases hop
  · exact fun hstack i r hr hne =>
      hanswered hstack .read i ((hpipe.lt_doneReads_iff i).mpr ⟨r, hr, hne⟩)
  · exact fun hstack i hi hdone =>
      hanswered hstack .write i ((hpipe.lt_doneWrites_iff i).mpr ⟨hi, hdone⟩)
  · intro htasks
    by_cases hwrite : (st.pipe side).writeDescr.size = 0
    · have hdelivered := hpipe.delivered
      rw [hpipe.idle_write hwrite, List.drop_nil, List.append_nil] at hdelivered
      exact .inr hdelivered
    · refine .inl (hpipe.idle_read (by_contra fun hread => ?_)).2
      have hposted := (h.posted side ⟨hwrite, hread⟩).resolve_left id
      rw [htasks] at hposted
      cases hposted

end State

/-- **The bridge is a reliable pipe** in both directions, whatever is written and read, in callbacks
too, in both modes, and in whatever order the posted promotions run. -/
theorem bridge_reliable {events : List Event} {st : State} (h : run events = some st)
    (side : Side) : Reliable st side :=
  (State.run_kept h).reliable side

/-- Three bytes are written and two are read; the callback reads the third one. -/
def sampleEvents : List Event :=
  [.write .leftToRight [7, 8, 9], .read .leftToRight 2, .read .leftToRight 2, .proceed, .proceed]

theorem bridge_reliable_sample : ∃ st, run sampleEvents = some st ∧ Reliable st .leftToRight :=
  ⟨_, rfl, @bridge_reliable sampleEvents _ rfl .leftToRight⟩

end Hatn.Common.StreamBridge
