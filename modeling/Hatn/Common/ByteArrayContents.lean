import Hatn.Common.ByteArray
import Mathlib.Order.Nat

/-!
# Contents of byte arrays

A byte array is for a list of bytes: `Op.Means` says what each operation does to it.  The
arrays do it as long as no operation goes a way that loses the content or takes memory of a
caller for its own; `Regular` says which ways these are, and `kept_of_regular` that there
are no others.
-/

namespace Hatn.Common.ByteArray

open Memory

/-! ### What the arrays are for -/

/-- New bytes are at the end. -/
def Grown (size : Nat) (l l' : List UInt8) : Prop :=
  ∃ fresh : List UInt8, fresh.length = size - l.length ∧ l' = l.take size ++ fresh

/-- New bytes are at the beginning. -/
def GrownFront (size : Nat) (l l' : List UInt8) : Prop :=
  ∃ fresh : List UInt8, fresh.length = size - l.length ∧ l' = fresh ++ l.drop (l.length - size)

/-- What an operation does to the bytes `ref` of the arrays. -/
inductive Op.Means (memory : Nat → Caller) (ref : Nat → List UInt8) :
    Op → (Nat → List UInt8) → Prop
  | load (a data) : Means memory ref (.load a data) (Function.update ref a data)
  | loadInline (a m const) : Means memory ref (.loadInline a m const)
      (Function.update ref a (read (memory m).bytes 0 (memory m).length))
  | append (a data) : Means memory ref (.append a data) (Function.update ref a (ref a ++ data))
  | appendSelf (a) : Means memory ref (.appendSelf a) (Function.update ref a (ref a ++ ref a))
  | prepend (a data) : Means memory ref (.prepend a data) (Function.update ref a (data ++ ref a))
  | resize (a size l) (h : Grown size (ref a) l) :
      Means memory ref (.resize a size) (Function.update ref a l)
  | rresize (a size l) (h : GrownFront size (ref a) l) :
      Means memory ref (.rresize a size) (Function.update ref a l)
  | reserve (a capacity reverse maxOffset shiftRData forceZeroOffset) :
      Means memory ref (.reserve a capacity reverse maxOffset shiftRData forceZeroOffset) ref
  | shrink (a) : Means memory ref (.shrink a) ref
  | left (a size) : Means memory ref (.left a size) (Function.update ref a ((ref a).take size))
  | right (a size) : Means memory ref (.right a size)
      (Function.update ref a ((ref a).drop ((ref a).length - size)))
  | clear (a) : Means memory ref (.clear a) (Function.update ref a [])
  | reset (a) : Means memory ref (.reset a) (Function.update ref a [])
  | copy (a b) : Means memory ref (.copy a b) (Function.update ref a (ref b))
  | moveSelf (a) : Means memory ref (.move a a) ref
  | move (a b) (h : a ≠ b) :
      Means memory ref (.move a b) (Function.update (Function.update ref b []) a (ref b))

/-- The array has the bytes `l`, in the bounds of its buffer, and knows whose memory it is. -/
structure Obj.Has (o : Obj) (l : List UInt8) : Prop where
  content : o.content = l
  le_capacity : o.d.offset + o.d.size ≤ o.d.capacity
  le_room : o.d.offset + o.d.size ≤ o.room
  external : o.d.externalStorage = true ↔ ∃ m, o.d.buf = .caller m

def State.Has (s : State) (ref : Nat → List UInt8) : Prop := ∀ a, (s.obj a).Has (ref a)

/-- The operations that only read memory of a caller. -/
def Op.reads : Op → Prop
  | .load _ _ | .append _ _ | .appendSelf _ => True
  | _ => False

/-- All operations of a run do what they mean, but for one that an assertion stops; what a new
buffer is filled with comes with each of them. -/
def KeptRun (blocks : MemBlockSize) :
    (Nat → List UInt8) → State → List (Op × (Nat → UInt8)) → Prop
  | ref, s, [] => s.Has ref
  | ref, s, (op, fresh) :: ops => s.Has ref ∧
    match s.run blocks fresh op with
    | .ok t => (op.reads → t.memory = s.memory) ∧
      ∃ ref', op.Means s.memory ref ref' ∧ KeptRun blocks ref' t ops
    | .error fault => fault = .assertion

/-! ### The ways that are not gone -/

/-- No other array has bytes in the `n` bytes from `i` on of a caller's memory. -/
def State.Apart (s : State) (a i n : Nat) : Prop :=
  i + n ≤ (s.obj a).room ∧ ∀ m, (s.arrays a).buf = .caller m → ∀ b ≠ a, (s.arrays b).buf = .caller m →
    n = 0 ∨ (s.arrays b).size = 0 ∨ (s.arrays b).offset + (s.arrays b).size ≤ i ∨
      i + n ≤ (s.arrays b).offset

/-- `reserve` does not change the offset of data that it leaves where it is, and is not to shift
data. -/
def Obj.Reservable (blocks : MemBlockSize) (capacity : Nat) (reverse : Bool) (maxOffset : Nat)
    (shiftRData forceZeroOffset : Bool) (o : Obj) : Prop :=
  let requested := if reverse then capacity else capacity + limit maxOffset forceZeroOffset o.d.offset
  requested < 2 ^ 64 ∧
  (requested ≠ o.d.capacity → o.newCapacity blocks requested = o.d.capacity →
    o.d.size = 0 ∨ limit maxOffset forceZeroOffset o.d.offset = o.d.offset) ∧
  (reverse → shiftRData → o.d.capacity < o.newCapacity blocks requested → capacity = o.d.size ∨
    o.d.size = 0 ∧ limit maxOffset forceZeroOffset capacity = capacity)

/-- Where `prepend` of `n` bytes writes to the buffer, and how many bytes. -/
def Obj.front (n : Nat) (o : Obj) : Nat × Nat :=
  if n ≤ o.d.offset then (o.d.offset - n, n) else (0, n + o.d.size)

/-- An operation keeps the content in its place, and leaves memory of a caller alone. -/
def State.Regular (blocks : MemBlockSize) (s : State) : Op → Prop
  | .load a data => (s.arrays a).offset + data.length < 2 ^ 64 ∧
    ((s.arrays a).externalStorage → (s.arrays a).capacity ≤ preallocatedSize ∧
      preallocatedSize < (s.arrays a).offset + data.length)
  | .loadInline _ m const => const → (s.memory m).length ≤ preallocatedSize
  | .append a data => (s.arrays a).offset + ((s.arrays a).size + data.length) < 2 ^ 64 ∧
    ((s.arrays a).externalStorage →
      data = [] ∨ (s.arrays a).capacity < (s.arrays a).size + data.length)
  | .appendSelf a => (s.arrays a).offset + (s.arrays a).size * 2 < 2 ^ 64 ∧
    ((s.arrays a).externalStorage →
      (s.arrays a).size = 0 ∨ (s.arrays a).capacity < (s.arrays a).size * 2)
  | .prepend a data => (s.arrays a).size + data.length < 2 ^ 64 ∧
    ((s.arrays a).externalStorage →
      data = [] ∨ (s.arrays a).capacity < (s.arrays a).size + data.length ∨
      s.Apart a ((s.obj a).front data.length).1 ((s.obj a).front data.length).2)
  | .resize a size => (s.arrays a).offset + size < 2 ^ 64 ∧
    ((s.arrays a).externalStorage → size ≤ (s.arrays a).size ∨ (s.arrays a).capacity < size ∨
      (s.arrays a).offset + size ≤ (s.arrays a).capacity ∧
      (s.arrays a).offset + size ≤ (s.obj a).room)
  | .rresize a size => size < 2 ^ 64 ∧
    ((s.arrays a).externalStorage → size ≤ (s.arrays a).offset + (s.arrays a).size ∨
      (s.arrays a).capacity < size ∨ s.Apart a (size - (s.arrays a).size) (s.arrays a).size)
  | .reserve a capacity reverse maxOffset shiftRData forceZeroOffset =>
    (s.arrays a).externalStorage = false → (s.arrays a).size ≤ capacity →
      (s.obj a).Reservable blocks capacity reverse maxOffset shiftRData forceZeroOffset
  | .shrink a => (s.arrays a).externalStorage = false →
    (s.obj a).Reservable blocks (s.arrays a).size false 0 false true
  | .copy a b => a ≠ b → (s.arrays b).externalStorage →
    (s.arrays b).offset = 0 ∨ (s.arrays b).size = 0
  | .move a b => a ≠ b → (s.arrays b).externalStorage = false →
    (s.arrays b).capacity ≤ preallocatedSize → (s.arrays b).offset = 0 ∨ (s.arrays b).size = 0
  | .left _ _ | .right _ _ | .clear _ | .reset _ => True

def RegularRun (blocks : MemBlockSize) : State → List (Op × (Nat → UInt8)) → Prop
  | _, [] => True
  | s, (op, fresh) :: ops => s.Regular blocks op ∧
    ∀ t, s.run blocks fresh op = .ok t → RegularRun blocks t ops

/-! ### Fields of an array -/

section
variable {o o' : Obj} {f : Nat → UInt8} {i n : Nat} {data : List UInt8} {α β : Type}

@[simp] theorem bytes_store : (o.store f).bytes = f := by
  unfold Obj.store Obj.bytes
  cases h : o.d.buf with
  | preallocated => simp [h]
  | heap length g => rfl
  | caller m => simp [h]

@[simp] theorem room_store : (o.store f).room = o.room := by
  unfold Obj.store Obj.room
  cases h : o.d.buf with
  | preallocated => simp [h]
  | heap length g => rfl
  | caller m => simp [h]

@[simp] theorem size_store : (o.store f).d.size = o.d.size := by
  unfold Obj.store
  split <;> rfl

@[simp] theorem offset_store : (o.store f).d.offset = o.d.offset := by
  unfold Obj.store
  split <;> rfl

@[simp] theorem capacity_store : (o.store f).d.capacity = o.d.capacity := by
  unfold Obj.store
  split <;> rfl

@[simp] theorem externalStorage_store :
    (o.store f).d.externalStorage = o.d.externalStorage := by
  unfold Obj.store
  split <;> rfl

/-- The operation goes well and the result is as told, or an assertion stops it. -/
def Ends (x : Except Fault α) (P : α → Prop) : Prop :=
  match x with
  | .ok a => P a
  | .error fault => fault = .assertion

theorem Ends.bind {x : Except Fault α} {g : α → Except Fault β} {P : α → Prop} {Q : β → Prop}
    (h : Ends x P) (hg : ∀ a, P a → Ends (g a) Q) : Ends (x >>= g) Q := by
  cases x with
  | ok a => exact hg a h
  | error fault => exact h

theorem Ends.mono {x : Except Fault α} {P Q : α → Prop} (h : Ends x P) (hpq : ∀ a, P a → Q a) :
    Ends x Q := by
  cases x with
  | ok a => exact hpq a h
  | error fault => exact h

/-! ### The invariant -/

/-- The buffer is the array's own, of so many bytes. -/
def Owned (size : Nat) (o : Obj) : Prop :=
  o.d.externalStorage = false ∧
    (o.d.buf = .preallocated ∧ size = preallocatedSize ∨
      ∃ f, o.d.buf = .heap size f ∧ preallocatedSize < size)

/-- The buffer is memory of a caller. -/
def Lent (o : Obj) : Prop := o.d.externalStorage = true ∧ ∃ m, o.d.buf = .caller m

structure Good (o : Obj) : Prop where
  kind : Owned o.d.capacity o ∨ Lent o
  le_capacity : o.d.offset + o.d.size ≤ o.d.capacity
  le_room : o.d.offset + o.d.size ≤ o.room
  capacity_lt : o.d.capacity < 2 ^ 64

theorem Owned.room (h : Owned n o) : o.room = n := by
  obtain ⟨-, ⟨hbuf, hn⟩ | ⟨f, hbuf, -⟩⟩ := h
  · rw [Obj.room, hbuf, hn]
  · rw [Obj.room, hbuf]

theorem Owned.le (h : Owned n o) : preallocatedSize ≤ n := by
  obtain ⟨-, ⟨-, hn⟩ | ⟨-, -, hlt⟩⟩ := h
  · exact hn.ge
  · exact hlt.le

theorem Owned.store (h : Owned n o) : Owned n (o.store f) ∧ (o.store f).memory = o.memory := by
  obtain ⟨hext, ⟨hbuf, hn⟩ | ⟨g, hbuf, hlt⟩⟩ := h
  · rw [Obj.store, hbuf]
    exact ⟨⟨hext, .inl ⟨hbuf, hn⟩⟩, rfl⟩
  · rw [Obj.store, hbuf]
    exact ⟨⟨hext, .inr ⟨f, rfl, hlt⟩⟩, rfl⟩

theorem Owned.freeBuffer (h : Owned o.d.capacity o) : o.freeBuffer = .ok () := by
  obtain ⟨hext, ⟨hbuf, hn⟩ | ⟨g, hbuf, hlt⟩⟩ := h
  · rw [Obj.freeBuffer, if_neg (by rw [hext]; exact Bool.false_ne_true), if_neg hn.le.not_gt]
  · rw [Obj.freeBuffer, if_neg (by rw [hext]; exact Bool.false_ne_true), if_pos hlt, hbuf]

theorem Good.owned (h : Good o) (hext : o.d.externalStorage = false) : Owned o.d.capacity o :=
  h.kind.resolve_right fun hlent => Bool.false_ne_true (hext.symm.trans hlent.1)

theorem Good.lent (h : Good o) (hext : o.d.externalStorage = true) : Lent o :=
  h.kind.resolve_left fun howned => Bool.false_ne_true (howned.1.symm.trans hext)

theorem Good.has (h : Good o) : o.Has o.content := by
  refine ⟨rfl, h.le_capacity, h.le_room, ?_⟩
  obtain ⟨hext, ⟨hbuf, -⟩ | ⟨f, hbuf, -⟩⟩ | ⟨hext, hbuf⟩ := h.kind
  · rw [hext, hbuf]
    exact iff_of_false Bool.false_ne_true nofun
  · rw [hext, hbuf]
    exact iff_of_false Bool.false_ne_true nofun
  · exact iff_of_true hext hbuf

theorem minus_of_le {m n : Nat} (h : n ≤ m) (hlt : m < 2 ^ 64) : minus m n = m - n := by
  rw [minus]
  omega

theorem Good.capacityForAppend (h : Good o) :
    o.capacityForAppend = o.d.capacity - o.d.size - o.d.offset := by
  have hle := h.le_capacity
  have hlt := h.capacity_lt
  rw [Obj.capacityForAppend, minus_of_le (m := o.d.capacity) (by omega) hlt,
    minus_of_le (by omega) (by omega)]

theorem get_of_le (h : i + n ≤ o.room) : o.get i n = .ok (read o.bytes i n) :=
  if_pos (.inr h)

theorem put_of_le (h : i + data.length ≤ o.room) :
    o.put i data = .ok (o.store (write o.bytes i data)) :=
  if_pos (.inr h)

theorem Good.get (h : Good o) : o.get o.d.offset o.d.size = .ok o.content := get_of_le h.le_room

/-! ### New buffers -/

variable {blocks : MemBlockSize} {fresh : Nat → UInt8}

theorem le_keyForSize (blocks : MemBlockSize) (n : Nat) : n ≤ blocks.keyForSize n := by
  rw [MemBlockSize.keyForSize]
  split
  case h_1 range h =>
    have hrange := List.find?_some h
    rw [decide_eq_true_eq] at hrange
    exact hrange.2
  case h_2 => exact Nat.le_refl n

theorem keyForSize_lt (blocks : MemBlockSize) (hn : n < 2 ^ 64) : blocks.keyForSize n < 2 ^ 64 := by
  rw [MemBlockSize.keyForSize]
  split
  case h_1 range h => exact blocks.sizes_lt range (List.mem_of_find?_eq_some h)
  case h_2 => exact hn

theorem Owned.le_newCapacity (h : Owned o.d.capacity o) (n : Nat) :
    n ≤ o.newCapacity blocks n := by
  have hle := h.le
  rw [Obj.newCapacity]
  split
  case isTrue hn =>
    split
    · exact hn.trans hle
    · exact hn
  case isFalse => exact le_keyForSize blocks n

theorem Owned.newCapacity_lt (h : Owned o.d.capacity o) (hlt : o.d.capacity < 2 ^ 64)
    (hn : n < 2 ^ 64) : o.newCapacity blocks n < 2 ^ 64 := by
  have hle := h.le
  rw [Obj.newCapacity]
  split
  · split
    · exact hlt
    · exact hle.trans_lt hlt
  · exact keyForSize_lt blocks hn

theorem limit_le (maxOffset : Nat) (force : Bool) (offset : Nat) :
    Obj.limit maxOffset force offset ≤ offset := by
  rw [Obj.limit]
  split
  case isTrue h => exact h.2.le
  case isFalse => exact Nat.le_refl offset

theorem Good.newOffset_add_le (h : Good o) {capacity newCapacity : Nat}
    (hsize : o.d.size ≤ capacity) (hle : capacity ≤ newCapacity) (reverse shiftRData : Bool) :
    (o.newOffset capacity newCapacity reverse shiftRData).1 + o.d.size ≤ newCapacity := by
  have hbound := h.le_capacity
  rw [Obj.newOffset]
  dsimp only
  split
  · split
    · split
      · dsimp only
        split <;> omega
      · dsimp only
        omega
    · dsimp only
      split <;> omega
  · split
    · have hlt := h.capacity_lt
      rw [minus_of_le (m := o.d.capacity) (by omega) hlt, minus_of_le (by omega) (by omega)]
      dsimp only
      split <;> omega
    · dsimp only
      omega

theorem Owned.newBuf (ho : Owned o.d.capacity o) {capacity : Nat} {buf : Buf}
    (hne : o.newCapacity blocks capacity ≠ o.d.capacity)
    (hnew : (if capacity ≤ preallocatedSize then Buf.preallocated
      else Buf.heap (o.newCapacity blocks capacity) fresh) = buf) :
    Owned (o.newCapacity blocks capacity) { o with d.buf := buf } := by
  refine ⟨ho.1, ?_⟩
  have hkey := le_keyForSize blocks capacity
  rw [Obj.newCapacity] at hne hnew ⊢
  by_cases hsmall : capacity ≤ preallocatedSize
  · rw [if_pos hsmall] at hne hnew ⊢
    by_cases hle : o.d.capacity ≤ preallocatedSize
    · rw [if_pos hle] at hne
      exact absurd rfl hne
    · rw [if_neg hle]
      exact .inl ⟨hnew.symm, rfl⟩
  · rw [if_neg hsmall, if_neg hsmall] at hnew
    rw [if_neg hsmall]
    exact .inr ⟨fresh, hnew.symm, (not_le.mp hsmall).trans_le hkey⟩

/-- The data is in the new buffer, at the new offset. -/
theorem Good.transfer (h : Good o) (ho : Owned o.d.capacity o) {capacity newOffset : Nat}
    (hle : newOffset + o.d.size ≤ o.newCapacity blocks capacity)
    (hne : o.newCapacity blocks capacity ≠ o.d.capacity) :
    Ends (o.transfer fresh capacity (o.newCapacity blocks capacity) newOffset) fun o' =>
      Owned (o.newCapacity blocks capacity) o' ∧ o'.memory = o.memory ∧ o'.d.size = o.d.size ∧
        read o'.bytes newOffset o.d.size = o.content := by
  have hlength : o.content.length = o.d.size := length_read _ _ _
  have hbuf := @Owned.newBuf o blocks fresh ho capacity _ hne rfl
  rw [Obj.transfer, h.get, ho.freeBuffer]
  show Ends (Obj.put _ _ _) _
  rw [put_of_le (by rw [hbuf.room, hlength]; exact hle)]
  refine ⟨hbuf.store.1, hbuf.store.2, size_store, ?_⟩
  rw [bytes_store, ← hlength]
  exact read_write _ _ _

/-- The data is where it was, or in a new buffer. -/
theorem Good.settle (h : Good o) (ho : Owned o.d.capacity o) {capacity newOffset : Nat}
    (hle : newOffset + o.d.size ≤ o.newCapacity blocks capacity)
    (hplace : o.newCapacity blocks capacity = o.d.capacity →
      o.d.size = 0 ∨ newOffset = o.d.offset) :
    Ends (if o.newCapacity blocks capacity = o.d.capacity then .ok o
      else o.transfer fresh capacity (o.newCapacity blocks capacity) newOffset) fun o' =>
      Owned (o.newCapacity blocks capacity) o' ∧ o'.memory = o.memory ∧ o'.d.size = o.d.size ∧
        read o'.bytes newOffset o.d.size = o.content := by
  split
  case isTrue heq =>
    refine ⟨heq ▸ ho, rfl, rfl, ?_⟩
    rcases hplace heq with hzero | hoffset
    · rw [Obj.content, hzero, read_zero, read_zero]
    · rw [hoffset]
      rfl
  case isFalse hne => exact h.transfer ho hle hne

/-- A shift is to the left of the new offset, and there is one only if it is asked for. -/
theorem newOffset_snd (o : Obj) (capacity newCapacity : Nat) (reverse shiftRData : Bool) :
    (o.newOffset capacity newCapacity reverse shiftRData).2 ≤
        (o.newOffset capacity newCapacity reverse shiftRData).1 ∧
      ((o.newOffset capacity newCapacity reverse shiftRData).2 = 0 ∨
        reverse = true ∧ shiftRData = true ∧ o.d.capacity < newCapacity ∧
          (o.newOffset capacity newCapacity reverse shiftRData).2 = capacity - o.d.size) := by
  rw [Obj.newOffset]
  dsimp only
  split
  case isTrue hreverse =>
    split
    case isTrue hlt =>
      split
      case isTrue hshift =>
        refine ⟨?_, .inr ⟨hreverse, hshift, hlt, rfl⟩⟩
        dsimp only
        split <;> omega
      case isFalse => exact ⟨Nat.zero_le _, .inl rfl⟩
    case isFalse => exact ⟨Nat.zero_le _, .inl rfl⟩
  case isFalse =>
    split
    · exact ⟨Nat.zero_le _, .inl rfl⟩
    · exact ⟨Nat.zero_le _, .inl rfl⟩

theorem newOffset_same (o : Obj) (capacity : Nat) (reverse shiftRData : Bool) :
    o.newOffset capacity o.d.capacity reverse shiftRData = (o.d.offset, 0) := by
  rw [Obj.newOffset, if_neg (Nat.lt_irrefl _)]
  dsimp only
  split
  · rw [Nat.sub_self, Nat.sub_zero]
    split
    case isTrue h => rw [Nat.le_zero.mp h]
    case isFalse => rfl
  · rw [if_neg (Nat.lt_irrefl _)]

/-- `reserve`, when it comes to the buffers. -/
theorem reserve_eq {capacity requested maxOffset : Nat} {reverse shiftRData forceZeroOffset : Bool}
    (hext : o.d.externalStorage = false) (hsize : o.d.size ≤ capacity)
    (hrequested : (if reverse then capacity
      else (capacity + Obj.limit maxOffset forceZeroOffset o.d.offset) % 2 ^ 64) = requested)
    (hne : requested ≠ o.d.capacity) :
    o.reserve blocks fresh capacity reverse maxOffset shiftRData forceZeroOffset =
      (if o.newCapacity blocks requested = o.d.capacity then .ok o
        else o.transfer fresh requested (o.newCapacity blocks requested) (Obj.limit maxOffset
          forceZeroOffset (o.newOffset requested (o.newCapacity blocks requested) reverse
            shiftRData).1)) >>= fun o' => .ok { o' with
        d.capacity := o.newCapacity blocks requested
        d.offset := minus (Obj.limit maxOffset forceZeroOffset
          (o.newOffset requested (o.newCapacity blocks requested) reverse shiftRData).1)
          (o.newOffset requested (o.newCapacity blocks requested) reverse shiftRData).2 } := by
  subst hrequested
  rw [Obj.reserve, if_neg (by rw [hext]; exact fun h => Bool.false_ne_true h.1),
    if_neg (by rw [hext]; exact Bool.false_ne_true), if_neg hsize.not_gt]
  dsimp only
  rw [if_neg hne]
  rfl

/-- With a buffer of its own an array is as it should be if its bytes are in the bounds. -/
theorem Owned.good (h : Owned n o) {offset size : Nat} (hle : offset + size ≤ n)
    (hlt : n < 2 ^ 64) :
    Good { o with d.capacity := n, d.offset := offset, d.size := size } where
  kind := .inl h
  le_capacity := hle
  le_room := hle.trans_eq h.room.symm
  capacity_lt := hlt

/-- An array that was given a buffer: it has the capacity and the offset, and the data is `shift`
bytes after its beginning. -/
structure Rebuffered (o : Obj) (newCapacity newOffset shift : Nat) (o' : Obj) : Prop where
  good : Good o'
  external : o'.d.externalStorage = false
  capacity : o'.d.capacity = newCapacity
  offset : o'.d.offset + shift = newOffset
  size : o'.d.size = o.d.size
  memory : o'.memory = o.memory
  content : read o'.bytes newOffset o.d.size = o.content

/-- The buffer, its capacity and the offset after `reserve`. -/
theorem Good.rebuffer (h : Good o) (ho : Owned o.d.capacity o) {requested offset shift : Nat}
    (hle : offset + o.d.size ≤ o.newCapacity blocks requested)
    (hlt : o.newCapacity blocks requested < 2 ^ 64)
    (hplace : o.newCapacity blocks requested = o.d.capacity →
      o.d.size = 0 ∨ offset = o.d.offset) (hshift : shift ≤ offset) :
    Ends ((if o.newCapacity blocks requested = o.d.capacity then .ok o
      else o.transfer fresh requested (o.newCapacity blocks requested) offset) >>= fun o' =>
        .ok { o' with
          d.capacity := o.newCapacity blocks requested, d.offset := minus offset shift })
      (Rebuffered o (o.newCapacity blocks requested) offset shift) := by
  refine (h.settle ho hle hplace).bind fun o' ho' => ?_
  obtain ⟨howned, hmemory, hsize, hread⟩ := ho'
  rw [minus_of_le hshift (by omega)]
  refine ⟨?_, howned.1, rfl, Nat.sub_add_cancel hshift, hsize, hmemory, hread⟩
  exact howned.good (by omega) hlt

theorem limit_eq_self {maxOffset : Nat} {force : Bool} {m n : Nat}
    (h : Obj.limit maxOffset force n = n) (hle : n ≤ m) : n ≤ Obj.limit maxOffset force m := by
  rw [Obj.limit] at h ⊢
  split
  case isTrue hm =>
    split at h
    · exact h.ge
    case isFalse hn => exact not_lt.mp fun hlt => hn ⟨hm.1, hlt⟩
  case isFalse => exact hle

/-- `reserve` when it comes to the buffers. -/
theorem Good.reserve_owned (h : Good o) (hext : o.d.externalStorage = false)
    {capacity requested maxOffset : Nat} {reverse shiftRData forceZeroOffset : Bool}
    {new : Nat × Nat} (hsize : o.d.size ≤ capacity)
    (hrequested : (if reverse then capacity
      else (capacity + Obj.limit maxOffset forceZeroOffset o.d.offset) % 2 ^ 64) = requested)
    (hne : requested ≠ o.d.capacity) (hle : o.d.size ≤ requested) (hlt : requested < 2 ^ 64)
    (hnew : o.newOffset requested (o.newCapacity blocks requested) reverse shiftRData = new)
    (hplace : o.newCapacity blocks requested = o.d.capacity →
      o.d.size = 0 ∨ Obj.limit maxOffset forceZeroOffset o.d.offset = o.d.offset)
    (hshift : new.2 ≤ Obj.limit maxOffset forceZeroOffset new.1) :
    Ends (o.reserve blocks fresh capacity reverse maxOffset shiftRData forceZeroOffset)
      (Rebuffered o (o.newCapacity blocks requested) (Obj.limit maxOffset forceZeroOffset new.1)
        new.2) := by
  have ho := h.owned hext
  have hcapacity : requested ≤ o.newCapacity blocks requested := ho.le_newCapacity requested
  have hadd := h.newOffset_add_le hle hcapacity reverse shiftRData
  have hlimit := limit_le maxOffset forceZeroOffset new.1
  rw [reserve_eq hext hsize hrequested hne, hnew]
  rw [hnew] at hadd
  refine h.rebuffer ho (hadd.trans' (Nat.add_le_add_right hlimit _))
    (ho.newCapacity_lt h.capacity_lt hlt) (fun heq => ?_) hshift
  rw [heq, newOffset_same] at hnew
  rw [← hnew]
  exact hplace heq

theorem Good.reserve (h : Good o) {capacity maxOffset : Nat}
    {reverse shiftRData forceZeroOffset : Bool}
    (hregular : o.d.externalStorage = false → o.d.size ≤ capacity →
      o.Reservable blocks capacity reverse maxOffset shiftRData forceZeroOffset) :
    Ends (o.reserve blocks fresh capacity reverse maxOffset shiftRData forceZeroOffset) fun o' =>
      Good o' ∧ o'.memory = o.memory ∧ o'.content = o.content := by
  cases hext : o.d.externalStorage with
  | true =>
    rw [Obj.reserve, hext]
    split
    · exact ⟨h, rfl, rfl⟩
    · exact rfl
  | false =>
    rcases Nat.lt_or_ge capacity o.d.size with hlt | hsize
    · rw [Obj.reserve, hext, if_neg (fun h => Bool.false_ne_true h.1), if_neg Bool.false_ne_true,
        if_pos hlt]
      exact ⟨h, rfl, rfl⟩
    · have ho := h.owned hext
      obtain ⟨hlt, hplace, hshift⟩ := hregular hext hsize
      obtain ⟨requested, hrequested⟩ : ∃ requested, requested = if reverse then capacity
        else capacity + Obj.limit maxOffset forceZeroOffset o.d.offset := ⟨_, rfl⟩
      rw [← hrequested] at hlt hplace hshift
      have hmod : (if reverse then capacity
          else (capacity + Obj.limit maxOffset forceZeroOffset o.d.offset) % 2 ^ 64) =
          requested := by
        rw [hrequested] at hlt ⊢
        split
        · rfl
        case isFalse hreverse =>
          rw [if_neg hreverse] at hlt
          exact Nat.mod_eq_of_lt hlt
      have hle : capacity ≤ requested := by
        rw [hrequested]
        split
        · exact Nat.le_refl _
        · exact Nat.le_add_right _ _
      rcases eq_or_ne requested o.d.capacity with heq | hne
      · rw [Obj.reserve, if_neg (by rw [hext]; exact fun h => Bool.false_ne_true h.1),
          if_neg (by rw [hext]; exact Bool.false_ne_true), if_neg hsize.not_gt]
        dsimp only
        rw [hmod, if_pos heq]
        exact ⟨h, rfl, rfl⟩
      obtain ⟨new, hnew⟩ : ∃ new, o.newOffset requested (o.newCapacity blocks requested) reverse
        shiftRData = new := ⟨_, rfl⟩
      obtain ⟨hsnd, hzero⟩ :=
        newOffset_snd o requested (o.newCapacity blocks requested) reverse shiftRData
      rw [hnew] at hsnd hzero
      have hshifted : new.2 ≤ Obj.limit maxOffset forceZeroOffset new.1 ∧
          (new.2 = 0 ∨ o.d.size = 0) := by
        rcases hzero with hzero | ⟨hreverse, hright, hcap, hzero⟩
        · exact ⟨hzero.le.trans (Nat.zero_le _), .inl hzero⟩
        · have hcapacity : requested = capacity := by rw [hrequested, if_pos hreverse]
          rcases hshift hreverse hright hcap with heq | ⟨hempty, heq⟩
          · rw [hcapacity, heq, Nat.sub_self] at hzero
            exact ⟨hzero.le.trans (Nat.zero_le _), .inl hzero⟩
          · rw [hempty, hcapacity, Nat.sub_zero] at hzero
            rw [← hzero] at heq
            exact ⟨limit_eq_self heq hsnd, .inr hempty⟩
      refine (h.reserve_owned hext hsize hmod hne (hsize.trans hle) hlt hnew (hplace hne)
        hshifted.1).mono ?_
      intro o' ho'
      refine ⟨ho'.good, ho'.memory, ?_⟩
      rw [← ho'.content, Obj.content, ho'.size, ← ho'.offset]
      rcases hshifted.2 with hzero | hempty
      · rw [hzero]
        rfl
      · rw [hempty]
        rfl

/-! ### Operations -/

theorem limit_zero (offset : Nat) : Obj.limit 0 false offset = offset :=
  if_neg fun h => h.1.elim Bool.false_ne_true fun h => h rfl

/-- The buffer has room for `size` bytes after `resize` has made it. -/
theorem Good.reserve_back (h : Good o) (hext : o.d.externalStorage = false) {size : Nat}
    (hsize : o.d.size ≤ size) (hlt : o.d.offset + size < 2 ^ 64)
    (hcap : o.d.capacity < o.d.offset + size) :
    Ends (o.reserve blocks fresh size false 0 false false) fun o' => ∃ capacity,
      o.d.offset + size ≤ capacity ∧ Rebuffered o capacity o.d.offset 0 o' := by
  have hcapacity : size + o.d.offset ≤ o.newCapacity blocks (size + o.d.offset) :=
    (h.owned hext).le_newCapacity _
  have hnew : o.newOffset (size + o.d.offset) (o.newCapacity blocks (size + o.d.offset)) false
      false = (o.d.offset, 0) := by
    rw [Obj.newOffset, if_neg Bool.false_ne_true, if_neg (by omega)]
  have hrequested : (if (false : Bool) = true then size
      else (size + Obj.limit 0 false o.d.offset) % 2 ^ 64) = size + o.d.offset := by
    rw [if_neg Bool.false_ne_true, limit_zero, Nat.mod_eq_of_lt (by omega)]
  have hle : o.d.offset + size ≤ o.newCapacity blocks (size + o.d.offset) := by omega
  refine (h.reserve_owned hext hsize hrequested (by omega) (by omega) (by omega) hnew
    (fun _ => .inr (limit_zero _)) (Nat.zero_le _)).mono fun o' ho' => ?_
  rw [limit_zero] at ho'
  exact ⟨_, hle, ho'⟩

theorem Good.setSize (h : Good o) {offset size : Nat} (hle : offset + size ≤ o.d.capacity)
    (hroom : offset + size ≤ o.room) : Good { o with d.offset := offset, d.size := size } :=
  ⟨h.kind, hle, hroom, h.capacity_lt⟩

theorem Good.room_eq (h : Good o) (hext : o.d.externalStorage = false) :
    o.room = o.d.capacity := (h.owned hext).room

/-- What `resize` leaves: the first bytes. -/
structure Resized (o : Obj) (newSize : Nat) (o' : Obj) : Prop where
  good : Good o'
  external : o'.d.externalStorage = o.d.externalStorage
  offset : o'.d.offset = o.d.offset
  size : o'.d.size = newSize
  memory : o'.memory = o.memory
  lent : o.d.externalStorage = true → o'.d.capacity = o.d.capacity
  kept : ∀ k ≤ o.d.size, read o'.bytes o.d.offset k = read o.bytes o.d.offset k

theorem Good.resize (h : Good o) {size : Nat} (hlt : o.d.offset + size < 2 ^ 64)
    (hregular : o.d.externalStorage = true → size ≤ o.d.size ∨ o.d.capacity < size ∨
      o.d.offset + size ≤ o.d.capacity ∧ o.d.offset + size ≤ o.room) :
    Ends (o.resize blocks fresh size) (Resized o size) := by
  have hcapacity := h.le_capacity
  have hroom := h.le_room
  rw [Obj.resize]
  split
  case isTrue heq => exact ⟨h, rfl, rfl, heq.symm, rfl, fun _ => rfl, fun _ _ => rfl⟩
  case isFalse hne =>
    rw [h.capacityForAppend]
    split
    case isTrue hgrow =>
      cases hext : o.d.externalStorage with
      | true =>
        rcases hregular hext with hle | hcap | ⟨hle, -⟩
        · omega
        · rw [Obj.reserve, hext, if_neg (by rw [not_and]; exact fun _ => hcap.not_ge),
            if_pos rfl]
          rfl
        · omega
      | false =>
        refine (h.reserve_back hext hgrow.1.le hlt (by omega)).bind ?_
        rintro o' ⟨capacity, hle, ho'⟩
        have hoffset := ho'.offset
        rw [Nat.add_zero] at hoffset
        have hcap := ho'.capacity
        have hroom' := ho'.good.room_eq ho'.external
        refine ⟨ho'.good.setSize (by omega) (by omega), ho'.external.trans hext.symm, hoffset, rfl,
          ho'.memory, fun hlent => absurd (hext.symm.trans hlent) Bool.false_ne_true, fun k hk => ?_⟩
        rw [← take_read hk, ← take_read hk]
        exact congrArg (·.take k) ho'.content
    case isFalse hgrow =>
      have hle : o.d.offset + size ≤ o.d.capacity := by omega
      refine ⟨h.setSize hle ?_, rfl, rfl, rfl, rfl, fun _ => rfl, fun _ _ => rfl⟩
      cases hext : o.d.externalStorage with
      | true =>
        rcases hregular hext with hsize | hcap | ⟨-, hle'⟩
        · omega
        · omega
        · exact hle'
      | false => exact hle.trans_eq (h.room_eq hext).symm

theorem Resized.content (h : Resized o n o') : o'.content = read o'.bytes o.d.offset n := by
  rw [Obj.content, h.offset, h.size]

theorem Resized.grown (h : Resized o n o') : Grown n o.content o'.content := by
  rw [h.content]
  rcases Nat.le_total n o.d.size with hle | hle
  · refine ⟨[], by rw [Obj.content, length_read, Nat.sub_eq_zero_of_le hle]; rfl, ?_⟩
    rw [h.kept n hle, List.append_nil, Obj.content, take_read hle]
  · refine ⟨read o'.bytes (o.d.offset + o.d.size) (n - o.d.size), ?_, ?_⟩
    · rw [length_read, Obj.content, length_read]
    · have hadd : o.d.size + (n - o.d.size) = n := Nat.add_sub_cancel' hle
      have hread := read_add o'.bytes o.d.offset o.d.size (n - o.d.size)
      rw [hadd] at hread
      rw [hread, h.kept o.d.size (Nat.le_refl _), List.take_of_length_le]
      · rfl
      · rw [Obj.content, length_read]
        exact hle

theorem Good.store (h : Good o) : Good (o.store f) := by
  have hkind : Owned o.d.capacity (o.store f) ∨ Lent (o.store f) := by
    rcases h.kind with howned | ⟨hext, m, hbuf⟩
    · exact .inl howned.store.1
    · refine .inr ⟨externalStorage_store.trans hext, m, ?_⟩
      rw [Obj.store, hbuf]
      exact hbuf
  refine ⟨?_, ?_, ?_, ?_⟩
  · rw [capacity_store]
    exact hkind
  · rw [offset_store, size_store, capacity_store]
    exact h.le_capacity
  · rw [offset_store, size_store, room_store]
    exact h.le_room
  · rw [capacity_store]
    exact h.capacity_lt

theorem write_nil (f : Nat → UInt8) (i : Nat) : write f i [] = f := by
  funext k
  rw [write]
  split <;> rfl

theorem store_bytes (o : Obj) : o.store o.bytes = o := by
  obtain ⟨⟨preallocated, size, capacity, buf, externalStorage, offset⟩, memory⟩ := o
  cases buf with
  | preallocated => rfl
  | heap length bytes => rfl
  | caller m =>
    refine congrArg (Obj.mk _) ?_
    exact Function.update_eq_self m memory

@[simp] theorem put_nil (o : Obj) (i : Nat) : o.put i [] = .ok o := by
  rw [Obj.put, if_pos (.inl rfl), write_nil, store_bytes]

/-- Bytes are written to a buffer of the array's own. -/
theorem Good.put_owned (h : Good o) (hext : o.d.externalStorage = false)
    (hle : i + data.length ≤ o.room) : Ends (o.put i data) fun o' =>
      Good o' ∧ o'.memory = o.memory ∧ o'.d.offset = o.d.offset ∧ o'.d.size = o.d.size ∧
        o'.bytes = write o.bytes i data := by
  rw [put_of_le hle]
  exact ⟨h.store, (h.owned hext).store.2, offset_store, size_store, bytes_store⟩

/-- What the arrays do, without a write to memory of a caller. -/
structure Does (o : Obj) (l : List UInt8) (o' : Obj) : Prop where
  good : Good o'
  memory : o'.memory = o.memory
  content : o'.content = l

/-- An array of a caller's memory is not made to grow: there was nothing to do, or an assertion
was in the way. -/
theorem Resized.external_eq (h : Resized o n o')
    (hregular : o.d.externalStorage = true → o.d.capacity < n) : o'.d.externalStorage = false := by
  have hcapacity := h.good.le_capacity
  rw [h.offset, h.size] at hcapacity
  rw [h.external]
  by_contra hext
  have hext := Bool.of_not_eq_false hext
  rw [h.lent hext] at hcapacity
  have hcap := hregular hext
  omega

/-- The bytes after those that were there are written. -/
theorem Resized.append (h : Resized o (o.d.size + data.length) o')
    (hext : o'.d.externalStorage = false) :
    Ends (o'.put (o.d.offset + o.d.size) data) (Does o (o.content ++ data)) := by
  have hroom := h.good.le_room
  rw [h.offset, h.size] at hroom
  refine (h.good.put_owned hext (by omega)).mono ?_
  rintro o'' ⟨hgood, hmemory, hoffset, hsize, hbytes⟩
  refine ⟨hgood, hmemory.trans h.memory, ?_⟩
  rw [Obj.content, hoffset, hsize, h.offset, h.size, hbytes, read_add, read_write,
    read_write_of_disjoint (.inl (Nat.le_refl _)), h.kept _ (Nat.le_refl _)]
  rfl

theorem Good.append (h : Good o) (hlt : o.d.offset + (o.d.size + data.length) < 2 ^ 64)
    (hregular : o.d.externalStorage = true → data = [] ∨ o.d.capacity < o.d.size + data.length) :
    Ends (o.append blocks fresh data) (Does o (o.content ++ data)) := by
  refine (h.resize hlt fun hext => ?_).bind fun o' ho' => ?_
  · rcases hregular hext with rfl | hcap
    · exact .inl (Nat.le_refl _)
    · exact .inr (.inl hcap)
  · rcases eq_or_ne data [] with rfl | hne
    · rw [put_nil, List.append_nil]
      refine ⟨ho'.good, ho'.memory, ?_⟩
      rw [ho'.content]
      exact ho'.kept _ (Nat.le_refl _)
    · have hext := ho'.external_eq fun hext => (hregular hext).resolve_left hne
      rw [ho'.offset, Nat.add_comm o.d.size o.d.offset]
      exact ho'.append hext

theorem Good.appendSelf (h : Good o) (hlt : o.d.offset + o.d.size * 2 < 2 ^ 64)
    (hregular : o.d.externalStorage = true → o.d.size = 0 ∨ o.d.capacity < o.d.size * 2) :
    Ends (o.appendSelf blocks fresh) (Does o (o.content ++ o.content)) := by
  refine (h.resize hlt fun hext => ?_).bind fun o' ho' => ?_
  · rcases hregular hext with hzero | hcap
    · exact .inl (by omega)
    · exact .inr (.inl hcap)
  · have hlength : o.content.length = o.d.size := length_read _ _ _
    have hroom := ho'.good.le_room
    rw [ho'.offset, ho'.size] at hroom
    rw [ho'.offset, get_of_le (by omega), ho'.kept _ (Nat.le_refl _)]
    show Ends (o'.put (o.d.offset + o.d.size) o.content) _
    rcases Nat.eq_zero_or_pos o.d.size with hzero | hpos
    · have hnil : o.content = [] := List.eq_nil_of_length_eq_zero (hlength.trans hzero)
      rw [hnil, put_nil]
      refine ⟨ho'.good, ho'.memory, ?_⟩
      rw [ho'.content, hzero]
      rfl
    · have hext := ho'.external_eq fun hext => (hregular hext).resolve_left hpos.ne'
      rw [Nat.mul_two] at ho'
      refine Resized.append ?_ hext
      rw [hlength]
      exact ho'

theorem Good.left (h : Good o) (size : Nat) :
    Ends (o.left blocks fresh size) (Does o (o.content.take size)) := by
  rw [Obj.left]
  split
  case isTrue hle =>
    refine ⟨h, rfl, (List.take_of_length_le ?_).symm⟩
    rw [Obj.content, length_read]
    exact hle
  case isFalse hlt =>
    have hbound := h.le_capacity
    have hcap := h.capacity_lt
    refine (h.resize (by omega) fun _ => .inl (by omega)).mono fun o' ho' => ?_
    refine ⟨ho'.good, ho'.memory, ?_⟩
    rw [ho'.content, ho'.kept _ (by omega), Obj.content, take_read (by omega)]

/-- The bytes of an empty array are written. -/
theorem Resized.load (h : Resized o data.length o') (hempty : o.d.size = 0)
    (hext : o'.d.externalStorage = false) : Ends (o'.put o'.d.offset data) (Does o data) := by
  have hcontent : o.content = [] := by rw [Obj.content, hempty, read_zero]
  have hresized : Resized o (o.d.size + data.length) o' := by
    rw [hempty, Nat.zero_add]
    exact h
  have hload := hresized.append hext
  rw [hempty, hcontent] at hload
  rw [h.offset]
  exact hload

/-- An array of a caller's memory gets a buffer when the bytes do not fit. -/
theorem Good.resize_lent (h : Good o) (hcap : o.d.capacity ≤ preallocatedSize)
    (hlt : o.d.offset + n < 2 ^ 64) (hle : preallocatedSize < o.d.offset + n) :
    Ends (Obj.resize blocks fresh n { o with d.externalStorage := false, d.size := 0 }) fun o' =>
      Resized { o with d.externalStorage := false, d.size := 0 } n o' ∧
        o'.d.externalStorage = false := by
  have hbound := h.le_capacity
  have hcaplt := h.capacity_lt
  obtain ⟨o₁, ho₁⟩ : ∃ o₁ : Obj, o₁ = { o with d.externalStorage := false, d.size := 0 } := ⟨_, rfl⟩
  have hext : o₁.d.externalStorage = false := by rw [ho₁]
  have hsize : o₁.d.size = 0 := by rw [ho₁]
  have hcapacity : o₁.d.capacity = o.d.capacity := by rw [ho₁]
  have hoffset : o₁.d.offset = o.d.offset := by rw [ho₁]
  have hmemory : o₁.memory = o.memory := by rw [ho₁]
  rw [← ho₁]
  have happend : o₁.capacityForAppend = o.d.capacity - o.d.offset := by
    rw [Obj.capacityForAppend, hsize, hcapacity, hoffset, minus_of_le (Nat.zero_le _) hcaplt,
      Nat.sub_zero, minus_of_le (by omega) hcaplt]
  have hkey := le_keyForSize blocks (n + o.d.offset)
  have hnewCapacity : o₁.newCapacity blocks (n + o.d.offset) = blocks.keyForSize (n + o.d.offset) :=
    if_neg (by omega)
  have hnewOffset : o₁.newOffset (n + o.d.offset) (blocks.keyForSize (n + o.d.offset)) false false =
      (o.d.offset, 0) := by
    rw [Obj.newOffset, if_neg Bool.false_ne_true, if_neg (by omega), hoffset]
  have hrequested : (if (false : Bool) = true then n
      else (n + Obj.limit 0 false o₁.d.offset) % 2 ^ 64) = n + o.d.offset := by
    rw [if_neg Bool.false_ne_true, limit_zero, hoffset, Nat.mod_eq_of_lt (by omega)]
  rw [Obj.resize, if_neg (by omega), if_pos ⟨by omega, by omega⟩,
    reserve_eq hext (by omega) hrequested (by omega), hnewCapacity, hnewOffset, if_neg (by omega)]
  have htransfer : o₁.transfer fresh (n + o.d.offset) (blocks.keyForSize (n + o.d.offset))
      (Obj.limit 0 false o.d.offset) =
        .ok { o₁ with d.buf := .heap (blocks.keyForSize (n + o.d.offset)) fresh } := by
    have hget : o₁.get o₁.d.offset o₁.d.size = .ok [] := by
      rw [hsize]
      exact if_pos (.inl rfl)
    have hfree : o₁.freeBuffer = .ok () := by
      rw [Obj.freeBuffer, if_neg (by rw [hext]; exact Bool.false_ne_true), if_neg (by omega)]
    rw [Obj.transfer, hget, hfree]
    show Obj.put _ [] _ = _
    rw [put_nil]
    dsimp only
    rw [if_neg (by omega)]
  dsimp only
  rw [htransfer, limit_zero, minus_of_le (Nat.zero_le _) (by omega), Nat.sub_zero]
  have howned : Owned (blocks.keyForSize (n + o.d.offset))
      { o₁ with d.buf := .heap (blocks.keyForSize (n + o.d.offset)) fresh } :=
    ⟨hext, .inr ⟨fresh, rfl, by omega⟩⟩
  have hin : o.d.offset + n ≤ blocks.keyForSize (n + o.d.offset) := by omega
  refine ⟨⟨howned.good hin (keyForSize_lt blocks (by omega)), rfl, hoffset.symm, rfl, rfl,
    fun hlent => absurd (hext.symm.trans hlent) Bool.false_ne_true, fun k hk => ?_⟩, hext⟩
  rw [Nat.le_zero.mp (hk.trans_eq hsize)]
  rfl

theorem Good.load (h : Good o) (hlt : o.d.offset + data.length < 2 ^ 64)
    (hregular : o.d.externalStorage = true →
      o.d.capacity ≤ preallocatedSize ∧ preallocatedSize < o.d.offset + data.length) :
    Ends (o.load blocks fresh data) (Does o data) := by
  have hbound := h.le_capacity
  rw [Obj.load]
  cases hext : o.d.externalStorage with
  | false =>
    have hclear : { o with d.externalStorage := false }.clear = { o with d.size := 0 } := by
      rw [Obj.clear, ← hext]
    have hgood : Good { o with d.size := 0 } :=
      h.setSize ((Nat.le_add_right _ _).trans hbound) ((Nat.le_add_right _ _).trans h.le_room)
    dsimp only
    rw [hclear]
    split
    case isTrue hnil =>
      refine ⟨hgood, rfl, ?_⟩
      rw [hnil]
      rfl
    case isFalse =>
      refine (hgood.resize hlt fun hlent => absurd (hext.symm.trans hlent) Bool.false_ne_true).bind
        fun o' ho' => ?_
      exact (ho'.load rfl (ho'.external.trans hext)).mono fun _ hload =>
        ⟨hload.good, hload.memory, hload.content⟩
  | true =>
    obtain ⟨hcap, hle⟩ := hregular hext
    dsimp only
    rw [if_neg (by rintro rfl; rw [List.length_nil] at hle; omega)]
    refine (h.resize_lent hcap hlt hle).bind fun o' ho' => ?_
    exact (ho'.1.load rfl ho'.2).mono fun _ hload => ⟨hload.good, hload.memory, hload.content⟩

/-! ### Operations at the beginning -/

/-- Of the memory of callers no more is written than `n` bytes from `i` on, of the array's own
caller. -/
def Touches (o : Obj) (i n : Nat) (memory : Nat → Caller) : Prop :=
  memory = o.memory ∨ ∃ m f, o.d.buf = .caller m ∧
    memory = Function.update o.memory m { o.memory m with bytes := f } ∧
    ∀ k, k < i ∨ i + n ≤ k → f k = (o.memory m).bytes k

theorem Touches.owned {memory : Nat → Caller} (ht : Touches o i n memory) (h : Good o)
    (hext : o.d.externalStorage = false) : memory = o.memory := by
  rcases ht with hmemory | ⟨m, f, hbuf, -⟩
  · exact hmemory
  · obtain ⟨-, ⟨hbuf', -⟩ | ⟨g, hbuf', -⟩⟩ := h.owned hext
    · exact absurd (hbuf.symm.trans hbuf') nofun
    · exact absurd (hbuf.symm.trans hbuf') nofun

/-- Two writes to the same memory. -/
theorem Touches.trans {memory : Nat → Caller} {j k : Nat} (ht : Touches o i n o'.memory)
    (hbuf : o'.d.buf = o.d.buf) (ht' : Touches o' j k memory) {lo : Nat} {len : Nat}
    (hi : lo ≤ i ∧ i + n ≤ lo + len) (hj : lo ≤ j ∧ j + k ≤ lo + len) :
    Touches o lo len memory := by
  rcases ht' with hmemory' | ⟨m, f, hm, hmemory', hf⟩
  · rcases ht with hmemory | ⟨m, f, hm, hmemory, hf⟩
    · exact .inl (hmemory'.trans hmemory)
    · exact .inr ⟨m, f, hm, hmemory'.trans hmemory, fun l hl => hf l (by omega)⟩
  · rw [hbuf] at hm
    rcases ht with hmemory | ⟨m', g, hm', hmemory, hg⟩
    · refine .inr ⟨m, f, hm, ?_, fun l hl => ?_⟩
      · rw [hmemory', hmemory]
      · rw [hf l (by omega), hmemory]
    · obtain rfl : m = m' := Buf.caller.inj (hm.symm.trans hm')
      refine .inr ⟨m, f, hm, ?_, fun l hl => ?_⟩
      · rw [hmemory', hmemory, Function.update_self, Function.update_idem]
      · rw [hf l (by omega), hmemory, Function.update_self]
        exact hg l (by omega)

theorem write_of_not_mem {k : Nat} (f : Nat → UInt8) (h : k < i ∨ i + data.length ≤ k) :
    write f i data k = f k := by
  rw [write]
  split
  · rfl
  · rw [List.getD_eq_default]
    omega

theorem Good.put (h : Good o) (hle : i + data.length ≤ o.room) : Ends (o.put i data) fun o' =>
    Good o' ∧ Touches o i data.length o'.memory ∧ o'.d.offset = o.d.offset ∧
      o'.d.size = o.d.size ∧ o'.d.capacity = o.d.capacity ∧ o'.room = o.room ∧
      o'.d.externalStorage = o.d.externalStorage ∧
      (o.d.externalStorage = true → o'.d.buf = o.d.buf) ∧ o'.bytes = write o.bytes i data := by
  have hmemory : Touches o i data.length (o.store (write o.bytes i data)).memory ∧
      (o.d.externalStorage = true → (o.store (write o.bytes i data)).d.buf = o.d.buf) := by
    rcases h.kind with howned | ⟨hext, m, hbuf⟩
    · exact ⟨.inl howned.store.2, fun hext => absurd (howned.1.symm.trans hext) Bool.false_ne_true⟩
    · rw [Obj.store, hbuf]
      refine ⟨.inr ⟨m, _, hbuf, rfl, fun k hk => ?_⟩, fun _ => hbuf⟩
      rw [write_of_not_mem _ hk, Obj.bytes, hbuf]
  rw [put_of_le hle]
  exact ⟨h.store, hmemory.1, offset_store, size_store, capacity_store, room_store,
    externalStorage_store, hmemory.2, bytes_store⟩

/-- What `rresize` leaves: the last bytes. -/
structure RResized (o : Obj) (newSize : Nat) (o' : Obj) : Prop where
  good : Good o'
  external : o'.d.externalStorage = o.d.externalStorage
  size : o'.d.size = newSize
  touches : Touches o (newSize - o.d.size) o.d.size o'.memory
  lent : o.d.externalStorage = true → o'.d.buf = o.d.buf ∧ o'.d.capacity = o.d.capacity ∧
    o'.d.offset = o.d.offset + o.d.size - newSize ∧
    (newSize ≤ o.d.offset + o.d.size → o'.memory = o.memory)
  kept : read o'.bytes (o'.d.offset + (newSize - o.d.size)) (min newSize o.d.size) =
    o.content.drop (o.d.size - newSize)

/-- Data is moved to make place for bytes before it. -/
theorem Good.shift (h : Good o) {size : Nat} (hsize : o.d.offset + o.d.size < size) (hcap : size ≤ o.d.capacity)
    (hle : size ≤ o.room) :
    Ends (o.shift (size - o.d.size)) fun o' => RResized o size { o' with d.size := size } := by
  have hlength : o.content.length = o.d.size := length_read _ _ _
  have hin : size - o.d.size + o.content.length ≤ o.room := by omega
  rw [Obj.shift, h.get]
  refine (h.put hin).bind ?_
  rintro o' ⟨hgood, htouches, hoffset, hsize', hcapacity, hroom, hext, hbuf, hbytes⟩
  rw [hlength] at htouches
  have hcap' : 0 + size ≤ o'.d.capacity := by omega
  have hroom' : 0 + size ≤ o'.room := by omega
  refine ⟨hgood.setSize hcap' hroom', hext, rfl, htouches, fun hlent =>
    ⟨hbuf hlent, hcapacity, (Nat.sub_eq_zero_of_le hsize.le).symm, fun hle =>
      absurd hsize hle.not_gt⟩, ?_⟩
  have hle : o.d.size ≤ size := (Nat.le_add_left _ _).trans hsize.le
  rw [Nat.min_eq_right hle, Nat.sub_eq_zero_of_le hle, List.drop_zero]
  show read o'.bytes (0 + (size - o.d.size)) o.d.size = o.content
  rw [Nat.zero_add, hbytes, ← hlength]
  exact read_write _ _ _

/-- `rresize` makes room before the data in a new buffer. -/
theorem Good.reserve_front (h : Good o) (hext : o.d.externalStorage = false) {size : Nat}
    (hsize : o.d.size ≤ size) (hlt : size < 2 ^ 64) (hcap : o.d.capacity < size) :
    Ends (o.reserve blocks fresh size true 0 true false) fun o' => ∃ capacity offset,
      offset + o.d.size ≤ capacity ∧ Rebuffered o capacity offset (size - o.d.size) o' := by
  have hcapacity : size ≤ o.newCapacity blocks size := (h.owned hext).le_newCapacity _
  obtain ⟨new, hnew⟩ : ∃ new, o.newOffset size (o.newCapacity blocks size) true true = new :=
    ⟨_, rfl⟩
  have hadd := h.newOffset_add_le hsize hcapacity true true
  have hsnd := newOffset_snd o size (o.newCapacity blocks size) true true
  have hshift : (o.newOffset size (o.newCapacity blocks size) true true).2 = size - o.d.size := by
    rw [Obj.newOffset, if_pos rfl, if_pos (hcap.trans_le hcapacity)]
    rfl
  rw [hnew] at hadd hsnd hshift
  have hle : new.2 ≤ Obj.limit 0 false new.1 := hsnd.1.trans_eq (limit_zero _).symm
  refine (h.reserve_owned hext hsize (if_pos rfl) hcap.ne' hsize hlt hnew
    (fun _ => .inr (limit_zero _)) hle).mono fun o' ho' => ?_
  rw [limit_zero, hshift] at ho'
  exact ⟨_, _, hadd, ho'⟩

theorem Good.rresize (h : Good o) {size : Nat} (hlt : size < 2 ^ 64)
    (hregular : o.d.externalStorage = true → size ≤ o.d.offset + o.d.size ∨ o.d.capacity < size ∨
      size ≤ o.room) : Ends (o.rresize blocks fresh size) (RResized o size) := by
  have hbound := h.le_capacity
  have hroom := h.le_room
  rw [Obj.rresize]
  split
  case isTrue heq =>
    refine ⟨h, rfl, heq.symm, .inl rfl, fun _ => ⟨rfl, rfl, by omega, fun _ => rfl⟩, ?_⟩
    rw [heq, Nat.sub_self, Nat.min_self]
    rfl
  case isFalse hne =>
    split
    case isTrue hcap =>
      cases hext : o.d.externalStorage with
      | true =>
        rw [Obj.reserve, hext, if_neg (by rw [not_and]; exact fun _ => hcap.not_ge), if_pos rfl]
        rfl
      | false =>
        refine (h.reserve_front hext (by omega) hlt hcap).bind ?_
        rintro o' ⟨capacity, offset, hle, ho'⟩
        have hoffset := ho'.offset
        have hcapacity := ho'.capacity
        have hroom' := ho'.good.room_eq ho'.external
        refine ⟨ho'.good.setSize (by omega) (by omega), ho'.external.trans hext.symm, rfl,
          .inl ho'.memory, fun hlent => absurd (hext.symm.trans hlent) Bool.false_ne_true, ?_⟩
        have hzero : o.d.size - size = 0 := by omega
        rw [Nat.min_eq_right (by omega), hzero, List.drop_zero, ← ho'.content, ← hoffset]
        rfl
    case isFalse hcap =>
      split
      case isTrue hgrow =>
        split
        case isTrue hdiff =>
          have hle : o.d.offset - (size - o.d.size) + size = o.d.offset + o.d.size := by omega
          refine ⟨h.setSize (hle.trans_le hbound) (hle.trans_le hroom), rfl, rfl, .inl rfl,
            fun _ => ⟨rfl, rfl, Nat.eq_sub_of_add_eq hle, fun _ => rfl⟩, ?_⟩
          rw [Nat.min_eq_right hgrow.le, Nat.sub_eq_zero_of_le hgrow.le, List.drop_zero]
          show read o.bytes (o.d.offset - (size - o.d.size) + (size - o.d.size)) _ = _
          rw [Nat.sub_add_cancel hdiff]
          rfl
        case isFalse hdiff =>
          have hle : size ≤ o.room := by
            cases hext : o.d.externalStorage with
            | true =>
              rcases hregular hext with hle | hlt | hle
              · omega
              · exact absurd hlt hcap
              · exact hle
            | false => exact (not_lt.mp hcap).trans_eq (h.room_eq hext).symm
          exact (h.shift (by omega) (not_lt.mp hcap) hle).bind fun o' ho' => ho'
      case isFalse hgrow =>
        have hle : o.d.offset + (o.d.size - size) + size = o.d.offset + o.d.size := by omega
        refine ⟨h.setSize (hle.trans_le hbound) (hle.trans_le hroom), rfl, rfl, .inl rfl,
          fun _ => ⟨rfl, rfl, Nat.eq_sub_of_add_eq hle, fun _ => rfl⟩, ?_⟩
        have hzero : size - o.d.size = 0 := by omega
        rw [Nat.min_eq_left (by omega), hzero, Nat.add_zero, Obj.content, drop_read (by omega),
          Nat.sub_sub_self (by omega)]
        rfl

theorem RResized.grownFront (h : RResized o n o') : GrownFront n o.content o'.content := by
  have hlength : o.content.length = o.d.size := length_read _ _ _
  refine ⟨read o'.bytes o'.d.offset (n - o.d.size), ?_, ?_⟩
  · rw [length_read, hlength]
  · have hadd : n - o.d.size + min n o.d.size = n := by omega
    rw [hlength, ← h.kept, ← read_add, hadd, Obj.content, h.size]

theorem Good.right (h : Good o) (size : Nat) : Ends (o.right blocks fresh size)
    (Does o (o.content.drop (o.content.length - size))) := by
  have hlength : o.content.length = o.d.size := length_read _ _ _
  have hbound := h.le_capacity
  have hcap := h.capacity_lt
  rw [Obj.right, hlength]
  split
  case isTrue hle =>
    refine ⟨h, rfl, ?_⟩
    rw [Nat.sub_eq_zero_of_le hle]
    rfl
  case isFalse hlt =>
    refine (h.rresize (by omega) fun _ => .inl (by omega)).mono fun o' ho' => ?_
    have hmemory : o'.memory = o.memory := by
      cases hext : o.d.externalStorage with
      | true => exact (ho'.lent hext).2.2.2 (by omega)
      | false => exact ho'.touches.owned h hext
    have hkept := ho'.kept
    rw [Nat.sub_eq_zero_of_le (by omega), Nat.min_eq_left (by omega)] at hkept
    refine ⟨ho'.good, hmemory, ?_⟩
    rw [Obj.content, ho'.size, ← hkept]
    rfl

theorem Good.prepend (h : Good o) (hlt : o.d.size + data.length < 2 ^ 64)
    (hregular : o.d.externalStorage = true → data = [] ∨
      o.d.capacity < o.d.size + data.length ∨ o.d.size + data.length ≤ o.room) :
    Ends (o.prepend blocks fresh data) fun o' => Good o' ∧ o'.content = data ++ o.content ∧
      (o.d.externalStorage = true → o.d.size + data.length ≤ o.d.capacity) ∧
      Touches o (o.front data.length).1 (o.front data.length).2 o'.memory := by
  have hbound := h.le_capacity
  refine (h.rresize hlt fun hext => ?_).bind fun o' ho' => ?_
  · rcases hregular hext with rfl | hcap
    · exact .inl (Nat.le_add_left _ _)
    · exact .inr hcap
  have hsub : o.d.size + data.length - o.d.size = data.length := Nat.add_sub_cancel_left _ _
  have hkept := ho'.kept
  have htouches := ho'.touches
  rw [hsub] at hkept htouches
  rw [Nat.min_eq_right (Nat.le_add_right _ _), Nat.sub_eq_zero_of_le (Nat.le_add_right _ _),
    List.drop_zero] at hkept
  have hroom := ho'.good.le_room
  rw [ho'.size] at hroom
  have hin : o'.d.offset + data.length ≤ o'.room := by omega
  refine (ho'.good.put hin).mono ?_
  rintro o'' ⟨hgood, htouches', hoffset, hsize, -, -, -, -, hbytes⟩
  refine ⟨hgood, ?_, fun hext => ?_, ?_⟩
  · rw [Obj.content, hoffset, hsize, ho'.size, Nat.add_comm o.d.size, read_add, hbytes, read_write,
      read_write_of_disjoint (.inr (Nat.le_refl _)), hkept]
  · have hcapacity := ho'.good.le_capacity
    rw [ho'.size, (ho'.lent hext).2.1] at hcapacity
    exact (Nat.le_add_left _ _).trans hcapacity
  · cases hext : o.d.externalStorage with
    | false =>
      have hmemory : o''.memory = o.memory :=
        (htouches'.owned ho'.good (ho'.external.trans hext)).trans (htouches.owned h hext)
      exact .inl hmemory
    | true =>
      obtain ⟨hbuf, -, hplace, hmemory⟩ := ho'.lent hext
      rw [Obj.front]
      split
      case isTrue hle =>
        have hsame : Touches o (o.d.offset - data.length) 0 o'.memory := .inl (hmemory (by omega))
        exact hsame.trans hbuf htouches' ⟨Nat.le_refl _, Nat.le_add_right _ _⟩ (by omega)
      case isFalse hgt =>
        exact htouches.trans hbuf htouches' (by omega) (by omega)

/-! ### Operations that take another buffer -/

/-- An array after `reset`. -/
def emptied (o : Obj) : Obj :=
  { o with
    d.externalStorage := false, d.buf := .preallocated, d.size := 0, d.offset := 0
    d.capacity := preallocatedSize }

theorem Good.reset (h : Good o) : o.reset = .ok (emptied o) := by
  have hfree : o.freeBuffer = .ok () := by
    rcases h.kind with howned | ⟨hext, -⟩
    · exact howned.freeBuffer
    · rw [Obj.freeBuffer, if_pos hext]
  rw [Obj.reset, hfree]
  rfl

theorem good_emptied (o : Obj) : Good (emptied o) where
  kind := .inl ⟨rfl, .inl ⟨rfl, rfl⟩⟩
  le_capacity := Nat.zero_le _
  le_room := Nat.zero_le _
  capacity_lt := show preallocatedSize < 2 ^ 64 by decide

theorem Good.clear (h : Good o) : Does o [] o.clear :=
  ⟨h.setSize ((Nat.le_add_right _ _).trans h.le_capacity) ((Nat.le_add_right _ _).trans h.le_room),
    rfl, rfl⟩

theorem Good.loadInline (h : Good o) {m : Nat} {const : Bool}
    (hregular : const = true → (o.memory m).length ≤ preallocatedSize) :
    Ends (o.loadInline m const)
      (Does o (read (o.memory m).bytes 0 (o.memory m).length)) := by
  rw [Obj.loadInline, h.reset]
  refine ⟨⟨.inr ⟨rfl, m, rfl⟩, ?_, (Nat.zero_add _).le, ?_⟩, rfl, rfl⟩
  · show 0 + (o.memory m).length ≤ if const then preallocatedSize else (o.memory m).length
    rw [Nat.zero_add]
    split
    case isTrue hconst => exact hregular hconst
    case isFalse => exact Nat.le_refl _
  · show (if const then preallocatedSize else (o.memory m).length) < 2 ^ 64
    split
    · decide
    · exact (o.memory m).length_lt

variable {other : BufCtrl}

theorem Good.copy (h : Good o) (hother : Good ⟨other, o.memory⟩)
    (hregular : other.externalStorage = true → other.offset = 0 ∨ other.size = 0) :
    Ends (o.copy blocks fresh other) (Does o (Obj.content ⟨other, o.memory⟩)) := by
  have hbound : other.offset + other.size ≤ other.capacity := hother.le_capacity
  have hroom := hother.le_room
  have hlt : other.capacity < 2 ^ 64 := hother.capacity_lt
  rw [Obj.copy, h.reset]
  show Ends (if _ then _ else _) _
  split
  case isTrue hext =>
    obtain ⟨-, m, hbuf⟩ := hother.lent hext
    have hbuf : other.buf = .caller m := hbuf
    refine ⟨⟨.inr ⟨rfl, m, hbuf⟩, ?_, ?_, hlt⟩, rfl, ?_⟩
    · exact (Nat.add_le_add_right (Nat.zero_le other.offset) _).trans hbound
    · refine ((Nat.add_le_add_right (Nat.zero_le other.offset) _).trans hroom).trans_eq ?_
      simp only [Obj.room, hbuf, emptied]
    · show read _ 0 other.size = read _ other.offset other.size
      rcases hregular hext with hoffset | hsize
      · rw [hoffset]
        simp only [Obj.bytes, hbuf, emptied]
      · rw [hsize]
        rfl
  case isFalse hext =>
    have hget : Obj.get other.offset other.size ⟨other, (emptied o).memory⟩ =
      .ok (Obj.content ⟨other, o.memory⟩) := hother.get
    rw [hget]
    have hlength : (Obj.content ⟨other, o.memory⟩).length = other.size := length_read _ _ _
    refine ((good_emptied o).load ?_ (fun hext => absurd hext Bool.false_ne_true)).mono ?_
    · rw [hlength]
      show 0 + other.size < 2 ^ 64
      omega
    · exact fun o' ho' => ⟨ho'.good, ho'.memory, ho'.content⟩

theorem Good.move (h : Good o) (hother : Good ⟨other, o.memory⟩)
    (hregular : other.externalStorage = false → other.capacity ≤ preallocatedSize →
      other.offset = 0 ∨ other.size = 0) :
    Ends (o.move other) (Does o (Obj.content ⟨other, o.memory⟩)) := by
  have hbound : other.offset + other.size ≤ other.capacity := hother.le_capacity
  rw [Obj.move, h.reset]
  show Ends ((if _ then _ else _) >>= _) _
  rcases hother.kind with ⟨hext, ⟨hbuf, hcap⟩ | ⟨f, hbuf, hlt⟩⟩ | ⟨hext, m, hbuf⟩
  · have hext : other.externalStorage = false := hext
    have hcap : other.capacity = preallocatedSize := hcap
    have hlength : (read other.preallocated 0 other.size).length = other.size := length_read _ _ _
    have hget : Obj.get 0 other.size ⟨{ other with buf := .preallocated }, (emptied o).memory⟩ =
        .ok (read other.preallocated 0 other.size) :=
      if_pos (.inr (show 0 + other.size ≤ preallocatedSize by omega))
    have hput : (emptied o).put 0 (read other.preallocated 0 other.size) =
        .ok ((emptied o).store
          (write o.d.preallocated 0 (read other.preallocated 0 other.size))) :=
      if_pos (.inr (show 0 + (read other.preallocated 0 other.size).length ≤ preallocatedSize by
        omega))
    rw [if_neg (by rw [hext, hcap]; exact not_or.mpr ⟨Nat.lt_irrefl _, Bool.false_ne_true⟩), hget]
    show Ends ((emptied o).put 0 _ >>= _) _
    rw [hput]
    refine ⟨⟨.inl ⟨hext, .inl ⟨rfl, hcap⟩⟩, hbound, hbound.trans_eq hcap, hother.capacity_lt⟩, rfl, ?_⟩
    show read (write o.d.preallocated 0 (read other.preallocated 0 other.size)) other.offset
      other.size = read (Obj.bytes ⟨other, o.memory⟩) other.offset other.size
    rcases hregular hext hcap.le with hoffset | hsize
    · have hwrite := read_write o.d.preallocated 0 (read other.preallocated 0 other.size)
      rw [hlength] at hwrite
      have hbuf : other.buf = .preallocated := hbuf
      rw [hoffset, hwrite, Obj.bytes, hbuf]
    · rw [hsize]
      rfl
  · rw [if_pos (.inl hlt)]
    have hbuf : other.buf = .heap other.capacity f := hbuf
    refine ⟨⟨.inl ⟨hext, .inr ⟨f, hbuf, hlt⟩⟩, hbound, hother.le_room, hother.capacity_lt⟩, rfl, ?_⟩
    simp only [Obj.content, Obj.bytes, hbuf]
  · rw [if_pos (.inr hext)]
    have hbuf : other.buf = .caller m := hbuf
    refine ⟨⟨.inr ⟨hext, m, hbuf⟩, hbound, hother.le_room, hother.capacity_lt⟩, rfl, ?_⟩
    simp only [Obj.content, Obj.bytes, hbuf, emptied]

/-! ### All arrays -/

variable {s : State} {ref : Nat → List UInt8} {a b : Nat} {l : List UInt8}

def AllGood (s : State) (ref : Nat → List UInt8) : Prop :=
  ∀ a, Good (s.obj a) ∧ (s.obj a).content = ref a

theorem obj_set_self (s : State) (a : Nat) (o : Obj) : (s.set a o).obj a = o := by
  show Obj.mk (Function.update s.arrays a o.d a) o.memory = o
  rw [Function.update_self]

theorem obj_set_of_ne (h : b ≠ a) (o : Obj) :
    (s.set a o).obj b = ⟨s.arrays b, o.memory⟩ := by
  show Obj.mk (Function.update s.arrays a o.d b) o.memory = _
  rw [Function.update_of_ne h]

/-- An array is as it was when nothing is written where its bytes are. -/
theorem Touches.frame {memory : Nat → Caller} (ht : Touches (s.obj a) i n memory)
    (hapart : s.Apart a i n) (hne : b ≠ a) (h : Good (s.obj b)) :
    Good ⟨s.arrays b, memory⟩ ∧ Obj.content ⟨s.arrays b, memory⟩ = (s.obj b).content := by
  rcases ht with rfl | ⟨m, f, hm, rfl, hf⟩
  · exact ⟨h, rfl⟩
  · have hlength : ∀ k, (Function.update (s.obj a).memory m
        { (s.obj a).memory m with bytes := f } k).length = (s.memory k).length := by
      intro k
      by_cases hk : k = m
      · rw [hk, Function.update_self]
        rfl
      · rw [Function.update_of_ne hk]
        rfl
    have hroom : Obj.room ⟨s.arrays b, Function.update (s.obj a).memory m
        { (s.obj a).memory m with bytes := f }⟩ = (s.obj b).room := by
      unfold Obj.room State.obj
      dsimp only
      split
      · rfl
      · rfl
      · exact hlength _
    refine ⟨⟨h.kind, h.le_capacity, h.le_room.trans_eq hroom.symm, h.capacity_lt⟩, ?_⟩
    refine read_congr fun k hk => ?_
    have hk : k < (s.arrays b).size := hk
    cases hbuf : (s.arrays b).buf with
    | preallocated => simp only [Obj.bytes, State.obj, hbuf]
    | heap length g => simp only [Obj.bytes, State.obj, hbuf]
    | caller m' =>
      simp only [Obj.bytes, State.obj, hbuf]
      by_cases hmm : m' = m
      · subst hmm
        rw [Function.update_self]
        have hdisjoint := hapart.2 m' hm b hne hbuf
        exact hf _ (by omega)
      · rw [Function.update_of_ne hmm]

theorem AllGood.touch (h : AllGood s ref) {o : Obj} (ho : Good o) (hl : o.content = l)
    (ht : Touches (s.obj a) i n o.memory) (hapart : o.memory = s.memory ∨ s.Apart a i n) :
    AllGood (s.set a o) (Function.update ref a l) := by
  intro b
  by_cases hb : b = a
  · rw [hb, obj_set_self, Function.update_self]
    exact ⟨ho, hl⟩
  · rw [obj_set_of_ne hb, Function.update_of_ne hb]
    rcases hapart with hmemory | hapart
    · rw [hmemory]
      exact h b
    · obtain ⟨hgood, hcontent⟩ := ht.frame hapart hb (h b).1
      exact ⟨hgood, hcontent.trans (h b).2⟩

theorem AllGood.set (h : AllGood s ref) {o : Obj} (ho : Does (s.obj a) l o) :
    AllGood (s.set a o) (Function.update ref a l) :=
  h.touch (i := 0) (n := 0) ho.good ho.content (.inl ho.memory) (.inl ho.memory)

/-- A step of an operation on one array, by what it does to it. -/
theorem Ends.run {x : Except Fault Obj} {P : Obj → Prop} {Q : State → Prop} (hx : Ends x P)
    (h : ∀ o, P o → Q (s.set a o)) : Ends (s.set a <$> x) Q := by
  cases x with
  | error fault => exact hx
  | ok o => exact h o hx

/-- What a step comes to, if it does not fail. -/
def Steps (s : State) (ref : Nat → List UInt8) (op : Op) (t : State) : Prop :=
  (op.reads → t.memory = s.memory) ∧ ∃ ref', op.Means s.memory ref ref' ∧ AllGood t ref'

theorem Ends.steps {x : Except Fault Obj} {op : Op} (hx : Ends x (Does (s.obj a) l))
    (h : AllGood s ref) (hop : op.Means s.memory ref (Function.update ref a l)) :
    Ends (s.set a <$> x) (Steps s ref op) :=
  hx.run fun _ ho => ⟨fun _ => ho.memory, _, hop, h.set ho⟩

/-- An operation that leaves the content. -/
theorem Ends.steps_same {x : Except Fault Obj} {op : Op}
    (hx : Ends x (Does (s.obj a) (s.obj a).content)) (h : AllGood s ref)
    (hop : op.Means s.memory ref ref) : Ends (s.set a <$> x) (Steps s ref op) := by
  refine hx.steps h ?_
  rw [(h a).2, Function.update_eq_self]
  exact hop

theorem AllGood.rresize (h : AllGood s ref) {size : Nat}
    (hregular : s.Regular blocks (.rresize a size)) :
    Ends (s.run blocks fresh (.rresize a size)) (Steps s ref (.rresize a size)) := by
  obtain ⟨hlt, hregular⟩ := hregular
  have hspec : Ends ((s.obj a).rresize blocks fresh size) (RResized (s.obj a) size) := by
    refine (h a).1.rresize hlt fun hext => ?_
    rcases hregular hext with hle | hcap | hapart
    · exact .inl hle
    · exact .inr (.inl hcap)
    · exact .inr (.inr (Nat.le_trans (by omega) hapart.1))
  refine hspec.run fun o ho => ⟨False.elim, _, .rresize a size o.content ?_, ?_⟩
  · rw [← (h a).2]
    exact ho.grownFront
  · refine h.touch ho.good rfl ho.touches ?_
    cases hext : (s.obj a).d.externalStorage with
    | false => exact .inl (ho.touches.owned (h a).1 hext)
    | true =>
      obtain ⟨-, hcapacity, -, hmemory⟩ := ho.lent hext
      rcases hregular hext with hle | hcap | hapart
      · exact .inl (hmemory hle)
      · have hbound := ho.good.le_capacity
        rw [ho.size, hcapacity] at hbound
        exact absurd hcap ((Nat.le_add_left _ _).trans hbound).not_gt
      · exact .inr hapart

theorem AllGood.prepend (h : AllGood s ref) {data : List UInt8}
    (hregular : s.Regular blocks (.prepend a data)) :
    Ends (s.run blocks fresh (.prepend a data)) (Steps s ref (.prepend a data)) := by
  obtain ⟨hlt, hregular⟩ := hregular
  have hroom : (s.arrays a).offset + (s.arrays a).size ≤ (s.obj a).room := (h a).1.le_room
  refine ((h a).1.prepend hlt fun hext => ?_).run fun o ho => ?_
  · rcases hregular hext with hnil | hcap | hapart
    · exact .inl hnil
    · exact .inr (.inl hcap)
    · have hle := hapart.1
      refine .inr (.inr ?_)
      show (s.arrays a).size + data.length ≤ _
      rw [Obj.front] at hle
      split at hle
      case isTrue hin =>
        have hin : data.length ≤ (s.arrays a).offset := hin
        omega
      case isFalse =>
        have hle : 0 + (data.length + (s.arrays a).size) ≤ (s.obj a).room := hle
        omega
  · obtain ⟨hgood, hcontent, hcapacity, htouches⟩ := ho
    rw [(h a).2] at hcontent
    refine ⟨False.elim, _, .prepend a data, h.touch hgood hcontent htouches ?_⟩
    cases hext : (s.obj a).d.externalStorage with
    | false => exact .inl (htouches.owned (h a).1 hext)
    | true =>
      rcases hregular hext with rfl | hcap | hapart
      · rw [List.length_nil, Obj.front, if_pos (Nat.zero_le _)]
        exact .inr ⟨(Nat.le_add_right _ _).trans hroom, fun _ _ _ _ _ => .inl rfl⟩
      · exact absurd hcap (hcapacity hext).not_gt
      · exact .inr hapart

theorem AllGood.move (h : AllGood s ref) (hregular : s.Regular blocks (.move a b)) :
    Ends (s.run blocks fresh (.move a b)) (Steps s ref (.move a b)) := by
  rw [State.run]
  split
  case isTrue hab =>
    subst hab
    exact ⟨False.elim, ref, .moveSelf a, h⟩
  case isFalse hab =>
    have hmove : Ends ((s.obj a).move (s.arrays b)) (Does (s.obj a) (ref b)) := by
      rw [← (h b).2]
      exact (h a).1.move (h b).1 (hregular hab)
    have hmoved : AllGood { s with arrays := Function.update s.arrays b (s.arrays b).moved }
        (Function.update ref b []) := by
      intro c
      by_cases hc : c = b
      · subst hc
        have hobj : State.obj { s with arrays := Function.update s.arrays c (s.arrays c).moved } c =
            emptied (s.obj c) := by
          show Obj.mk (Function.update s.arrays c (s.arrays c).moved c) s.memory = _
          rw [Function.update_self]
          rfl
        rw [hobj, Function.update_self]
        exact ⟨good_emptied _, rfl⟩
      · have hobj : State.obj { s with arrays := Function.update s.arrays b (s.arrays b).moved } c =
            s.obj c := by
          show Obj.mk (Function.update s.arrays b (s.arrays b).moved c) s.memory = _
          rw [Function.update_of_ne hc]
          rfl
        rw [hobj, Function.update_of_ne hc]
        exact h c
    cases hx : (s.obj a).move (s.arrays b) with
    | error fault =>
      rw [hx] at hmove
      exact hmove
    | ok o =>
      rw [hx] at hmove
      have ho : Does (s.obj a) (ref b) o := hmove
      refine ⟨False.elim, _, .move a b hab, hmoved.set ⟨ho.good, ?_, ho.content⟩⟩
      exact ho.memory

theorem AllGood.step (h : AllGood s ref) {op : Op} (hregular : s.Regular blocks op) :
    Ends (s.run blocks fresh op) (Steps s ref op) := by
  cases op with
  | load a data => exact ((h a).1.load hregular.1 hregular.2).steps h (.load a data)
  | loadInline a m const => exact ((h a).1.loadInline hregular).steps h (.loadInline a m const)
  | append a data =>
    refine ((h a).1.append hregular.1 hregular.2).steps h ?_
    rw [(h a).2]
    exact .append a data
  | appendSelf a =>
    refine ((h a).1.appendSelf hregular.1 hregular.2).steps h ?_
    rw [(h a).2]
    exact .appendSelf a
  | prepend a data => exact h.prepend hregular
  | resize a size =>
    refine ((h a).1.resize hregular.1 hregular.2).run fun o ho => ?_
    refine ⟨False.elim, _, .resize a size o.content ?_, h.set ⟨ho.good, ho.memory, rfl⟩⟩
    rw [← (h a).2]
    exact ho.grown
  | rresize a size => exact h.rresize hregular
  | reserve a capacity reverse maxOffset shiftRData forceZeroOffset =>
    refine Ends.steps_same (((h a).1.reserve hregular).mono fun o ho => ?_) h (.reserve ..)
    exact ⟨ho.1, ho.2.1, ho.2.2⟩
  | shrink a =>
    refine Ends.steps_same (((h a).1.reserve fun hext _ => hregular hext).mono fun o ho => ?_) h
      (.shrink a)
    exact ⟨ho.1, ho.2.1, ho.2.2⟩
  | left a size =>
    refine ((h a).1.left size).steps h ?_
    rw [(h a).2]
    exact .left a size
  | right a size =>
    refine ((h a).1.right size).steps h ?_
    rw [(h a).2]
    exact .right a size
  | clear a => exact ⟨False.elim, _, .clear a, h.set (h a).1.clear⟩
  | reset a =>
    show Ends (s.set a <$> (s.obj a).reset) _
    rw [(h a).1.reset]
    exact ⟨False.elim, _, .reset a, h.set ⟨good_emptied _, rfl, rfl⟩⟩
  | copy a b =>
    by_cases hab : a = b
    · subst hab
      rw [State.run, if_pos rfl]
      refine ⟨False.elim, _, .copy a a, ?_⟩
      rw [Function.update_eq_self]
      exact h
    · rw [State.run, if_neg hab]
      refine ((h a).1.copy (h b).1 (hregular hab)).steps h ?_
      have hcontent : Obj.content ⟨s.arrays b, (s.obj a).memory⟩ = ref b := (h b).2
      rw [hcontent]
      exact .copy a b
  | move a b => exact h.move hregular

theorem AllGood.keptRun {ops : List (Op × (Nat → UInt8))} : ∀ {s : State}
    {ref : Nat → List UInt8}, AllGood s ref → RegularRun blocks s ops →
      KeptRun blocks ref s ops := by
  have has : ∀ {s : State} {ref : Nat → List UInt8}, AllGood s ref → s.Has ref := by
    intro s ref h a
    rw [← (h a).2]
    exact (h a).1.has
  induction ops with
  | nil => exact fun h _ => has h
  | cons op ops ih =>
    obtain ⟨op, fresh⟩ := op
    rintro s ref h ⟨hregular, hrun⟩
    refine ⟨has h, ?_⟩
    have hstep : Ends (s.run blocks fresh op) (Steps s ref op) := h.step hregular
    cases ht : s.run blocks fresh op with
    | error fault =>
      rw [ht] at hstep
      exact hstep
    | ok t =>
      rw [ht] at hstep
      obtain ⟨hreads, ref', hmeans, hgood⟩ := hstep
      exact ⟨hreads, ref', hmeans, ih hgood (hrun t ht)⟩

/-- Arrays that are empty. -/
def State.start (preallocated : Nat → Nat → UInt8) (memory : Nat → Caller) : State :=
  ⟨fun a => ⟨preallocated a, 0, preallocatedSize, .preallocated, false, 0⟩, memory⟩

/-- **The arrays keep their bytes** in every run whose operations are regular. -/
theorem kept_of_regular (blocks : MemBlockSize) (preallocated : Nat → Nat → UInt8)
    (memory : Nat → Caller) (ops : List (Op × (Nat → UInt8)))
    (h : RegularRun blocks (.start preallocated memory) ops) :
    KeptRun blocks (fun _ => []) (.start preallocated memory) ops :=
  AllGood.keptRun (fun _ => ⟨good_emptied ⟨⟨_, 0, 0, .preallocated, false, 0⟩, memory⟩, rfl⟩) h

end

section Sample

def sampleBlocks : MemBlockSize := ⟨[], by decide⟩

def sampleMemory (_ : Nat) : Caller := ⟨0, fun _ => 0, by decide⟩

/-- Bytes are loaded and moved to another array. -/
def sampleOps : List (Op × (Nat → UInt8)) :=
  [(.load 0 [1, 2, 3], fun _ => 0), (.move 1 0, fun _ => 0)]

theorem kept_sampleOps : KeptRun sampleBlocks (fun _ => [])
    (.start (fun _ _ => 0) sampleMemory) sampleOps := by
  refine kept_of_regular _ _ _ _ ⟨⟨by decide, by decide⟩, fun t ht => ?_⟩
  cases ht
  exact ⟨fun _ _ _ => .inl rfl, fun t ht => trivial⟩

/-- **What is left of an array after `right` is not what is moved.** -/
theorem moved_bytes_lost : ¬ ∀ (blocks : MemBlockSize) (preallocated : Nat → Nat → UInt8)
    (memory : Nat → Caller) (ops : List (Op × (Nat → UInt8))),
    KeptRun blocks (fun _ => []) (.start preallocated memory) ops := by
  intro h
  obtain ⟨-, -, ref, hload, -, -, ref', hright, -, -, ref'', hmove, hkept⟩ :=
    h sampleBlocks (fun _ _ => 0) sampleMemory
      [(.load 0 [1, 2, 3], fun _ => 0), (.right 0 2, fun _ => 0), (.move 1 0, fun _ => 0)]
  cases hload
  cases hright
  cases hmove
  exact absurd (hkept 1).content (by decide +kernel)

end Sample

end Hatn.Common.ByteArray
