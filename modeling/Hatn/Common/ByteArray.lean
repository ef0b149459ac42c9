import Hatn.Memory.Span
import Mathlib.Algebra.Group.Nat.Defs
import Mathlib.Logic.Function.Basic

/-!
# Byte arrays

A byte array keeps its bytes in a buffer: one of 20 bytes that it has itself, one of the
heap that it owns, or memory of a caller.  The content is in the buffer from an offset on,
so that there is room at both ends.  Here are the operations as they go through the
buffers, with the ways they can go wrong: an assertion, a byte out of the bounds of a buffer,
and memory that is given to the allocator and is not from it.
-/

namespace Hatn.Common.ByteArray

open Memory

/-- `PREALLOCATED_SIZE` -/
def preallocatedSize : Nat := 20

/-- The difference of two `size_t`. -/
def minus (m n : Nat) : Nat := (2 ^ 64 + m - n) % 2 ^ 64

/-- `memBlockSize()`: the ranges of sizes, each with the size of its blocks at the end. -/
structure MemBlockSize where
  sizes : List (Nat × Nat)
  sizes_lt : ∀ range ∈ sizes, range.2 < 2 ^ 64

/-- `keyForSize(size).to` -/
def MemBlockSize.keyForSize (blocks : MemBlockSize) (size : Nat) : Nat :=
  match blocks.sizes.find? fun range => range.1 ≤ size ∧ size ≤ range.2 with
  | some range => range.2
  | none => size

/-- Memory of a caller. -/
structure Caller where
  length : Nat
  bytes : Nat → UInt8
  length_lt : length < 2 ^ 64

/-- Where `buf` points to; a caller's memory is named by a number. -/
inductive Buf
  | preallocated
  | heap (length : Nat) (bytes : Nat → UInt8)
  | caller (m : Nat)

/-- `BufCtrl` without the memory resource. -/
structure BufCtrl where
  preallocated : Nat → UInt8
  size : Nat
  capacity : Nat
  buf : Buf
  externalStorage : Bool
  offset : Nat

/-- How an operation fails. -/
inductive Fault
  /-- By `Assert`. -/
  | assertion
  /-- A byte is read or written that is not of the buffer. -/
  | outOfBounds
  /-- Memory is deallocated that was not allocated. -/
  | freed
  deriving DecidableEq

/-- An array, and the memory of the callers. -/
structure Obj where
  d : BufCtrl
  memory : Nat → Caller

namespace Obj

/-- The bytes that `buf` points to. -/
def bytes (o : Obj) : Nat → UInt8 :=
  match o.d.buf with
  | .preallocated => o.d.preallocated
  | .heap _ bytes => bytes
  | .caller m => (o.memory m).bytes

/-- How many bytes there are. -/
def room (o : Obj) : Nat :=
  match o.d.buf with
  | .preallocated => preallocatedSize
  | .heap length _ => length
  | .caller m => (o.memory m).length

/-- What is seen with `data` and `size`. -/
def content (o : Obj) : List UInt8 := read o.bytes o.d.offset o.d.size

def store (f : Nat → UInt8) (o : Obj) : Obj :=
  match o.d.buf with
  | .preallocated => { o with d.preallocated := f }
  | .heap length _ => { o with d.buf := .heap length f }
  | .caller m => { o with memory := Function.update o.memory m { o.memory m with bytes := f } }

/-- `std::copy` from the buffer. -/
def get (i n : Nat) (o : Obj) : Except Fault (List UInt8) :=
  if n = 0 ∨ i + n ≤ o.room then .ok (read o.bytes i n) else .error .outOfBounds

/-- `std::copy` to the buffer. -/
def put (i : Nat) (data : List UInt8) (o : Obj) : Except Fault Obj :=
  if data = [] ∨ i + data.length ≤ o.room then .ok (o.store (write o.bytes i data))
  else .error .outOfBounds

def freeBuffer (o : Obj) : Except Fault Unit :=
  if o.d.externalStorage then .ok ()
  else if preallocatedSize < o.d.capacity then
    match o.d.buf with
    | .heap _ _ => .ok ()
    | .preallocated | .caller _ => .error .freed
  else .ok ()

/-- `reset`; it does not free memory of a caller. -/
def reset (o : Obj) : Except Fault Obj := do
  o.freeBuffer
  return { o with
    d.externalStorage := false, d.buf := .preallocated, d.size := 0, d.offset := 0
    d.capacity := preallocatedSize }

def clear (o : Obj) : Obj := { o with d.size := 0 }

def capacityForAppend (o : Obj) : Nat := minus (minus o.d.capacity o.d.size) o.d.offset

section
variable (blocks : MemBlockSize) (fresh : Nat → UInt8)

/-- The capacity of the buffer after `capacity` bytes are reserved. -/
def newCapacity (capacity : Nat) (o : Obj) : Nat :=
  if capacity ≤ preallocatedSize then
    if o.d.capacity ≤ preallocatedSize then o.d.capacity else preallocatedSize
  else blocks.keyForSize capacity

/-- The offset in the new buffer, and by how much it is less afterwards. -/
def newOffset (capacity newCapacity : Nat) (reverse shiftRData : Bool) (o : Obj) : Nat × Nat :=
  if reverse then
    if o.d.capacity < newCapacity then
      let newOffset := newCapacity - o.d.capacity + o.d.offset
      if shiftRData then
        let shiftOffsetLeft := capacity - o.d.size
        (if newOffset < shiftOffsetLeft then shiftOffsetLeft else newOffset, shiftOffsetLeft)
      else (newOffset, 0)
    else
      let diff := o.d.capacity - newCapacity
      (if o.d.offset ≤ diff then 0 else o.d.offset - diff, 0)
  else if newCapacity < o.d.capacity then
    let diff := o.d.capacity - newCapacity
    let padding := minus (minus o.d.capacity o.d.size) o.d.offset
    (if padding < diff then newCapacity - o.d.size else o.d.offset, 0)
  else (o.d.offset, 0)

/-- The data goes to a new buffer, which is the preallocated one or is filled with `fresh`. -/
def transfer (capacity newCapacity newOffset : Nat) (o : Obj) : Except Fault Obj := do
  let data ← o.get o.d.offset o.d.size
  o.freeBuffer
  let buf := if capacity ≤ preallocatedSize then .preallocated else .heap newCapacity fresh
  { o with d.buf := buf }.put newOffset data

/-- An offset, but not more than `maxOffset` if this is a limit. -/
def limit (maxOffset : Nat) (forceZeroOffset : Bool) (offset : Nat) : Nat :=
  if (forceZeroOffset ∨ maxOffset ≠ 0) ∧ maxOffset < offset then maxOffset else offset

def reserve (capacity : Nat) (reverse : Bool) (maxOffset : Nat) (shiftRData forceZeroOffset : Bool)
    (o : Obj) : Except Fault Obj :=
  if o.d.externalStorage ∧ capacity ≤ o.d.capacity then .ok o
  else if o.d.externalStorage then .error .assertion
  else if capacity < o.d.size then .ok o
  else
    let capacity := if reverse then capacity
      else (capacity + limit maxOffset forceZeroOffset o.d.offset) % 2 ^ 64
    if capacity = o.d.capacity then .ok o
    else
      let newCapacity := newCapacity blocks capacity o
      let (newOffset, shiftOffsetLeft) := newOffset capacity newCapacity reverse shiftRData o
      let newOffset := limit maxOffset forceZeroOffset newOffset
      do
        let o ← (if newCapacity = o.d.capacity then .ok o
          else transfer fresh capacity newCapacity newOffset o : Except Fault Obj)
        return { o with d.capacity := newCapacity, d.offset := minus newOffset shiftOffsetLeft }

def resize (size : Nat) (o : Obj) : Except Fault Obj :=
  if size = o.d.size then .ok o
  else do
    let o ← (if o.d.size < size ∧ o.capacityForAppend < size - o.d.size then
        reserve blocks fresh size false 0 false false o
      else .ok o : Except Fault Obj)
    return { o with d.size := size }

/-- Data is moved to the right by `diff` less the offset. -/
def shift (diff : Nat) (o : Obj) : Except Fault Obj := do
  let data ← o.get o.d.offset o.d.size
  let o ← o.put diff data
  return { o with d.offset := 0 }

def rresize (size : Nat) (o : Obj) : Except Fault Obj :=
  if size = o.d.size then .ok o
  else do
    let o ← (if o.d.capacity < size then reserve blocks fresh size true 0 true false o
      else if o.d.size < size then
        if size - o.d.size ≤ o.d.offset then
          .ok { o with d.offset := o.d.offset - (size - o.d.size) }
        else o.shift (size - o.d.size)
      else .ok { o with d.offset := o.d.offset + (o.d.size - size) } : Except Fault Obj)
    return { o with d.size := size }

def load (data : List UInt8) (o : Obj) : Except Fault Obj :=
  let o := { o with d.externalStorage := false }.clear
  if data = [] then .ok o
  else do
    let o ← resize blocks fresh data.length o
    o.put o.d.offset data

def append (data : List UInt8) (o : Obj) : Except Fault Obj := do
  let oldSize := o.d.size
  let o ← resize blocks fresh (oldSize + data.length) o
  o.put (oldSize + o.d.offset) data

/-- `append` of the array itself -/
def appendSelf (o : Obj) : Except Fault Obj := do
  let prevSize := o.d.size
  let o ← resize blocks fresh (prevSize * 2) o
  let data ← o.get o.d.offset prevSize
  o.put (o.d.offset + prevSize) data

def prepend (data : List UInt8) (o : Obj) : Except Fault Obj := do
  let o ← rresize blocks fresh (o.d.size + data.length) o
  o.put o.d.offset data

def right (size : Nat) (o : Obj) : Except Fault Obj :=
  if o.d.size ≤ size then .ok o else rresize blocks fresh size o

def left (size : Nat) (o : Obj) : Except Fault Obj :=
  if o.d.size ≤ size then .ok o else resize blocks fresh size o

def shrink (o : Obj) : Except Fault Obj := reserve blocks fresh o.d.size false 0 false true o

/-- `loadInline`; the one for `const` data leaves the capacity as it is after `reset`. -/
def loadInline (m : Nat) (const : Bool) (o : Obj) : Except Fault Obj := do
  let o ← o.reset
  let size := (o.memory m).length
  return { o with
    d.externalStorage := true, d.buf := .caller m, d.size := size
    d.capacity := if const then o.d.capacity else size }

/-- The copy constructor, and the assignment of another array. -/
def copy (other : BufCtrl) (o : Obj) : Except Fault Obj := do
  let o ← o.reset
  if other.externalStorage then
    return { o with
      d.externalStorage := true, d.capacity := other.capacity, d.size := other.size
      d.offset := 0, d.buf := other.buf }
  else
    let data ← Obj.get other.offset other.size ⟨other, o.memory⟩
    load blocks fresh data o

end

/-- The constructor and the assignment that move another array. -/
def move (other : BufCtrl) (o : Obj) : Except Fault Obj := do
  let o ← o.reset
  let o ← (if preallocatedSize < other.capacity ∨ other.externalStorage then
      .ok { o with d.buf := other.buf }
    else do
      let data ← Obj.get 0 other.size ⟨{ other with buf := .preallocated }, o.memory⟩
      o.put 0 data : Except Fault Obj)
  return { o with
    d.size := other.size, d.capacity := other.capacity
    d.externalStorage := other.externalStorage, d.offset := other.offset }

end Obj

/-- What is left of an array that was moved. -/
def BufCtrl.moved (d : BufCtrl) : BufCtrl :=
  { d with
    buf := .preallocated, size := 0, offset := 0, capacity := preallocatedSize
    externalStorage := false }

/-- The arrays of a program, and the memory of their callers. -/
structure State where
  arrays : Nat → BufCtrl
  memory : Nat → Caller

/-- The operations; `a` and `b` are arrays, and `m` is memory of a caller. -/
inductive Op
  | load (a : Nat) (data : List UInt8)
  | loadInline (a m : Nat) (const : Bool)
  | append (a : Nat) (data : List UInt8)
  | appendSelf (a : Nat)
  | prepend (a : Nat) (data : List UInt8)
  | resize (a size : Nat)
  | rresize (a size : Nat)
  | reserve (a capacity : Nat) (reverse : Bool) (maxOffset : Nat)
    (shiftRData forceZeroOffset : Bool)
  | shrink (a : Nat)
  | left (a size : Nat)
  | right (a size : Nat)
  | clear (a : Nat)
  | reset (a : Nat)
  | copy (a b : Nat)
  | move (a b : Nat)

namespace State

def obj (s : State) (a : Nat) : Obj := ⟨s.arrays a, s.memory⟩

def set (s : State) (a : Nat) (o : Obj) : State := ⟨Function.update s.arrays a o.d, o.memory⟩

section
variable (blocks : MemBlockSize) (fresh : Nat → UInt8)

/-- The array and the function of an operation on one array. -/
def run (s : State) : Op → Except Fault State
  | .load a data => s.set a <$> (s.obj a).load blocks fresh data
  | .loadInline a m const => s.set a <$> (s.obj a).loadInline m const
  | .append a data => s.set a <$> (s.obj a).append blocks fresh data
  | .appendSelf a => s.set a <$> (s.obj a).appendSelf blocks fresh
  | .prepend a data => s.set a <$> (s.obj a).prepend blocks fresh data
  | .resize a size => s.set a <$> (s.obj a).resize blocks fresh size
  | .rresize a size => s.set a <$> (s.obj a).rresize blocks fresh size
  | .reserve a capacity reverse maxOffset shiftRData forceZeroOffset => s.set a <$>
    (s.obj a).reserve blocks fresh capacity reverse maxOffset shiftRData forceZeroOffset
  | .shrink a => s.set a <$> (s.obj a).shrink blocks fresh
  | .left a size => s.set a <$> (s.obj a).left blocks fresh size
  | .right a size => s.set a <$> (s.obj a).right blocks fresh size
  | .clear a => .ok (s.set a (s.obj a).clear)
  | .reset a => s.set a <$> (s.obj a).reset
  | .copy a b =>
    if a = b then .ok s else s.set a <$> (s.obj a).copy blocks fresh (s.arrays b)
  | .move a b =>
    if a = b then .ok s
    else (fun o => ({ s with arrays := Function.update s.arrays b (s.arrays b).moved }).set a o) <$>
      (s.obj a).move (s.arrays b)

end

end State

end Hatn.Common.ByteArray
