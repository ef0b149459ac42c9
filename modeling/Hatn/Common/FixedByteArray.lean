import Hatn.Memory.Span
import Mathlib.Algebra.Group.Nat.Defs
import Mathlib.Logic.Function.Basic
import Mathlib.Order.Nat

/-!
# Byte arrays of fixed capacity

A fixed byte array has its bytes in a buffer of its own, which is one byte longer than the capacity,
and is for a string that is truncated to the capacity.  In the throwing variant what does not fit
throws, and is to change nothing.

Two operations miss this (`truncates_iff`).  An array that is appended to itself is resized first, up to
the capacity, and then all of it is copied behind itself.  A C string is appended char by char, so
that the chars that fit are there when it throws.
-/

namespace Hatn.Common

open Memory

namespace FixedByteArray

/-- The parameters of the template. -/
structure Shape where
  capacity : Nat
  throwOnOverflow : Bool
  capacity_lt : capacity < 2 ^ 63

/-- Data of a caller. -/
structure Data where
  bytes : List UInt8
  length_lt : bytes.length < 2 ^ 63

/-- How an operation ends; `outOfBounds` is a byte that is not of the buffer. -/
inductive Outcome (α : Type)
  | returned (a : α)
  | thrown (a : α)
  | outOfBounds

def Outcome.map {α β : Type} (f : α → β) : Outcome α → Outcome β
  | .returned a => .returned (f a)
  | .thrown a => .thrown (f a)
  | .outOfBounds => .outOfBounds

end FixedByteArray

open FixedByteArray

/-- `FixedByteArray` with storage of its own. -/
structure FixedByteArray where
  shape : Shape
  buf : Nat → UInt8
  size : Nat

namespace FixedByteArray

/-- What is seen with `data` and `size`. -/
def content (o : FixedByteArray) : List UInt8 := read o.buf 0 o.size

/-- `checkSize`: whether the size fits, and the size after it; nothing if it throws. -/
def checkSize (size : Nat) (o : FixedByteArray) : Option (Bool × Nat) :=
  if o.shape.capacity < size then
    if o.shape.throwOnOverflow then none else some (false, o.shape.capacity)
  else some (true, size)

/-- `std::copy` to the buffer, and the new size. -/
def put (i : Nat) (data : List UInt8) (size : Nat) (o : FixedByteArray) : Outcome FixedByteArray :=
  if data = [] ∨ i + data.length ≤ o.shape.capacity + 1 then
    .returned { o with buf := write o.buf i data, size := size }
  else .outOfBounds

def load (data : List UInt8) (o : FixedByteArray) : Outcome FixedByteArray :=
  match o.checkSize data.length with
  | none => .thrown o
  | some (_, size) => o.put 0 (data.take size) size

def clear (o : FixedByteArray) : FixedByteArray := { o with size := 0 }

def resize (size : Nat) (o : FixedByteArray) : Outcome FixedByteArray :=
  match o.checkSize size with
  | none => .thrown o
  | some (_, size) => .returned { o with size := size }

/-- `append` of data -/
def append (data : List UInt8) (o : FixedByteArray) : Outcome FixedByteArray :=
  if data.length = 0 then .returned o
  else
    match o.checkSize ((o.size + data.length) % 2 ^ 64) with
    | none => .thrown o
    | some (_, newSize) => o.put o.size (data.take (newSize - o.size)) newSize

/-- `append` of a char, with `overflow` -/
def appendChar (ch : UInt8) (o : FixedByteArray) : Outcome (FixedByteArray × Bool) :=
  match o.checkSize (o.size + 1) with
  | none => .thrown (o, false)
  | some (false, _) => .returned (o, true)
  | some (true, newSize) => (o.put o.size [ch] newSize).map fun o => (o, false)

/-- `append` of a C string, which ends at the first null -/
def appendCString : List UInt8 → FixedByteArray → Outcome FixedByteArray
  | [], o => .returned o
  | ch :: data, o =>
    if ch = 0 then .returned o
    else
      match o.appendChar ch with
      | .returned (o, true) => .returned o
      | .returned (o, false) => o.appendCString data
      | .thrown (o, _) => .thrown o
      | .outOfBounds => .outOfBounds

/-- `load` of a C string -/
def loadCString (data : List UInt8) (o : FixedByteArray) : Outcome FixedByteArray :=
  o.clear.appendCString data

/-- `append` of the array itself -/
def appendSelf (o : FixedByteArray) : Outcome FixedByteArray :=
  if o.size = 0 then .returned o
  else
    let prevSize := o.size
    match o.resize (prevSize * 2 % 2 ^ 64) with
    | .returned o => o.put prevSize (read o.buf 0 prevSize) o.size
    | o => o

/-- `c_str` -/
def cStr (o : FixedByteArray) : Outcome FixedByteArray := o.put o.size [0] o.size

/-- The operations; `a` and `b` are arrays. -/
inductive Op
  | load (a : Nat) (data : Data)
  | loadCString (a : Nat) (data : List UInt8)
  | append (a : Nat) (data : Data)
  | appendCString (a : Nat) (data : List UInt8)
  | appendChar (a : Nat) (ch : UInt8)
  | appendArray (a b : Nat)
  | resize (a size : Nat)
  | clear (a : Nat)
  | cStr (a : Nat)
  | copy (a b : Nat)
  | move (a b : Nat)

/-- The arrays of a program. -/
abbrev State : Type := Nat → FixedByteArray

namespace State

def set (s : State) (a : Nat) (o : FixedByteArray) : State := Function.update s a o

/-- The array and the function of an operation.  Arrays of different capacities are copied with
`load`; `operator+=` is `append`, and `push_back` is `append` of a char. -/
def run (s : State) : Op → Outcome State
  | .load a data => ((s a).load data.bytes).map (s.set a)
  | .loadCString a data => ((s a).loadCString data).map (s.set a)
  | .append a data => ((s a).append data.bytes).map (s.set a)
  | .appendCString a data => ((s a).appendCString data).map (s.set a)
  | .appendChar a ch => ((s a).appendChar ch).map fun o => s.set a o.1
  | .appendArray a b =>
    (if a = b then (s a).appendSelf else (s a).append (s b).content).map (s.set a)
  | .resize a size => ((s a).resize size).map (s.set a)
  | .clear a => .returned (s.set a (s a).clear)
  | .cStr a => (s a).cStr.map (s.set a)
  | .copy a b => if a = b then .returned s else ((s a).load (s b).content).map (s.set a)
  | .move a b =>
    if a = b then .returned s
    else
      match (s a).load (s b).content with
      | .returned o => .returned ((s.set b (s b).clear).set a o)
      | .thrown o => .thrown (s.set a o)
      | .outOfBounds => .outOfBounds

end State

/-- New arrays; what is in their buffers does not matter. -/
def start (shape : Nat → Shape) (buf : Nat → Nat → UInt8) : State := fun a => ⟨shape a, buf a, 0⟩

/-! ### What the arrays are for -/

/-- Whether it throws that a string `l` becomes `l'`, and what it is then. -/
def truncated (shape : Shape) (l l' : List UInt8) : Bool × List UInt8 :=
  if l'.length ≤ shape.capacity then (false, l')
  else if shape.throwOnOverflow then (true, l) else (false, l'.take shape.capacity)

/-- The chars of a C string. -/
def cString (data : List UInt8) : List UInt8 := data.takeWhile (· ≠ 0)

/-- What an operation is to make of the string of an array, as if there were no capacity.  The bytes
that `resize` adds may be any. -/
inductive Op.Makes (ref : Nat → List UInt8) : Op → Nat → List UInt8 → Prop
  | load (a data) : Makes ref (.load a data) a data.bytes
  | loadCString (a data) : Makes ref (.loadCString a data) a (cString data)
  | append (a data) : Makes ref (.append a data) a (ref a ++ data.bytes)
  | appendCString (a data) : Makes ref (.appendCString a data) a (ref a ++ cString data)
  | appendChar (a ch) : Makes ref (.appendChar a ch) a (ref a ++ [ch])
  | appendArray (a b) : Makes ref (.appendArray a b) a (ref a ++ ref b)
  | resize (a size) (fresh : List UInt8) (h : fresh.length = size - (ref a).length) :
      Makes ref (.resize a size) a ((ref a).take size ++ fresh)
  | clear (a) : Makes ref (.clear a) a []
  | cStr (a) : Makes ref (.cStr a) a (ref a)
  | copy (a b) : Makes ref (.copy a b) a (ref b)
  | move (a b) : Makes ref (.move a b) a (ref b)

/-- The strings after an operation: a string that was moved is empty, if nothing is thrown. -/
def Op.after (ref : Nat → List UInt8) (a : Nat) (r : Bool × List UInt8) : Op → Nat → List UInt8
  | .move _ b =>
    if r.1 ∨ a = b then Function.update ref a r.2
    else Function.update (Function.update ref b []) a r.2
  | _ => Function.update ref a r.2

/-- The strings of truncating arrays before and after an operation, and whether it throws. -/
def Op.Means (shape : Nat → Shape) (ref : Nat → List UInt8) (op : Op) (thrown : Bool)
    (ref' : Nat → List UInt8) : Prop :=
  ∃ a l, op.Makes ref a l ∧ thrown = (truncated (shape a) (ref a) l).1 ∧
    ref' = op.after ref a (truncated (shape a) (ref a) l)

/-- The arrays have the strings `ref`, each in its capacity. -/
def State.Has (s : State) (ref : Nat → List UInt8) : Prop :=
  ∀ a, (s a).size ≤ (s a).shape.capacity ∧ (s a).content = ref a

/-- The strings end as the arrays do, and what follows holds of both. -/
def State.Ends (s : State) (ref : Nat → List UInt8) (op : Op)
    (next : (Nat → List UInt8) → State → Prop) (thrown : Bool) (t : State) : Prop :=
  ∃ ref', op.Means (fun a => (s a).shape) ref thrown ref' ∧ next ref' t

/-- The operation does to the arrays what it does to the strings, and what follows holds of both. -/
def State.Does (s : State) (ref : Nat → List UInt8) (op : Op)
    (next : (Nat → List UInt8) → State → Prop) : Prop :=
  match s.run op with
  | .returned t => s.Ends ref op next false t
  | .thrown t => s.Ends ref op next true t
  | .outOfBounds => False

/-- **Truncating byte strings**: no operation of a run leaves the buffers, the sizes are in the
capacities, and the contents are those of the strings. -/
def KeptRun : (Nat → List UInt8) → State → List Op → Prop
  | ref, s, [] => s.Has ref
  | ref, s, op :: ops => s.Has ref ∧ s.Does ref op fun ref' t => KeptRun ref' t ops

/-- An array is appended to itself only when twice its size is in the buffer, or would throw; and a
C string that throws finds the array full, or changes it to what it was. -/
def State.Regular (s : State) : Op → Prop
  | .appendArray a b => a = b → (s a).shape.throwOnOverflow = false →
      (s a).size * 2 ≤ (s a).shape.capacity + 1
  | .appendCString a data => (s a).shape.throwOnOverflow = true →
      (s a).size = (s a).shape.capacity ∨
        (s a).size + (cString data).length ≤ (s a).shape.capacity
  | .loadCString a data => (s a).shape.throwOnOverflow = true →
      (cString data).length ≤ (s a).shape.capacity ∨
        (s a).content = (cString data).take (s a).shape.capacity
  | _ => True

/-- Every operation of the run is regular. -/
def RegularRun : State → List Op → Prop
  | _, [] => True
  | s, op :: ops => s.Regular op ∧
    ∀ t, s.run op = .returned t ∨ s.run op = .thrown t → RegularRun t ops

/-! ### Operations on one array -/

/-- The array has become the string `l`, truncated. -/
structure Truncates (o : FixedByteArray) (l : List UInt8) (thrown : Bool) (o' : FixedByteArray) :
    Prop where
  shape : o'.shape = o.shape
  size_le : o'.size ≤ o.shape.capacity
  result : truncated o.shape o.content l = (thrown, o'.content)

/-- The outcome is the string `l`, truncated. -/
def Outcome.Is (x : Outcome FixedByteArray) (o : FixedByteArray) (l : List UInt8) : Prop :=
  match x with
  | .returned o' => o.Truncates l false o'
  | .thrown o' => o.Truncates l true o'
  | .outOfBounds => False

/-- The array of the outcome has the shape it had. -/
def Outcome.Keeps (shape : Shape) : Outcome FixedByteArray → Prop
  | .returned o | .thrown o => o.shape = shape
  | .outOfBounds => True

variable {o : FixedByteArray} {l data : List UInt8}

@[simp] theorem length_content (o : FixedByteArray) : o.content.length = o.size :=
  length_read o.buf 0 o.size

theorem truncated_of_le {shape : Shape} {l' : List UInt8} (h : l'.length ≤ shape.capacity) :
    truncated shape l l' = (false, l') := if_pos h

theorem truncated_of_throw {shape : Shape} {l' : List UInt8} (h : shape.capacity < l'.length)
    (ht : shape.throwOnOverflow = true) : truncated shape l l' = (true, l) := by
  rw [truncated, if_neg (Nat.not_le_of_lt h), if_pos ht]

/-- Where nothing is thrown, the string is cut at the capacity. -/
theorem truncated_of_silent {shape : Shape} {l' : List UInt8}
    (h : shape.throwOnOverflow = true → l'.length ≤ shape.capacity) :
    truncated shape l l' = (false, l'.take shape.capacity) := by
  rcases Nat.lt_or_ge shape.capacity l'.length with hlt | hle
  · rw [truncated, if_neg (Nat.not_le_of_lt hlt), if_neg fun ht => Nat.not_le_of_lt hlt (h ht)]
  · rw [truncated_of_le hle, List.take_of_length_le hle]

/-- An array that throws is as it was. -/
theorem is_thrown (h : o.size ≤ o.shape.capacity) (hlt : o.shape.capacity < l.length)
    (ht : o.shape.throwOnOverflow = true) : (Outcome.thrown o).Is o l :=
  ⟨rfl, h, truncated_of_throw hlt ht⟩

/-- An array that does not throw has what fits. -/
theorem is_returned {o' : FixedByteArray} (hshape : o'.shape = o.shape)
    (hsize : o'.size ≤ o.shape.capacity) (hcontent : o'.content = l.take o.shape.capacity)
    (h : o.shape.throwOnOverflow = true → l.length ≤ o.shape.capacity) :
    (Outcome.returned o').Is o l :=
  ⟨hshape, hsize, by rw [truncated_of_silent h, hcontent]⟩

theorem is_returned_of_le {o' : FixedByteArray} (hshape : o'.shape = o.shape)
    (hcontent : o'.content = l) (h : l.length ≤ o.shape.capacity) :
    (Outcome.returned o').Is o l := by
  refine is_returned hshape ?_ (by rwa [List.take_of_length_le h]) fun _ => h
  rwa [← length_content, hcontent]

/-- The ways that `checkSize` goes. -/
theorem checkSize_cases (o : FixedByteArray) (n : Nat) :
    (n ≤ o.shape.capacity ∧ o.checkSize n = some (true, n)) ∨
      (o.shape.capacity < n ∧ o.shape.throwOnOverflow = true ∧ o.checkSize n = none) ∨
      (o.shape.capacity < n ∧ o.shape.throwOnOverflow = false ∧
        o.checkSize n = some (false, o.shape.capacity)) := by
  rcases Nat.lt_or_ge o.shape.capacity n with h | h
  · right
    rw [checkSize, if_pos h]
    cases ht : o.shape.throwOnOverflow with
    | true => exact .inl ⟨h, rfl, rfl⟩
    | false => exact .inr ⟨h, rfl, rfl⟩
  · rw [checkSize, if_neg (Nat.not_lt_of_le h)]
    exact .inl ⟨h, rfl⟩

theorem put_of_le {i n : Nat} (h : i + data.length ≤ o.shape.capacity + 1) :
    o.put i data n = .returned { o with buf := write o.buf i data, size := n } :=
  if_pos (.inr h)

/-- Data that was put behind the content is behind it. -/
theorem read_write_content (o : FixedByteArray) (data : List UInt8) :
    read (write o.buf o.size data) 0 (o.size + data.length) = o.content ++ data := by
  rw [read_add, Nat.zero_add, read_write, read_write_of_disjoint (.inl (Nat.zero_add _).le), content]

/-- **Loading** data. -/
theorem load_is (h : o.size ≤ o.shape.capacity) (data : List UInt8) :
    (o.load data).Is o data := by
  have hput : ∀ n ≤ o.shape.capacity, n ≤ data.length → ∃ o',
      o.put 0 (data.take n) n = .returned o' ∧ o'.shape = o.shape ∧ o'.size = n ∧
        o'.content = data.take n := by
    intro n hn hlength
    have htake : (data.take n).length = n := List.length_take_of_le hlength
    have hread := read_write o.buf 0 (data.take n)
    rw [htake] at hread
    exact ⟨⟨o.shape, _, n⟩, put_of_le (by omega), rfl, rfl, hread⟩
  rw [load]
  obtain ⟨hle, hcheck⟩ | ⟨hlt, ht, hcheck⟩ | ⟨hlt, ht, hcheck⟩ := o.checkSize_cases data.length
  · obtain ⟨o', heq, hshape, -, hcontent⟩ := hput data.length hle (Nat.le_refl _)
    rw [hcheck]
    dsimp only
    rw [heq]
    exact is_returned_of_le hshape (hcontent.trans List.take_length) hle
  · rw [hcheck]
    exact is_thrown h hlt ht
  · obtain ⟨o', heq, hshape, hsize, hcontent⟩ := hput o.shape.capacity (Nat.le_refl _) hlt.le
    rw [hcheck]
    dsimp only
    rw [heq]
    exact is_returned hshape hsize.le hcontent fun hn => Bool.noConfusion (hn.symm.trans ht)

/-- **Appending** data: what is added is cut where the whole is to be cut. -/
theorem append_is (h : o.size ≤ o.shape.capacity) (hdata : data.length < 2 ^ 63) :
    (o.append data).Is o (o.content ++ data) := by
  have hlength : (o.content ++ data).length = o.size + data.length := by
    rw [List.length_append, length_content]
  have hlt := o.shape.capacity_lt
  have hmod : (o.size + data.length) % 2 ^ 64 = o.size + data.length :=
    Nat.mod_eq_of_lt (by omega)
  rw [append]
  split
  next hempty =>
    rw [List.length_eq_zero_iff.mp hempty, List.append_nil]
    exact is_returned_of_le rfl rfl (by rwa [length_content])
  rw [hmod]
  obtain ⟨hle, hcheck⟩ | ⟨hlt, ht, hcheck⟩ | ⟨hlt, ht, hcheck⟩ :=
    o.checkSize_cases (o.size + data.length)
  · rw [hcheck]
    dsimp only
    rw [Nat.add_sub_cancel_left, List.take_length, put_of_le (by omega)]
    exact is_returned_of_le rfl (o.read_write_content data) (hlength ▸ hle)
  · rw [hcheck]
    exact is_thrown h (hlength ▸ hlt) ht
  · rw [hcheck]
    dsimp only
    have htake : (data.take (o.shape.capacity - o.size)).length = o.shape.capacity - o.size :=
      List.length_take_of_le (by omega)
    have hread := o.read_write_content (data.take (o.shape.capacity - o.size))
    rw [htake, Nat.add_sub_cancel' h] at hread
    rw [put_of_le (by omega)]
    refine is_returned rfl (Nat.le_refl _) (hread.trans ?_) fun hn =>
      Bool.noConfusion (hn.symm.trans ht)
    have hall : o.content.take o.shape.capacity = o.content :=
      List.take_of_length_le (by rwa [length_content])
    rw [List.take_append, hall, length_content]

/-- A char that fits. -/
theorem appendChar_of_lt (h : o.size < o.shape.capacity) (ch : UInt8) :
    ∃ o', o.appendChar ch = .returned (o', false) ∧ o'.shape = o.shape ∧ o'.size = o.size + 1 ∧
      o'.content = o.content ++ [ch] := by
  have hcheck : o.checkSize (o.size + 1) = some (true, o.size + 1) := if_neg (Nat.not_lt_of_le h)
  refine ⟨⟨o.shape, write o.buf o.size [ch], o.size + 1⟩, ?_, rfl, rfl, ?_⟩
  · rw [appendChar, hcheck]
    dsimp only
    rw [put_of_le (by rw [List.length_singleton]; omega)]
    rfl
  · exact o.read_write_content [ch]

/-- A char for which there is no place. -/
theorem appendChar_of_full (h : o.size = o.shape.capacity) (ch : UInt8) :
    o.appendChar ch =
      if o.shape.throwOnOverflow then .thrown (o, false) else .returned (o, true) := by
  have hlt : o.shape.capacity < o.size + 1 := h ▸ Nat.lt_succ_self _
  rw [appendChar, checkSize, if_pos hlt]
  cases o.shape.throwOnOverflow <;> rfl

theorem appendChar_is (h : o.size ≤ o.shape.capacity) (ch : UInt8) :
    ((o.appendChar ch).map Prod.fst).Is o (o.content ++ [ch]) := by
  have hlength : (o.content ++ [ch]).length = o.size + 1 := by
    rw [List.length_append, length_content, List.length_singleton]
  rcases Nat.lt_or_eq_of_le h with hlt | heq
  · obtain ⟨o', ho, hshape, hsize, hcontent⟩ := appendChar_of_lt hlt ch
    rw [ho]
    exact is_returned_of_le hshape hcontent (hlength ▸ hlt)
  · have hfull : o.shape.capacity < (o.content ++ [ch]).length := by
      rw [hlength, heq]
      exact Nat.lt_succ_self _
    rw [appendChar_of_full heq]
    cases ht : o.shape.throwOnOverflow with
    | true => exact is_thrown h hfull ht
    | false =>
      refine is_returned rfl h ?_ fun hn => Bool.noConfusion (hn.symm.trans ht)
      rw [List.take_left' (by rw [length_content, heq])]

/-- **Appending a C string** adds the chars that fit, also when it throws then. -/
theorem appendCString_eq (data : List UInt8) : ∀ {o : FixedByteArray},
    o.size ≤ o.shape.capacity → ∃ o', o'.shape = o.shape ∧ o'.size ≤ o.shape.capacity ∧
      o'.content = (o.content ++ cString data).take o.shape.capacity ∧
      o.appendCString data =
        if o.shape.capacity < o.size + (cString data).length ∧ o.shape.throwOnOverflow then
          .thrown o' else .returned o' := by
  induction data with
  | nil =>
    intro o h
    refine ⟨o, rfl, h, ?_, ?_⟩
    · rw [cString, List.takeWhile_nil, List.append_nil,
        List.take_of_length_le (by rwa [length_content])]
    · rw [if_neg (fun hlt => Nat.not_lt_of_le h hlt.1)]
      rfl
  | cons ch data ih =>
    intro o h
    rw [appendCString]
    by_cases hch : ch = 0
    · have hempty : cString (ch :: data) = [] := List.takeWhile_cons_of_neg (by simp [hch])
      refine ⟨o, rfl, h, ?_, ?_⟩
      · rw [hempty, List.append_nil, List.take_of_length_le (by rwa [length_content])]
      · rw [if_pos hch, hempty, if_neg (fun hlt => Nat.not_lt_of_le h hlt.1)]
    rw [if_neg hch]
    have hcons : cString (ch :: data) = ch :: cString data :=
      List.takeWhile_cons_of_pos (by simp [hch])
    rw [hcons]
    rcases Nat.lt_or_eq_of_le h with hlt | heq
    · obtain ⟨o₁, ho, hshape, hsize, hcontent⟩ := appendChar_of_lt hlt ch
      obtain ⟨o', hshape', hsize', hcontent', heq'⟩ := ih (hshape ▸ hsize ▸ hlt : o₁.size ≤ _)
      rw [hshape] at hshape' hsize' hcontent' heq'
      refine ⟨o', hshape', hsize', ?_, ?_⟩
      · rw [hcontent', hcontent, List.append_assoc, List.singleton_append]
      · rw [ho]
        dsimp only
        rw [heq', hsize, List.length_cons, Nat.add_assoc, Nat.add_comm 1]
    · refine ⟨o, rfl, h, ?_, ?_⟩
      · rw [List.take_left' (by rw [length_content, heq])]
      · have hlt : o.shape.capacity < o.size + (ch :: cString data).length := by
          rw [heq, List.length_cons]
          exact Nat.lt_add_of_pos_right (Nat.succ_pos _)
        rw [appendChar_of_full heq]
        cases o.shape.throwOnOverflow with
        | true => rw [if_pos rfl, if_pos ⟨hlt, rfl⟩]
        | false => rw [if_neg Bool.noConfusion, if_neg (fun hn => Bool.noConfusion hn.2)]

theorem appendCString_keeps (h : o.size ≤ o.shape.capacity) (data : List UInt8) :
    (o.appendCString data).Keeps o.shape := by
  obtain ⟨o', hshape, -, -, heq⟩ := appendCString_eq data h
  rw [heq]
  split <;> exact hshape

/-- **A C string is appended** as it should be, but for an array that throws when a part is there. -/
theorem appendCString_is_iff (h : o.size ≤ o.shape.capacity) (data : List UInt8) :
    (o.appendCString data).Is o (o.content ++ cString data) ↔
      (o.shape.throwOnOverflow = true → o.size = o.shape.capacity ∨
        o.size + (cString data).length ≤ o.shape.capacity) := by
  obtain ⟨o', hshape, hsize, hcontent, heq⟩ := appendCString_eq data h
  have hlength : (o.content ++ cString data).length = o.size + (cString data).length := by
    rw [List.length_append, length_content]
  rw [heq]
  split
  next hthrow =>
    obtain ⟨hlt, ht⟩ := hthrow
    rw [Outcome.Is]
    constructor
    · rintro ⟨-, -, hresult⟩ -
      rw [truncated_of_throw (hlength ▸ hlt) ht, hcontent] at hresult
      have hsame := congrArg List.length (Prod.mk.inj hresult).2
      rw [length_content, List.length_take_of_le (by rw [hlength]; exact hlt.le)] at hsame
      exact .inl hsame
    · intro hr
      rcases hr ht with hfull | hfits
      · refine ⟨hshape, hsize, ?_⟩
        rw [truncated_of_throw (hlength ▸ hlt) ht, hcontent,
          List.take_left' (by rw [length_content, hfull])]
      · exact absurd hfits (Nat.not_le_of_lt hlt)
  next hthrow =>
    have hfits : o.shape.throwOnOverflow = true →
        o.size + (cString data).length ≤ o.shape.capacity :=
      fun ht => Nat.le_of_not_lt fun hlt => hthrow ⟨hlt, ht⟩
    exact iff_of_true (is_returned hshape hsize hcontent (hlength ▸ hfits))
      fun ht => .inr (hfits ht)

/-- **A C string is loaded** as it should be, but for an array that throws when another part is
there. -/
theorem loadCString_is_iff (o : FixedByteArray) (data : List UInt8) :
    (o.loadCString data).Is o (cString data) ↔
      (o.shape.throwOnOverflow = true → (cString data).length ≤ o.shape.capacity ∨
        o.content = (cString data).take o.shape.capacity) := by
  obtain ⟨o', hshape, hsize, hcontent, heq⟩ :=
    appendCString_eq data (show o.clear.size ≤ o.clear.shape.capacity from Nat.zero_le _)
  have hclear : o.clear.shape = o.shape ∧ o.clear.content = [] := ⟨rfl, rfl⟩
  rw [hclear.1] at hshape hsize hcontent heq
  rw [hclear.2, List.nil_append] at hcontent
  rw [loadCString, heq]
  have hzero : o.clear.size + (cString data).length = (cString data).length := Nat.zero_add _
  rw [hzero]
  split
  next hthrow =>
    obtain ⟨hlt, ht⟩ := hthrow
    rw [Outcome.Is]
    constructor
    · rintro ⟨-, -, hresult⟩ -
      rw [truncated_of_throw hlt ht, hcontent] at hresult
      exact .inr (Prod.mk.inj hresult).2
    · intro hr
      rcases hr ht with hfits | hsame
      · exact absurd hfits (Nat.not_le_of_lt hlt)
      · refine ⟨hshape, hsize, ?_⟩
        rw [truncated_of_throw hlt ht, hcontent, hsame]
  next hthrow =>
    have hfits : o.shape.throwOnOverflow = true → (cString data).length ≤ o.shape.capacity :=
      fun ht => Nat.le_of_not_lt fun hlt => hthrow ⟨hlt, ht⟩
    exact iff_of_true (is_returned hshape hsize hcontent hfits) fun ht => .inl (hfits ht)

/-- **Resizing**: the bytes that are added are those of the buffer. -/
theorem resize_is (h : o.size ≤ o.shape.capacity) (n : Nat) :
    ∃ fresh : List UInt8, fresh.length = n - o.size ∧
      (o.resize n).Is o (o.content.take n ++ fresh) := by
  have hread : o.content.take n ++ read o.buf o.size (n - o.size) = read o.buf 0 n := by
    rcases Nat.le_total o.size n with hle | hle
    · rw [List.take_of_length_le (by rwa [length_content]), content]
      have hadd := read_add o.buf 0 o.size (n - o.size)
      rw [Nat.add_sub_cancel' hle, Nat.zero_add] at hadd
      exact hadd.symm
    · rw [Nat.sub_eq_zero_of_le hle, read_zero, List.append_nil, content, take_read hle]
  refine ⟨read o.buf o.size (n - o.size), length_read _ _ _, ?_⟩
  rw [hread, resize]
  obtain ⟨hle, hcheck⟩ | ⟨hlt, ht, hcheck⟩ | ⟨hlt, ht, hcheck⟩ := o.checkSize_cases n
  · rw [hcheck]
    exact is_returned_of_le rfl rfl (by rwa [length_read])
  · rw [hcheck]
    exact is_thrown h (by rwa [length_read]) ht
  · rw [hcheck]
    exact is_returned rfl (Nat.le_refl _) (take_read hlt.le).symm fun hn =>
      Bool.noConfusion (hn.symm.trans ht)

/-- **An array is appended to itself** as it should be where twice its size is in the buffer. -/
theorem appendSelf_is_iff (h : o.size ≤ o.shape.capacity) :
    o.appendSelf.Is o (o.content ++ o.content) ↔
      (o.shape.throwOnOverflow = false → o.size * 2 ≤ o.shape.capacity + 1) := by
  have hlength : (o.content ++ o.content).length = o.size * 2 := by
    rw [List.length_append, length_content, Nat.mul_two]
  have hmod : o.size * 2 % 2 ^ 64 = o.size * 2 := by
    have := o.shape.capacity_lt
    exact Nat.mod_eq_of_lt (by omega)
  have hread := o.read_write_content o.content
  rw [length_content, ← Nat.mul_two] at hread
  rw [appendSelf]
  split
  next hempty =>
    have hnil : o.content = [] := List.length_eq_zero_iff.mp (by rwa [length_content])
    rw [hnil]
    exact iff_of_true (is_returned_of_le rfl hnil (Nat.zero_le _)) fun _ => by omega
  dsimp only
  rw [hmod, resize]
  obtain ⟨hle, hcheck⟩ | ⟨hlt, ht, hcheck⟩ | ⟨hlt, ht, hcheck⟩ := o.checkSize_cases (o.size * 2)
  · rw [hcheck]
    dsimp only
    rw [put_of_le (by rw [length_read]; dsimp only; omega)]
    exact iff_of_true (is_returned_of_le rfl hread (hlength ▸ hle)) fun _ => by omega
  · rw [hcheck]
    exact iff_of_true (is_thrown h (hlength ▸ hlt) ht) fun hn =>
      Bool.noConfusion (hn.symm.trans ht)
  · rw [hcheck]
    dsimp only
    rcases Nat.lt_or_ge (o.shape.capacity + 1) (o.size * 2) with hout | hin
    · -- the array is as long as the capacity now, but all that it was is copied
      have hoob : ¬ (read o.buf 0 o.size = [] ∨
          o.size + (read o.buf 0 o.size).length ≤ o.shape.capacity + 1) := by
        rw [length_read, ← List.length_eq_zero_iff, length_read]
        omega
      rw [put, if_neg hoob]
      exact iff_of_false id fun hr => Nat.not_le_of_lt hout (hr ht)
    · rw [put_of_le (by rw [length_read]; dsimp only; omega)]
      refine iff_of_true (is_returned rfl (Nat.le_refl _) ?_ fun hn =>
        Bool.noConfusion (hn.symm.trans ht)) fun _ => hin
      rw [← hread, take_read hlt.le]
      rfl

theorem appendSelf_keeps (o : FixedByteArray) : o.appendSelf.Keeps o.shape := by
  rw [appendSelf]
  split
  · rfl
  dsimp only
  rw [resize]
  cases o.checkSize (o.size * 2 % 2 ^ 64) with
  | none => rfl
  | some r =>
    dsimp only
    rw [put]
    split
    · rfl
    · trivial

/-- The terminating null is behind the content. -/
theorem cStr_is (h : o.size ≤ o.shape.capacity) : o.cStr.Is o o.content := by
  rw [cStr, put_of_le (Nat.add_le_add_right h 1)]
  exact is_returned_of_le rfl (read_write_of_disjoint (.inl (Nat.zero_add _).le))
    (by rwa [length_content])

/-! ### Runs -/

variable {s t : State} {ref : Nat → List UInt8} {a b : Nat} {op : Op}

theorem State.Has.set (h : s.Has ref) {o : FixedByteArray}
    (ho : o.size ≤ o.shape.capacity ∧ o.content = l) :
    (s.set a o).Has (Function.update ref a l) := by
  intro c
  rw [State.set]
  by_cases hc : c = a
  · rw [hc, Function.update_self, Function.update_self]
    exact ho
  · rw [Function.update_of_ne hc, Function.update_of_ne hc]
    exact h c

/-- The arrays have only one content. -/
theorem State.Has.unique {ref' : Nat → List UInt8} (h : s.Has ref) (h' : s.Has ref') :
    ref = ref' := funext fun a => (h a).2.symm.trans (h' a).2

/-- An operation on one array. -/
theorem State.Has.does (h : s.Has ref) {x : Outcome FixedByteArray}
    (hrun : s.run op = x.map (s.set a)) (hmakes : op.Makes ref a l)
    (hafter : ∀ r, op.after ref a r = Function.update ref a r.2)
    (hx : x.Is (s a) l) : s.Does ref op fun ref' t => t.Has ref' := by
  have hends : ∀ thrown o', (s a).Truncates l thrown o' →
      s.Ends ref op (fun ref' t => t.Has ref') thrown (s.set a o') := by
    intro thrown o' ho
    have hresult := ho.result
    rw [(h a).2] at hresult
    refine ⟨_, ⟨a, l, hmakes, ?_, rfl⟩, ?_⟩
    · rw [hresult]
    · rw [hafter, hresult]
      exact h.set ⟨ho.shape ▸ ho.size_le, rfl⟩
  rw [State.Does, hrun]
  cases x with
  | returned o' => exact hends false o' hx
  | thrown o' => exact hends true o' hx
  | outOfBounds => exact hx

/-- An operation that does not make the string of its array. -/
theorem State.Has.not_does (h : s.Has ref) {x : Outcome FixedByteArray}
    (hrun : s.run op = x.map (s.set a)) (hkeeps : x.Keeps (s a).shape)
    (hafter : ∀ r, op.after ref a r = Function.update ref a r.2)
    (hmakes : ∀ b l', op.Makes ref b l' → b = a ∧ l' = l) (hx : ¬ x.Is (s a) l) :
    ¬ s.Does ref op fun ref' t => t.Has ref' := by
  have hends : ∀ thrown o', o'.shape = (s a).shape → ¬ (s a).Truncates l thrown o' →
      ¬ s.Ends ref op (fun ref' t => t.Has ref') thrown (s.set a o') := by
    rintro thrown o' hshape ho ⟨ref', ⟨b, l', hm, hthrown, hafter'⟩, hhas⟩
    obtain ⟨rfl, rfl⟩ := hmakes b l' hm
    obtain ⟨hsize, hcontent⟩ := hhas b
    rw [hafter', hafter, Function.update_self, State.set, Function.update_self] at hcontent
    rw [State.set, Function.update_self] at hsize
    refine ho ⟨hshape, hshape ▸ hsize, ?_⟩
    rw [(h b).2, hcontent, hthrown]
  rw [State.Does, hrun]
  cases x with
  | returned o' => exact hends false o' hkeeps hx
  | thrown o' => exact hends true o' hkeeps hx
  | outOfBounds => exact id

/-- **A move**: the other array is empty then, if nothing is thrown. -/
theorem State.Has.move (h : s.Has ref) (a b : Nat) :
    s.Does ref (.move a b) fun ref' t => t.Has ref' := by
  by_cases hab : a = b
  · have hrun : s.run (.move a b) = .returned s := if_pos hab
    have hlength : (ref a).length ≤ (s a).shape.capacity := by
      rw [← (h a).2, length_content]
      exact (h a).1
    rw [State.Does, hrun]
    refine ⟨ref, ⟨a, ref b, .move a b, ?_, ?_⟩, h⟩
    · rw [← hab, truncated_of_le hlength]
    · rw [← hab, truncated_of_le hlength, Op.after, if_pos (.inr rfl), Function.update_eq_self]
  have hload := load_is (h a).1 (s b).content
  have hresult : ∀ {thrown o'}, (s a).Truncates (s b).content thrown o' →
      truncated (s a).shape (ref a) (ref b) = (thrown, o'.content) := by
    intro thrown o' ho
    rw [← (h a).2, ← (h b).2, ho.result]
  rw [State.Does, State.run, if_neg hab]
  cases hx : (s a).load (s b).content with
  | returned o' =>
    rw [hx] at hload
    refine ⟨_, ⟨a, ref b, .move a b, ?_, rfl⟩, ?_⟩
    · rw [hresult hload]
    · rw [hresult hload, Op.after, if_neg (by simp [hab])]
      have hclear : (s b).clear.size ≤ (s b).clear.shape.capacity ∧ (s b).clear.content = [] :=
        ⟨Nat.zero_le _, rfl⟩
      exact (h.set hclear).set ⟨hload.shape ▸ hload.size_le, rfl⟩
  | thrown o' =>
    rw [hx] at hload
    refine ⟨_, ⟨a, ref b, .move a b, ?_, rfl⟩, ?_⟩
    · rw [hresult hload]
    · rw [hresult hload, Op.after, if_pos (.inl rfl)]
      exact h.set ⟨hload.shape ▸ hload.size_le, rfl⟩
  | outOfBounds =>
    rw [hx] at hload
    exact hload

/-- An operation does what it does to the strings just when it is regular. -/
theorem State.Has.step (h : s.Has ref) (op : Op) :
    s.Regular op ↔ s.Does ref op fun ref' t => t.Has ref' := by
  have hlength : ∀ b, (s b).content.length < 2 ^ 63 := fun b => by
    rw [length_content]
    exact Nat.lt_of_le_of_lt (h b).1 (s b).shape.capacity_lt
  cases op with
  | load a data =>
    exact iff_of_true trivial (h.does rfl (.load a data) (fun _ => rfl) (load_is (h a).1 _))
  | loadCString a data =>
    refine (loadCString_is_iff (s a) data).symm.trans ⟨?_, fun hd => by_contra fun hx => ?_⟩
    · exact h.does rfl (.loadCString a data) fun _ => rfl
    · have hkeeps : ((s a).loadCString data).Keeps (s a).shape :=
        appendCString_keeps (show (s a).clear.size ≤ (s a).clear.shape.capacity from
          Nat.zero_le _) data
      refine h.not_does rfl hkeeps (fun _ => rfl) ?_ hx hd
      rintro b l' ⟨⟩
      exact ⟨rfl, rfl⟩
  | append a data =>
    refine iff_of_true trivial (h.does rfl (.append a data) (fun _ => rfl) ?_)
    rw [← (h a).2]
    exact append_is (h a).1 data.length_lt
  | appendCString a data =>
    refine (appendCString_is_iff (h a).1 data).symm.trans ⟨?_, fun hd => by_contra fun hx => ?_⟩
    · rw [(h a).2]
      exact h.does rfl (.appendCString a data) fun _ => rfl
    · refine h.not_does rfl (appendCString_keeps (h a).1 data) (fun _ => rfl) ?_ hx hd
      rintro b l' ⟨⟩
      exact ⟨rfl, by rw [(h a).2]⟩
  | appendChar a ch =>
    have hrun : s.run (.appendChar a ch) = (((s a).appendChar ch).map Prod.fst).map (s.set a) := by
      rw [State.run]
      cases (s a).appendChar ch <;> rfl
    refine iff_of_true trivial (h.does hrun (.appendChar a ch) (fun _ => rfl) ?_)
    rw [← (h a).2]
    exact appendChar_is (h a).1 ch
  | appendArray a b =>
    by_cases hab : a = b
    · subst hab
      have hrun : s.run (.appendArray a a) = (s a).appendSelf.map (s.set a) := by
        rw [State.run, if_pos rfl]
      have hregular : s.Regular (.appendArray a a) ↔
          ((s a).shape.throwOnOverflow = false → (s a).size * 2 ≤ (s a).shape.capacity + 1) :=
        ⟨fun hr => hr rfl, fun hr _ => hr⟩
      refine (hregular.trans (appendSelf_is_iff (h a).1).symm).trans
        ⟨?_, fun hd => by_contra fun hx => ?_⟩
      · rw [(h a).2]
        exact h.does hrun (.appendArray a a) fun _ => rfl
      · refine h.not_does hrun (appendSelf_keeps (s a)) (fun _ => rfl) ?_ hx hd
        rintro b l' ⟨⟩
        exact ⟨rfl, by rw [(h a).2]⟩
    · have hrun : s.run (.appendArray a b) = ((s a).append (s b).content).map (s.set a) := by
        rw [State.run, if_neg hab]
      refine iff_of_true (fun heq => absurd heq hab)
        (h.does hrun (.appendArray a b) (fun _ => rfl) ?_)
      rw [← (h a).2, ← (h b).2]
      exact append_is (h a).1 (hlength b)
  | resize a size =>
    obtain ⟨fresh, hfresh, his⟩ := resize_is (h a).1 size
    have hmakes : (Op.resize a size).Makes ref a ((s a).content.take size ++ fresh) := by
      rw [(h a).2]
      exact .resize a size fresh (by rw [hfresh, ← (h a).2, length_content])
    exact iff_of_true trivial (h.does rfl hmakes (fun _ => rfl) his)
  | clear a =>
    have hrun : s.run (.clear a) = (Outcome.returned (s a).clear).map (s.set a) := rfl
    exact iff_of_true trivial (h.does hrun (.clear a) (fun _ => rfl)
      (is_returned_of_le rfl rfl (Nat.zero_le _)))
  | cStr a =>
    refine iff_of_true trivial (h.does rfl (.cStr a) (fun _ => rfl) ?_)
    rw [← (h a).2]
    exact cStr_is (h a).1
  | copy a b =>
    refine iff_of_true trivial ?_
    by_cases hab : a = b
    · have hrun : s.run (.copy a b) = (Outcome.returned (s a)).map (s.set a) := by
        rw [State.run, if_pos hab, Outcome.map, State.set, Function.update_eq_self]
      refine h.does hrun (.copy a b) (fun _ => rfl) (is_returned_of_le rfl ?_ ?_)
      · rw [← hab, (h a).2]
      · rw [← hab, ← (h a).2, length_content]
        exact (h a).1
    · have hrun : s.run (.copy a b) = ((s a).load (s b).content).map (s.set a) := if_neg hab
      refine h.does hrun (.copy a b) (fun _ => rfl) ?_
      rw [← (h b).2]
      exact load_is (h a).1 _
  | move a b => exact iff_of_true trivial (h.move a b)

theorem KeptRun.has {ops : List Op} (h : KeptRun ref s ops) : s.Has ref := by
  cases ops with
  | nil => exact h
  | cons op ops => exact h.1

/-- What follows a step, where the strings after it are those of the arrays. -/
theorem State.Does.mono {next next' : (Nat → List UInt8) → State → Prop}
    (h : s.Does ref op next) (hnext : ∀ ref' t, s.run op = .returned t ∨ s.run op = .thrown t →
      next ref' t → next' ref' t) : s.Does ref op next' := by
  rw [State.Does] at h ⊢
  cases hrun : s.run op with
  | returned t =>
    rw [hrun] at h
    exact h.imp fun ref' hr => ⟨hr.1, hnext ref' t (.inl hrun) hr.2⟩
  | thrown t =>
    rw [hrun] at h
    exact h.imp fun ref' hr => ⟨hr.1, hnext ref' t (.inr hrun) hr.2⟩
  | outOfBounds =>
    rw [hrun] at h
    exact h

theorem State.Does.next {next : (Nat → List UInt8) → State → Prop} (h : s.Does ref op next)
    (ht : s.run op = .returned t ∨ s.run op = .thrown t) : ∃ ref', next ref' t := by
  rw [State.Does] at h
  rcases ht with ht | ht
  · rw [ht] at h
    exact h.imp fun _ hr => hr.2
  · rw [ht] at h
    exact h.imp fun _ hr => hr.2

/-- Runs of arrays that have the strings `ref`. -/
theorem keptRun_iff (ops : List Op) : ∀ {s : State} {ref : Nat → List UInt8}, s.Has ref →
    (KeptRun ref s ops ↔ RegularRun s ops) := by
  induction ops with
  | nil => exact fun h => iff_of_true h trivial
  | cons op ops ih =>
    intro s ref h
    constructor
    · rintro ⟨-, hdoes⟩
      refine ⟨(h.step op).mpr (hdoes.mono fun ref' t _ hk => hk.has), fun t ht => ?_⟩
      obtain ⟨ref', hk⟩ := hdoes.next ht
      exact (ih hk.has).mp hk
    · rintro ⟨hregular, hrun⟩
      exact ⟨h, ((h.step op).mp hregular).mono fun ref' t ht hk => (ih hk).mpr (hrun t ht)⟩

/-- **Truncating byte strings** are what new arrays of any capacities are, in the runs where no
array is appended to itself past its buffer and no C string throws behind a part of it, and in no
others. -/
theorem truncates_iff (shape : Nat → Shape) (buf : Nat → Nat → UInt8) (ops : List Op) :
    KeptRun (fun _ => []) (start shape buf) ops ↔ RegularRun (start shape buf) ops :=
  keptRun_iff ops fun _ => ⟨Nat.zero_le _, rfl⟩

section Sample

/-- Arrays of eight bytes that do not throw. -/
def sampleShape : Shape := ⟨8, false, by decide⟩

/-- An array of five bytes is appended to itself. -/
def sampleOps : List Op := [.load 0 ⟨[104, 101, 108, 108, 111], by decide⟩, .appendArray 0 0]

/-- **An array of five bytes** does not go twice in a buffer of nine. -/
theorem sample_not_kept :
    ¬ KeptRun (fun _ => []) (start (fun _ => sampleShape) fun _ _ => 0) sampleOps := by
  rintro ⟨-, h⟩
  obtain ⟨ref, h⟩ := h.next (.inl rfl)
  exact h.2

end Sample

end FixedByteArray

end Hatn.Common
