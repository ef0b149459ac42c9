import Mathlib.Algebra.Group.Nat.Defs
import Mathlib.Algebra.GroupWithZero.Nat
import Mathlib.Data.List.Basic

/-!
# Span buffers

A `SpanBuffer` is a buffer with a window of it, the span, where a size of zero means all up to the
end.  `SpanBufferTraits` cuts lists of them: a prefix is extracted, or the list is split in two.
A view stands for the addresses of its bytes, so that nothing is said of the memory.
-/

namespace Hatn.Common

inductive CommonError
  | invalidSize
  deriving DecidableEq

structure ConstDataBuf where
  data : Nat
  size : Nat
  deriving DecidableEq

/-- The addresses of a view. -/
def ConstDataBuf.places (v : ConstDataBuf) : List Nat := List.range' v.data v.size

/-- `m_buf` with the span in it. -/
structure SpanBuffer where
  bufData : Nat
  bufSize : Nat
  spanOffset : Nat
  spanSize : Nat
  deriving DecidableEq

namespace SpanBuffer

/-- `SpanBuffer()` -/
def null : SpanBuffer := ⟨0, 0, 0, 0⟩

/-- The constructor from a `ConstDataBuf`. -/
def ofView (v : ConstDataBuf) (spanOffset spanSize : Nat) : SpanBuffer :=
  ⟨v.data, v.size, spanOffset, spanSize⟩

/-- `span`: the sum is one of `size_t`. -/
def span (b : SpanBuffer) : Bool × ConstDataBuf :=
  (decide ((b.spanOffset + b.spanSize) % 2 ^ 64 ≤ b.bufSize),
    ⟨b.bufData + b.spanOffset, if b.spanSize = 0 then b.bufSize - b.spanOffset else b.spanSize⟩)

def view (b : SpanBuffer) : Except CommonError ConstDataBuf :=
  if b.span.1 then .ok b.span.2 else .error .invalidSize

end SpanBuffer

namespace SpanBufferTraits

open SpanBuffer

/-- `extractPrefix` of one buffer: the prefix, and what is left. -/
def extractPrefix (buffer : SpanBuffer) (prefixSize : Nat) :
    Except CommonError (ConstDataBuf × SpanBuffer) := do
  let view ← buffer.view
  if view.size < prefixSize then throw .invalidSize
  return (⟨view.data, prefixSize⟩, ofView view prefixSize 0)

/-- `split` of one buffer. -/
def split (buffer : SpanBuffer) (leftSize : Nat) :
    Except CommonError (SpanBuffer × SpanBuffer) := do
  let view ← buffer.view
  if view.size < leftSize then throw .invalidSize
  if view.size = leftSize then return (buffer, null)
  return (ofView view 0 leftSize, ofView view leftSize (view.size - leftSize))

/-- `extractPrefix` of a list of buffers. -/
def extractPrefixes (buffers : List SpanBuffer) (prefixSize : Nat) :
    Except CommonError (ConstDataBuf × List SpanBuffer) :=
  match buffers with
  | [] => throw .invalidSize
  | front :: rest => do
    let view ← front.view
    if view.size < prefixSize then throw .invalidSize
    -- the list without its first buffer is made where it is used up, and is not returned
    if view.size = prefixSize ∧ rest = [] then return (⟨view.data, prefixSize⟩, [])
    return (⟨view.data, prefixSize⟩, ofView view prefixSize 0 :: rest)

/-- What the loop of `split` has: `left`, `right` and `sum`. -/
structure Split where
  left : List SpanBuffer
  right : List SpanBuffer
  sum : Nat

def splitNext (leftSize : Nat) (s : Split) (it : SpanBuffer) : Except CommonError Split := do
  let view ← it.view
  let sum := (s.sum + view.size) % 2 ^ 64
  if s.sum ≥ leftSize then return { s with right := s.right ++ [it], sum }
  if sum > leftSize then
    let diff := sum - leftSize
    -- both parts of the buffer go to the left
    return { s with
      left := s.left ++ [ofView view 0 diff, ofView view diff (view.size - diff)], sum }
  return { s with left := s.left ++ [it], sum }

/-- `split` of a list of buffers. -/
def splits (buffers : List SpanBuffer) (leftSize : Nat) :
    Except CommonError (List SpanBuffer × List SpanBuffer) := do
  let s ← buffers.foldlM (splitNext leftSize) ⟨[], [], 0⟩
  return (s.left, s.right)

end SpanBufferTraits

namespace SpanBuffer

/-! ### What buffers hold -/

/-- The bytes of the views, in a memory. -/
def contents (memory : Nat → UInt8) : List SpanBuffer → Except CommonError (List UInt8)
  | [] => return []
  | b :: buffers => do
    let view ← b.view
    return view.places.map memory ++ (← contents memory buffers)

/-- Every view of the buffers lies inside one of the buffers of the input. -/
def Within (input buffers : List SpanBuffer) : Prop :=
  ∀ p ∈ buffers, ∀ v, p.view = .ok v →
    ∃ b ∈ input, ∀ a ∈ v.places, b.bufData ≤ a ∧ a < b.bufData + b.bufSize

/-- The result of a split holds the first bytes, and the others. -/
def Splits (input : List SpanBuffer) (n : Nat)
    (result : Except CommonError (List SpanBuffer × List SpanBuffer)) : Prop :=
  ∃ left right, result = .ok (left, right) ∧
    (∀ memory held, contents memory input = .ok held →
      contents memory left = .ok (held.take n) ∧ contents memory right = .ok (held.drop n)) ∧
    Within input (left ++ right)

/-- The result of an extraction, if there is one, is the prefix and all that comes after it. -/
def Extracts (input : List SpanBuffer) (n : Nat)
    (result : Except CommonError (ConstDataBuf × List SpanBuffer)) : Prop :=
  ∀ front rest, result = .ok (front, rest) →
    (∀ memory held, contents memory input = .ok held →
      front.places.map memory = held.take n ∧ contents memory rest = .ok (held.drop n)) ∧
    Within input (ofView front 0 0 :: rest)

/-- A buffer that can be there: its numbers are those of `size_t`, and it lies in memory. -/
structure Stored (b : SpanBuffer) : Prop where
  offset : b.spanOffset < 2 ^ 64
  size : b.spanSize < 2 ^ 64
  inside : b.bufData + b.bufSize < 2 ^ 64

/-- A span that passes for one of the buffer because its end is counted modulo `2 ^ 64`. -/
def Wraps (b : SpanBuffer) : Prop := b.span.1 = true ∧ 2 ^ 64 ≤ b.spanOffset + b.spanSize

/-- The sizes of the views, summed up. -/
def total (buffers : List SpanBuffer) : Nat := (buffers.map fun b => b.span.2.size).sum

/-- The second list has the views of the first, and some of them in two parts. -/
inductive Parts : List SpanBuffer → List SpanBuffer → Prop
  | nil : Parts [] []
  | whole {b p : SpanBuffer} {bs ps : List SpanBuffer} :
      p.view = b.view → Parts bs ps → Parts (b :: bs) (p :: ps)
  | cut {b p q : SpanBuffer} {bs ps : List SpanBuffer} {v v' v'' : ConstDataBuf} :
      b.view = .ok v → p.view = .ok v' → q.view = .ok v'' →
      v'.places ++ v''.places = v.places → Parts bs ps → Parts (b :: bs) (p :: q :: ps)

variable {b p q : SpanBuffer} {bs ps bs' ps' input : List SpanBuffer} {v w : ConstDataBuf}
  {n d e : Nat} {memory : Nat → UInt8}

/-! ### Views -/

theorem view_eq (h : b.span.1 = true) : b.view = .ok b.span.2 := if_pos h

theorem view_eq_ok : b.view = .ok v ↔ b.span.1 = true ∧ b.span.2 = v := by
  unfold view
  split
  next h => rw [Except.ok.injEq, and_iff_right h]
  next h => exact iff_of_false nofun fun hv => h hv.1

/-- The view of a part of a view. -/
theorem view_ofView (h : d + e ≤ v.size) : (ofView v d e).view =
    .ok ⟨v.data + d, if e = 0 then v.size - d else e⟩ := by
  refine view_eq_ok.mpr ⟨?_, rfl⟩
  exact decide_eq_true (Nat.le_trans (Nat.mod_le _ _) h)

theorem view_null : null.view = .ok ⟨0, 0⟩ := rfl

theorem mem_places {a : Nat} : a ∈ v.places ↔ v.data ≤ a ∧ a < v.data + v.size :=
  List.mem_range'_1

theorem places_append (data d e : Nat) :
    (ConstDataBuf.mk data d).places ++ (ConstDataBuf.mk (data + d) e).places =
      (ConstDataBuf.mk data (d + e)).places := by
  simp only [ConstDataBuf.places, List.range'_append_1]

/-- A view lies inside its buffer, if its span does not wrap. -/
theorem inside_of_not_wraps (h : ¬b.Wraps) (hv : b.view = .ok v) {a : Nat} (ha : a ∈ v.places) :
    b.bufData ≤ a ∧ a < b.bufData + b.bufSize := by
  obtain ⟨hok, rfl⟩ := view_eq_ok.mp hv
  have hlt : b.spanOffset + b.spanSize < 2 ^ 64 := Nat.lt_of_not_le fun hge => h ⟨hok, hge⟩
  have hle := of_decide_eq_true hok
  rw [Nat.mod_eq_of_lt hlt] at hle
  have hmem := mem_places.mp ha
  unfold span at hmem
  dsimp only at hmem
  split at hmem <;> omega

/-- The last address of a span that wraps is in no buffer. -/
theorem Wraps.last (h : b.Wraps) (hstored : b.Stored) : ∃ a ∈ b.span.2.places, 2 ^ 64 ≤ a + 1 := by
  have hend := h.2
  have hoffset := hstored.offset
  have hsize : b.spanSize ≠ 0 := by omega
  refine ⟨b.bufData + b.spanOffset + b.spanSize - 1, mem_places.mpr ?_, by omega⟩
  simp only [span, if_neg hsize]
  omega

/-! ### Parts of buffers -/

namespace Parts

theorem refl : ∀ bs, Parts bs bs
  | [] => nil
  | _ :: bs => whole rfl (refl bs)

theorem append (h : Parts bs ps) (h' : Parts bs' ps') : Parts (bs ++ bs') (ps ++ ps') := by
  induction h with
  | nil => exact h'
  | whole hview _ ih => exact whole hview ih
  | cut hb hp hq hplaces _ ih => exact cut hb hp hq hplaces ih

theorem contents_eq (h : Parts bs ps) (memory : Nat → UInt8) :
    contents memory ps = contents memory bs := by
  induction h with
  | nil => rfl
  | whole hview _ ih => rw [contents, contents, hview, ih]
  | @cut b p q bs ps v v' v'' hb hp hq hplaces _ ih =>
    rw [contents, contents, contents, ih, hb, hp, hq]
    cases contents memory bs with
    | error e => rfl
    | ok rest =>
      refine congrArg Except.ok ?_
      rw [← List.append_assoc, ← List.map_append, hplaces]

/-- The view of a part is in one of the views. -/
theorem of_part (h : Parts bs ps) (hp : p ∈ ps) (hw : p.view = .ok w) :
    ∃ b ∈ bs, ∃ v, b.view = .ok v ∧ w.places ⊆ v.places := by
  induction h with
  | nil => cases hp
  | @whole b _ _ _ hview _ ih =>
    rcases List.mem_cons.mp hp with rfl | hp
    · exact ⟨b, List.mem_cons_self, w, hview.symm.trans hw, List.Subset.refl _⟩
    · obtain ⟨b', hb', hparts⟩ := ih hp
      exact ⟨b', List.mem_cons_of_mem _ hb', hparts⟩
  | @cut b _ _ _ _ v v' v'' hb hp' hq hplaces _ ih =>
    rcases List.mem_cons.mp hp with rfl | hp
    · obtain rfl : v' = w := Except.ok.inj (hp'.symm.trans hw)
      exact ⟨b, List.mem_cons_self, v, hb, hplaces ▸ List.subset_append_left _ _⟩
    rcases List.mem_cons.mp hp with rfl | hp
    · obtain rfl : v'' = w := Except.ok.inj (hq.symm.trans hw)
      exact ⟨b, List.mem_cons_self, v, hb, hplaces ▸ List.subset_append_right _ _⟩
    · obtain ⟨b', hb', hparts⟩ := ih hp
      exact ⟨b', List.mem_cons_of_mem _ hb', hparts⟩

/-- Every address of a view is in the view of a part. -/
theorem of_whole (h : Parts bs ps) (hb : b ∈ bs) (hv : b.view = .ok v) {a : Nat}
    (ha : a ∈ v.places) : ∃ p ∈ ps, ∃ w, p.view = .ok w ∧ a ∈ w.places := by
  induction h with
  | nil => cases hb
  | @whole _ p _ _ hview _ ih =>
    rcases List.mem_cons.mp hb with rfl | hb
    · exact ⟨p, List.mem_cons_self, v, hview.trans hv, ha⟩
    · obtain ⟨p, hp, hw⟩ := ih hb
      exact ⟨p, List.mem_cons_of_mem _ hp, hw⟩
  | @cut _ p q _ _ v₁ v' v'' hb' hp hq hplaces _ ih =>
    rcases List.mem_cons.mp hb with rfl | hb
    · obtain rfl : v₁ = v := Except.ok.inj (hb'.symm.trans hv)
      rw [← hplaces] at ha
      rcases List.mem_append.mp ha with ha | ha
      · exact ⟨p, List.mem_cons_self, v', hp, ha⟩
      · exact ⟨q, List.mem_cons_of_mem _ List.mem_cons_self, v'', hq, ha⟩
    · obtain ⟨p', hp', hw⟩ := ih hb
      exact ⟨p', List.mem_cons_of_mem _ (List.mem_cons_of_mem _ hp'), hw⟩

/-- Parts lie inside the buffers if and only if no span wraps. -/
theorem within_iff (h : Parts bs ps) (hstored : ∀ b ∈ bs, b.Stored) :
    Within bs ps ↔ ∀ b ∈ bs, ¬b.Wraps := by
  constructor
  · intro hwithin b hb hwraps
    obtain ⟨a, ha, hlast⟩ := hwraps.last (hstored b hb)
    obtain ⟨p, hp, w, hw, ha⟩ := h.of_whole hb (view_eq hwraps.1) ha
    obtain ⟨b', hb', hinside⟩ := hwithin p hp w hw
    have := (hinside a ha).2
    have := (hstored b' hb').inside
    omega
  · intro hwraps p hp w hw
    obtain ⟨b, hb, v, hv, hsub⟩ := h.of_part hp hw
    exact ⟨b, hb, fun a ha => inside_of_not_wraps (hwraps b hb) hv (hsub ha)⟩

end Parts

/-! ### Contents -/

/-- The bytes of buffers that have views. -/
def held (memory : Nat → UInt8) (bs : List SpanBuffer) : List UInt8 :=
  bs.flatMap fun b => b.span.2.places.map memory

theorem contents_eq (h : ∀ b ∈ bs, b.span.1 = true) (memory : Nat → UInt8) :
    contents memory bs = .ok (held memory bs) := by
  induction bs with
  | nil => rfl
  | cons b bs ih =>
    have hrest := List.forall_mem_cons.mp h
    rw [contents, view_eq hrest.1, ih hrest.2]
    rfl

theorem contents_single (hp : p.view = .ok w) (memory : Nat → UInt8) :
    contents memory [p] = .ok (w.places.map memory) := by
  rw [contents, hp]
  exact congrArg Except.ok (List.append_nil _)

theorem held_append (memory : Nat → UInt8) (bs bs' : List SpanBuffer) :
    held memory (bs ++ bs') = held memory bs ++ held memory bs' := List.flatMap_append

theorem held_single (memory : Nat → UInt8) (b : SpanBuffer) :
    held memory [b] = b.span.2.places.map memory := List.flatMap_singleton ..

theorem length_held (memory : Nat → UInt8) (bs : List SpanBuffer) :
    (held memory bs).length = total bs := by
  rw [held, List.length_flatMap, total]
  simp only [ConstDataBuf.places, List.length_map, List.length_range']

theorem total_cons (b : SpanBuffer) (bs : List SpanBuffer) :
    total (b :: bs) = b.span.2.size + total bs := List.sum_cons

theorem splits_ok_iff {left right : List SpanBuffer} (hok : ∀ b ∈ bs, b.span.1 = true) :
    Splits bs n (.ok (left, right)) ↔
      (∀ memory, contents memory left = .ok ((held memory bs).take n) ∧
        contents memory right = .ok ((held memory bs).drop n)) ∧ Within bs (left ++ right) := by
  constructor
  · rintro ⟨left', right', heq, hcontents, hwithin⟩
    obtain ⟨rfl, rfl⟩ := Prod.mk.inj (Except.ok.inj heq)
    exact ⟨fun memory => hcontents memory _ (contents_eq hok memory), hwithin⟩
  · rintro ⟨hcontents, hwithin⟩
    refine ⟨left, right, rfl, fun memory bytes hbytes => ?_, hwithin⟩
    obtain rfl := Except.ok.inj ((contents_eq hok memory).symm.trans hbytes)
    exact hcontents memory

/-- Buffers that are parted between two others. -/
theorem splits_between {left : List SpanBuffer} (hparts : Parts bs left)
    (hok : ∀ b ∈ bs ++ bs', b.span.1 = true) (hstored : ∀ b ∈ bs ++ bs', b.Stored)
    (hn : n ≤ total bs) :
    Splits (bs ++ bs') n (.ok (left, bs')) ↔
      (∀ b ∈ bs ++ bs', ¬b.Wraps) ∧ total bs = n := by
  have hbs := contents_eq fun b hb => hok b (List.mem_append_left _ hb)
  have hbs' := contents_eq fun b hb => hok b (List.mem_append_right _ hb)
  rw [splits_ok_iff hok, (hparts.append (Parts.refl bs')).within_iff hstored, and_comm]
  refine and_congr_right fun _ => ?_
  simp only [hparts.contents_eq, hbs, hbs', held_append, Except.ok.injEq]
  constructor
  · intro h
    have hlength := congrArg List.length (h fun _ => 0).1
    rw [List.length_take, List.length_append, length_held] at hlength
    omega
  · intro htotal memory
    rw [← htotal, ← length_held memory]
    exact ⟨List.take_left.symm, List.drop_left.symm⟩

/-- A buffer in two parts. -/
theorem splits_pair {v' v'' : ConstDataBuf} (hok : b.span.1 = true) (hstored : b.Stored)
    (hp : p.view = .ok v') (hq : q.view = .ok v'')
    (hplaces : v'.places ++ v''.places = b.span.2.places) (hsize : v'.size = n) :
    Splits [b] n (.ok ([p], [q])) ↔ ¬b.Wraps := by
  have hparts : Parts [b] ([p] ++ [q]) := .cut (view_eq hok) hp hq hplaces .nil
  rw [splits_ok_iff (List.forall_mem_singleton.mpr hok),
    hparts.within_iff (List.forall_mem_singleton.mpr hstored), List.forall_mem_singleton]
  refine and_iff_right fun memory => ?_
  have hlength : (v'.places.map memory).length = n := by
    rw [List.length_map, ConstDataBuf.places, List.length_range', hsize]
  have hheld : held memory [b] = v'.places.map memory ++ v''.places.map memory := by
    rw [held_single, ← List.map_append, hplaces]
  rw [hheld, List.take_left' hlength, List.drop_left' hlength]
  exact ⟨contents_single hp memory, contents_single hq memory⟩

/-! ### Splitting -/

section

open SpanBufferTraits

/-- **One buffer** is split as it should be, but for a span that wraps, and an empty first part of
a buffer that is not empty. -/
theorem split_iff (hok : b.span.1 = true) (hstored : b.Stored) (hn : n ≤ b.span.2.size) :
    Splits [b] n ((split b n).map fun r => ([r.1], [r.2])) ↔
      ¬b.Wraps ∧ (n = 0 → b.span.2.size = 0) := by
  have hview := view_eq hok
  have hnlt : ¬b.span.2.size < n := Nat.not_lt.mpr hn
  by_cases heq : b.span.2.size = n
  · have hsplit : split b n = .ok (b, null) := by
      rw [split, hview]
      exact (if_neg hnlt).trans (if_pos heq)
    rw [hsplit, and_iff_left heq.trans]
    exact splits_pair hok hstored hview view_null (List.append_nil _) heq
  have hsplit : split b n =
      .ok (ofView b.span.2 0 n, ofView b.span.2 n (b.span.2.size - n)) := by
    rw [split, hview]
    exact (if_neg hnlt).trans (if_neg heq)
  rw [hsplit]
  by_cases hzero : n = 0
  · -- a size of zero makes the left part all of the view
    subst hzero
    have hleft : (ofView b.span.2 0 0).view = .ok ⟨b.span.2.data, b.span.2.size⟩ :=
      view_ofView (Nat.zero_le _)
    refine iff_of_false (fun h => ?_) fun h => heq (h.2 rfl)
    have hcontents := (((splits_ok_iff (List.forall_mem_singleton.mpr hok)).mp h).1 fun _ => 0).1
    rw [contents_single hleft, List.take_zero, Except.ok.injEq] at hcontents
    have hlength := congrArg List.length hcontents
    rw [List.length_map, ConstDataBuf.places, List.length_range'] at hlength
    exact heq hlength
  · have hleft : (ofView b.span.2 0 n).view = .ok ⟨b.span.2.data, n⟩ := by
      rw [view_ofView (by omega), if_neg hzero]
      rfl
    have hright : (ofView b.span.2 n (b.span.2.size - n)).view =
        .ok ⟨b.span.2.data + n, b.span.2.size - n⟩ := by
      rw [view_ofView (by omega), if_neg (by omega)]
    have hplaces := places_append b.span.2.data n (b.span.2.size - n)
    rw [Nat.add_sub_cancel' hn] at hplaces
    rw [and_iff_left fun h => absurd h hzero]
    exact splits_pair hok hstored hleft hright hplaces rfl

theorem splitNext_eq (hok : b.span.1 = true) {s : Split} (hlt : s.sum + b.span.2.size < 2 ^ 64) :
    splitNext n s b = .ok (if n ≤ s.sum then ⟨s.left, s.right ++ [b], s.sum + b.span.2.size⟩
      else if n < s.sum + b.span.2.size then
        ⟨s.left ++ [ofView b.span.2 0 (s.sum + b.span.2.size - n),
          ofView b.span.2 (s.sum + b.span.2.size - n)
            (b.span.2.size - (s.sum + b.span.2.size - n))], s.right, s.sum + b.span.2.size⟩
      else ⟨s.left ++ [b], s.right, s.sum + b.span.2.size⟩) := by
  rw [splitNext, view_eq hok, ← Nat.mod_eq_of_lt hlt]
  by_cases hs : n ≤ s.sum
  · rw [if_pos hs]
    exact if_pos hs
  rw [if_neg hs]
  by_cases hcut : n < (s.sum + b.span.2.size) % 2 ^ 64
  · rw [if_pos hcut]
    exact (if_neg hs).trans (if_pos hcut)
  · rw [if_neg hcut]
    exact (if_neg hs).trans (if_neg hcut)

/-- When the cut is behind, buffers go to the right. -/
theorem foldlM_right (hok : ∀ b ∈ bs, b.span.1 = true) (s : Split) (hs : n ≤ s.sum)
    (hlt : s.sum + total bs < 2 ^ 64) :
    bs.foldlM (splitNext n) s = .ok ⟨s.left, s.right ++ bs, s.sum + total bs⟩ := by
  induction bs generalizing s with
  | nil =>
    rw [List.append_nil]
    rfl
  | cons b bs ih =>
    have hrest := List.forall_mem_cons.mp hok
    rw [total_cons] at hlt ⊢
    rw [List.foldlM_cons, splitNext_eq hrest.1 (by omega), if_pos hs]
    refine (ih hrest.2 _ (Nat.le_add_right_of_le hs) (by dsimp only; omega)).trans ?_
    simp only [List.append_assoc, List.singleton_append, Nat.add_assoc]

/-- A buffer that is cut, with something on both sides. -/
theorem parts_cut {b : SpanBuffer} (hb : b.span.1 = true) {d : Nat} (hpos : 0 < d)
    (hlt : d < b.span.2.size) :
    Parts [b] [ofView b.span.2 0 d, ofView b.span.2 d (b.span.2.size - d)] := by
  have hleft : (ofView b.span.2 0 d).view = .ok ⟨b.span.2.data, d⟩ := by
    rw [view_ofView (by omega), if_neg (by omega)]
    rfl
  have hright : (ofView b.span.2 d (b.span.2.size - d)).view =
      .ok ⟨b.span.2.data + d, b.span.2.size - d⟩ := by
    rw [view_ofView (by omega), if_neg (by omega)]
  have hplaces := places_append b.span.2.data d (b.span.2.size - d)
  rw [Nat.add_sub_cancel' (by omega)] at hplaces
  exact .cut (view_eq hb) hleft hright hplaces .nil

/-- The loop of `split` ends with the buffers in front of a boundary at or behind the cut, in
parts, and with those that come after. -/
theorem foldlM_split (hok : ∀ b ∈ bs, b.span.1 = true) (s : Split)
    (hlt : s.sum + total bs < 2 ^ 64) (hs : s.sum ≤ n) (hn : n ≤ s.sum + total bs) :
    ∃ k left sum, bs.foldlM (splitNext n) s =
        .ok ⟨s.left ++ left, s.right ++ bs.drop k, sum⟩ ∧
      Parts (bs.take k) left ∧ n ≤ s.sum + total (bs.take k) ∧
      ((∃ i, s.sum + total (bs.take i) = n) → s.sum + total (bs.take k) = n) := by
  induction bs generalizing s with
  | nil =>
    have heq : s.sum = n := Nat.le_antisymm hs hn
    refine ⟨0, [], s.sum, ?_, .nil, hn, fun _ => heq⟩
    rw [List.append_nil]
    exact congrArg Except.ok (by rw [List.drop_zero, List.append_nil])
  | cons b bs ih =>
    rcases Nat.eq_or_lt_of_le hs with heq | hs
    · refine ⟨0, [], s.sum + total (b :: bs), ?_, .nil, (Nat.le_of_eq heq.symm), fun _ => heq⟩
      rw [foldlM_right hok s (Nat.le_of_eq heq.symm) hlt, List.append_nil]
      rfl
    have hrest := List.forall_mem_cons.mp hok
    rw [total_cons] at hlt hn
    rw [List.foldlM_cons, splitNext_eq hrest.1 (by omega), if_neg (Nat.not_le.mpr hs)]
    by_cases hcut : n < s.sum + b.span.2.size
    · -- both parts of this buffer go to the left, and all others to the right
      rw [if_pos hcut]
      generalize hd : s.sum + b.span.2.size - n = d
      refine ⟨1, _, _, foldlM_right hrest.2 _ (Nat.le_of_lt hcut) (by dsimp only; omega),
        parts_cut hrest.1 (by omega) (by omega), ?_, ?_⟩
      · rw [List.take_succ_cons, total_cons]
        omega
      · rintro ⟨i, hi⟩
        cases i with
        | zero => exact absurd hi (Nat.ne_of_lt hs)
        | succ i =>
          rw [List.take_succ_cons, total_cons] at hi
          omega
    · rw [if_neg hcut]
      obtain ⟨k, left, sum, hrun, hparts, hk, hexact⟩ := ih hrest.2
        ⟨s.left ++ [b], s.right, s.sum + b.span.2.size⟩ (by dsimp only; omega)
        (Nat.not_lt.mp hcut) (by dsimp only; omega)
      dsimp only at hk hexact
      refine ⟨k + 1, b :: left, sum, hrun.trans ?_, .whole rfl hparts, ?_, ?_⟩
      · rw [List.append_assoc]
        rfl
      · rw [List.take_succ_cons, total_cons]
        omega
      · rintro ⟨i, hi⟩
        rw [List.take_succ_cons, total_cons, ← Nat.add_assoc]
        refine hexact ?_
        cases i with
        | zero => exact absurd hi (Nat.ne_of_lt hs)
        | succ i => exact ⟨i, by rw [← hi, List.take_succ_cons, total_cons, Nat.add_assoc]⟩

/-- **A list** is split as it should be if and only if the cut is between two buffers, and no span
wraps. -/
theorem splits_iff (hok : ∀ b ∈ bs, b.span.1 = true) (hstored : ∀ b ∈ bs, b.Stored)
    (hlt : total bs < 2 ^ 64) (hn : n ≤ total bs) :
    Splits bs n (splits bs n) ↔ (∀ b ∈ bs, ¬b.Wraps) ∧ ∃ i, total (bs.take i) = n := by
  obtain ⟨k, left, sum, hrun, hparts, hk, hexact⟩ := foldlM_split hok ⟨[], [], 0⟩
    (by rwa [Nat.zero_add]) (Nat.zero_le n) (by rwa [Nat.zero_add])
  have hsplits : splits bs n = .ok (left, bs.drop k) := by
    rw [splits, hrun]
    rfl
  simp only [Nat.zero_add] at hk hexact
  have hbetween := @splits_between (bs.take k) (bs.drop k) n left hparts
  rw [List.take_append_drop] at hbetween
  rw [hsplits, hbetween hok hstored hk]
  exact and_congr_right fun _ => ⟨fun h => ⟨k, h⟩, hexact⟩

/-! ### Extracting -/

/-- The view of the buffer has the bytes that are asked for. -/
def Holds (b : SpanBuffer) (n : Nat) : Prop := b.span.1 = true ∧ n ≤ b.span.2.size

theorem extracts_of_parts {rest : List SpanBuffer} (hparts : Parts bs (ofView v 0 0 :: rest))
    (hstored : ∀ b ∈ bs, b.Stored) (hsize : v.size = n) :
    Extracts bs n (.ok (v, rest)) ↔ ∀ b ∈ bs, ¬b.Wraps := by
  have hcontents : ∀ memory held, contents memory bs = .ok held →
      v.places.map memory = held.take n ∧ contents memory rest = .ok (held.drop n) := by
    intro memory held hheld
    have hview : (ofView v 0 0).view = .ok v := view_ofView (Nat.zero_le _)
    rw [← hparts.contents_eq, contents, hview] at hheld
    have hlength : (v.places.map memory).length = n := by
      rw [List.length_map, ConstDataBuf.places, List.length_range', hsize]
    cases hrest : contents memory rest with
    | error e =>
      rw [hrest] at hheld
      cases hheld
    | ok bytes =>
      rw [hrest] at hheld
      obtain rfl := Except.ok.inj hheld
      exact ⟨(List.take_left' hlength).symm, congrArg Except.ok (List.drop_left' hlength).symm⟩
  rw [← hparts.within_iff hstored]
  constructor
  · exact fun h => (h v rest rfl).2
  · rintro hwithin front rest' heq
    obtain ⟨rfl, rfl⟩ := Prod.mk.inj (Except.ok.inj heq)
    exact ⟨hcontents, hwithin⟩

/-- The prefix of a buffer and what comes after it are its parts. -/
theorem parts_front (h : b.Holds n) (bs : List SpanBuffer) :
    Parts (b :: bs) (ofView ⟨b.span.2.data, n⟩ 0 0 :: ofView b.span.2 n 0 :: bs) := by
  have hplaces := places_append b.span.2.data n (b.span.2.size - n)
  rw [Nat.add_sub_cancel' h.2] at hplaces
  exact .cut (view_eq h.1) (view_ofView (Nat.zero_le _)) (view_ofView h.2) hplaces (.refl bs)

theorem extracts_error (e : CommonError) : Extracts bs n (.error e) := nofun

theorem extractPrefix_error (h : ¬b.Holds n) : extractPrefix b n = .error .invalidSize := by
  rw [extractPrefix, view]
  by_cases hok : b.span.1 = true
  · rw [if_pos hok]
    exact if_pos (Nat.lt_of_not_le fun hn => h ⟨hok, hn⟩)
  · rw [if_neg hok]
    rfl

theorem extractPrefixes_error (h : ¬b.Holds n) (bs : List SpanBuffer) :
    extractPrefixes (b :: bs) n = .error .invalidSize := by
  rw [extractPrefixes, view]
  by_cases hok : b.span.1 = true
  · rw [if_pos hok]
    exact if_pos (Nat.lt_of_not_le fun hn => h ⟨hok, hn⟩)
  · rw [if_neg hok]
    rfl

/-- **A prefix of one buffer** is what it should be, but for a span that wraps. -/
theorem extractPrefix_iff (hstored : b.Stored) :
    Extracts [b] n ((extractPrefix b n).map fun r => (r.1, [r.2])) ↔ (b.Holds n → ¬b.Wraps) := by
  by_cases hholds : b.Holds n
  · have hextract : extractPrefix b n = .ok (⟨b.span.2.data, n⟩, ofView b.span.2 n 0) := by
      rw [extractPrefix, view_eq hholds.1]
      exact if_neg (Nat.not_lt.mpr hholds.2)
    rw [hextract, imp_iff_right hholds, ← List.forall_mem_singleton (p := fun b => ¬Wraps b)]
    exact extracts_of_parts (parts_front hholds []) (List.forall_mem_singleton.mpr hstored) rfl
  · rw [extractPrefix_error hholds]
    exact iff_of_true (extracts_error _) fun h => absurd h hholds

/-- **A prefix of a list** is what it should be, but for a span that wraps. -/
theorem extractPrefixes_iff (hstored : ∀ b ∈ bs, b.Stored) :
    Extracts bs n (extractPrefixes bs n) ↔
      ((∃ front ∈ bs.head?, front.Holds n) → ∀ b ∈ bs, ¬b.Wraps) := by
  cases bs with
  | nil => exact iff_of_true (extracts_error _) fun _ => List.forall_mem_nil _
  | cons b bs =>
    have hfront : (∃ front ∈ (b :: bs).head?, front.Holds n) ↔ b.Holds n := by
      simp only [List.head?_cons, Option.mem_some_iff, exists_eq_left']
    rw [hfront]
    by_cases hholds : b.Holds n
    · rw [imp_iff_right hholds]
      by_cases hused : b.span.2.size = n ∧ bs = []
      · obtain ⟨rfl, rfl⟩ := hused
        have hextract : extractPrefixes [b] b.span.2.size = .ok (b.span.2, []) := by
          rw [extractPrefixes, view_eq hholds.1]
          exact (if_neg (Nat.lt_irrefl _)).trans (if_pos ⟨rfl, rfl⟩)
        have hview : (ofView b.span.2 0 0).view = b.view :=
          (view_ofView (Nat.zero_le _)).trans (view_eq hholds.1).symm
        rw [hextract]
        exact extracts_of_parts (.whole hview .nil) hstored rfl
      · have hextract : extractPrefixes (b :: bs) n =
            .ok (⟨b.span.2.data, n⟩, ofView b.span.2 n 0 :: bs) := by
          rw [extractPrefixes, view_eq hholds.1]
          exact (if_neg (Nat.not_lt.mpr hholds.2)).trans (if_neg hused)
        rw [hextract]
        exact extracts_of_parts (parts_front hholds bs) hstored rfl
    · rw [extractPrefixes_error hholds]
      exact iff_of_true (extracts_error _) fun h => absurd h hholds

/-- **Buffers are cut** as they should be: a split of one buffer, if the left part is not empty or
the buffer is; a split of a list, between two buffers; an extraction always.  No span may wrap. -/
theorem cuts_right_iff {b' : SpanBuffer} {m k : Nat} (hb : b.Stored) (hbs : ∀ b ∈ bs, b.Stored)
    (hb' : b'.Stored) (hbs' : ∀ b ∈ bs', b.Stored) (hn : b.Holds n)
    (hviews : ∀ b ∈ bs, b.span.1 = true) (hlt : total bs < 2 ^ 64) (hm : m ≤ total bs) :
    (Splits [b] n ((split b n).map fun r => ([r.1], [r.2])) ↔
        ¬b.Wraps ∧ (n = 0 → b.span.2.size = 0)) ∧
      (Splits bs m (splits bs m) ↔ (∀ b ∈ bs, ¬b.Wraps) ∧ ∃ i, total (bs.take i) = m) ∧
      (Extracts [b'] k ((extractPrefix b' k).map fun r => (r.1, [r.2])) ↔
        (b'.Holds k → ¬b'.Wraps)) ∧
      (Extracts bs' k (extractPrefixes bs' k) ↔
        ((∃ front ∈ bs'.head?, front.Holds k) → ∀ b ∈ bs', ¬b.Wraps)) :=
  ⟨split_iff hn.1 hb hn.2, splits_iff hviews hbs hlt hm, extractPrefix_iff hb',
    extractPrefixes_iff hbs'⟩

/-- A buffer of four bytes. -/
def four : SpanBuffer := ⟨64, 4, 0, 0⟩

theorem four_stored : four.Stored := ⟨by decide, by decide, by decide⟩

theorem cuts_right_sample :
    (Splits [four] 2 ((split four 2).map fun r => ([r.1], [r.2])) ↔
        ¬four.Wraps ∧ (2 = 0 → four.span.2.size = 0)) ∧
      (Splits [four] 1 (splits [four] 1) ↔
        (∀ b ∈ [four], ¬b.Wraps) ∧ ∃ i, total ([four].take i) = 1) ∧
      (Extracts [four] 4 ((extractPrefix four 4).map fun r => (r.1, [r.2])) ↔
        (four.Holds 4 → ¬four.Wraps)) ∧
      (Extracts [four] 4 (extractPrefixes [four] 4) ↔
        ((∃ front ∈ [four].head?, front.Holds 4) → ∀ b ∈ [four], ¬b.Wraps)) :=
  cuts_right_iff four_stored (List.forall_mem_singleton.mpr four_stored) four_stored
    (List.forall_mem_singleton.mpr four_stored) ⟨rfl, by decide⟩
    (List.forall_mem_singleton.mpr rfl) (by decide) (by decide)

/-- A list of one buffer is not split after its first byte: both parts are left ones. -/
theorem right_part_is_left : ¬ ∀ (bs : List SpanBuffer) (n : Nat), (∀ b ∈ bs, b.Stored) →
    (∀ b ∈ bs, b.span.1 = true) → total bs < 2 ^ 64 → n ≤ total bs →
    Splits bs n (splits bs n) := by
  intro h
  have hsplits := h [four] 1 (List.forall_mem_singleton.mpr four_stored)
    (List.forall_mem_singleton.mpr rfl) (by decide) (by decide)
  obtain ⟨left, right, heq, hcontents, -⟩ := hsplits
  obtain ⟨rfl, rfl⟩ := Prod.mk.inj (Except.ok.inj heq)
  have hleft := (hcontents (fun _ => 0) [0, 0, 0, 0] rfl).1
  exact absurd hleft (by decide)

end

end SpanBuffer

end Hatn.Common
