import Hatn.Crypt.CipherWorker

/-!
# Digests of scattered data

`DigestBase::process` feeds the buffers of a message, without an offset in the first one and
without one from the end of the last.  The size that is left of a buffer is computed first, and
the container version of `process` takes a size of zero for the rest of the buffer: a last buffer
that is left out as a whole is fed as a whole (`fed_iff`).

`MAC::finalizeAndVerify` compares as many bytes as the computed tag and the given one both have,
so that a tag that is empty or too long may be accepted (`verifies_prefix_iff`).
-/

namespace Hatn.Crypt

/-- `checkInContainerSize` with an offset from the end. -/
def checkInContainerSizeBack (containerSize offset processSize backOffset : Nat) : Option Nat :=
  if processSize = 0 then
    if containerSize < offset + backOffset then none
    else some (containerSize - offset - backOffset)
  else if containerSize < processSize + offset then none
  else if processSize < backOffset then none
  else some (processSize - backOffset)

theorem checkInContainerSizeBack_zero (containerSize offset processSize : Nat) :
    checkInContainerSizeBack containerSize offset processSize 0 =
      checkInContainerSize containerSize offset processSize := by
  rw [checkInContainerSizeBack, checkInContainerSize]
  simp only [Nat.add_zero, Nat.sub_zero, Nat.not_lt_zero, if_false]

namespace MAC

/-- `process` of a `SpanBuffer`, with both offsets. -/
def processSpan (m : MAC) (view : Bytes) (offset backOffset : Nat) : Except Error MAC :=
  match checkInContainerSizeBack view.length offset 0 backOffset with
  | none => .error .invalidSize
  | some size => m.process view size offset

/-- The loop over `SpanBuffers`: the first buffer has the offset, the last one that from its end. -/
def processSpans : MAC → List Bytes → (offset backOffset : Nat) → Except Error MAC
  | m, [], _, _ => .ok m
  | m, [b], offset, backOffset => m.processSpan b offset backOffset
  | m, b :: b' :: bs, offset, backOffset =>
    match m.processSpan b offset 0 with
    | .error e => .error e
    | .ok m => processSpans m (b' :: bs) 0 backOffset

theorem processSpan_zero (m : MAC) (b : Bytes) (offset : Nat) :
    m.processSpan b offset 0 = m.processBuffer b offset := by
  rw [processSpan, processBuffer]
  cases hcheck : checkInContainerSize b.length offset 0 <;>
    simp only [checkInContainerSizeBack_zero, hcheck]

/-- Without an offset from the end, this is the loop that the ciphers use. -/
theorem processSpans_zero (bs : List Bytes) : ∀ (m : MAC) (offset : Nat),
    m.processSpans bs offset 0 = m.processBuffers bs offset := by
  induction bs with
  | nil => exact fun _ _ => rfl
  | cons b bs ih =>
    intro m offset
    cases bs with
    | nil =>
      rw [processSpans, processSpan_zero, processBuffers]
      cases m.processBuffer b offset <;> rfl
    | cons b' bs =>
      rw [processSpans, processSpan_zero, processBuffers]
      cases m.processBuffer b offset with
      | error e => rfl
      | ok m' => exact ih m' 0

/-! ### What is fed -/

/-- The bytes of a message without the first and the last ones. -/
def between (l : Bytes) (offset backOffset : Nat) : Bytes :=
  (l.drop offset).take (l.length - offset - backOffset)

/-- The offsets lie in the first and in the last buffer, and do not cross. -/
structure Trims (bs : List Bytes) (offset backOffset : Nat) : Prop where
  nonempty : bs ≠ []
  first : offset ≤ (bs.headD []).length
  last : backOffset ≤ (bs.getLastD []).length
  both : offset + backOffset ≤ bs.flatten.length

/-- The algorithm is fed the concatenation of the buffers without the offsets. -/
def Feeds (bs : List Bytes) (offset backOffset : Nat) : Prop :=
  ∀ fed, processSpans ⟨true, fed⟩ bs offset backOffset =
    .ok ⟨true, fed ++ between bs.flatten offset backOffset⟩

/-- Something of the last buffer is left, where an offset from its end is given. -/
def KeepsLast (bs : List Bytes) (offset backOffset : Nat) : Prop :=
  backOffset = 0 ∨ (if bs.length = 1 then offset else 0) + backOffset < (bs.getLastD []).length

/-- What is fed of a buffer. -/
def fedOf (b : Bytes) (offset backOffset : Nat) : Bytes :=
  if offset + backOffset = b.length then b.drop offset else between b offset backOffset

variable {fed b : Bytes} {offset backOffset : Nat}

theorem processSpan_initialized (h : offset + backOffset ≤ b.length) :
    processSpan ⟨true, fed⟩ b offset backOffset = .ok ⟨true, fed ++ fedOf b offset backOffset⟩ := by
  have hoffset : offset ≤ b.length := Nat.le_trans (Nat.le_add_right _ _) h
  rw [processSpan, checkInContainerSizeBack, if_pos rfl, if_neg (Nat.not_lt.mpr h), fedOf]
  dsimp only
  split
  next heq =>
    -- the size is zero, which stands for the rest
    exact process_initialized hoffset _ (.inl (by omega))
  next hne =>
    have hsize : b.length - offset - backOffset ≠ 0 := by omega
    have hfits : ¬b.length < b.length - offset - backOffset + offset := by omega
    rw [process, checkInContainerSize, if_neg hsize, if_neg hfits]
    rfl

/-- The buffers before the last one are fed behind the offset, and then comes the last one. -/
theorem processSpans_initialized (backOffset : Nat) (last : Bytes) (bs : List Bytes) :
    ∀ (fed : Bytes) (offset : Nat),
    (bs = [] → offset + backOffset ≤ last.length) → (bs ≠ [] → offset ≤ (bs.headD []).length) →
      backOffset ≤ last.length →
      processSpans ⟨true, fed⟩ (bs ++ [last]) offset backOffset =
        .ok ⟨true, fed ++ (bs.flatten.drop offset ++
          fedOf last (if bs = [] then offset else 0) backOffset)⟩ := by
  induction bs with
  | nil =>
    intro fed offset hone _ _
    rw [List.nil_append, processSpans, processSpan_initialized (hone rfl), List.flatten_nil,
      List.drop_nil, List.nil_append, if_pos rfl]
  | cons b bs ih =>
    intro fed offset _ hfirst hlast
    have hoffset : offset ≤ b.length := hfirst (List.cons_ne_nil b bs)
    obtain ⟨b', bs', hbs⟩ : ∃ b' bs', bs ++ [last] = b' :: bs' :=
      List.exists_cons_of_ne_nil (List.append_ne_nil_of_right_ne_nil bs (List.cons_ne_nil last []))
    have hstep : processSpans ⟨true, fed⟩ (b :: bs ++ [last]) offset backOffset =
        processSpans ⟨true, fed ++ b.drop offset⟩ (bs ++ [last]) 0 backOffset := by
      rw [List.cons_append, hbs, processSpans, processSpan_zero, processBuffer_initialized hoffset]
    rw [hstep, ih _ 0 (fun _ => by rwa [Nat.zero_add]) (fun _ => Nat.zero_le _) hlast,
      List.flatten_cons, List.drop_append_of_le_length hoffset, List.drop_zero, ite_self,
      if_neg (List.cons_ne_nil b bs), List.append_assoc, List.append_assoc]

theorem between_append {l last : Bytes} (h : offset ≤ l.length) (hlast : backOffset ≤ last.length) :
    between (l ++ last) offset backOffset = l.drop offset ++ between last 0 backOffset := by
  have hsize : (l ++ last).length - offset - backOffset =
      (l.drop offset).length + (last.length - backOffset) := by
    rw [List.length_append, List.length_drop]
    omega
  rw [between, hsize, List.drop_append_of_le_length h, List.take_length_add_append]
  rfl

/-- What is fed of a buffer is what it should be, or what is left out as well. -/
theorem fedOf_eq_iff (h : offset + backOffset ≤ b.length) :
    fedOf b offset backOffset = between b offset backOffset ↔
      backOffset = 0 ∨ offset + backOffset < b.length := by
  rw [fedOf]
  split
  next heq =>
    have hnil : between b offset backOffset = [] := by
      rw [between, show b.length - offset - backOffset = 0 by omega, List.take_zero]
    rw [hnil, List.drop_eq_nil_iff]
    omega
  next hne => exact iff_of_true rfl (.inr (by omega))

/-- **The buffers are fed as they should be** just when the last one is not left out as a whole. -/
theorem fed_iff {bs : List Bytes} (h : Trims bs offset backOffset) :
    Feeds bs offset backOffset ↔ KeepsLast bs offset backOffset := by
  obtain ⟨bs, last, rfl⟩ := (List.eq_nil_or_concat bs).resolve_left h.nonempty
  rw [List.concat_eq_append] at h ⊢
  have hlast : backOffset ≤ last.length := by
    have hle := h.last
    rwa [List.getLastD_concat] at hle
  have hflatten : (bs ++ [last]).flatten = bs.flatten ++ last := by
    rw [List.flatten_append, List.flatten_singleton]
  have hrun := processSpans_initialized backOffset last bs
  rw [Feeds, KeepsLast, List.getLastD_concat, hflatten, List.length_append, List.length_singleton]
  cases bs with
  | nil =>
    have hboth : offset + backOffset ≤ last.length := by
      have hle := h.both
      rwa [hflatten] at hle
    have hrun := fun fed => hrun fed offset (fun _ => hboth) (absurd rfl) hlast
    simp only [List.flatten_nil, List.drop_nil, List.nil_append, if_true] at hrun
    simp only [List.flatten_nil, List.nil_append, List.length_nil, Nat.zero_add, if_true, hrun,
      Except.ok.injEq, MAC.mk.injEq, true_and, List.append_cancel_left_eq, forall_const]
    exact fedOf_eq_iff hboth
  | cons b bs =>
    have hfirst : offset ≤ b.length := h.first
    have hrun := fun fed => hrun fed offset (fun h => absurd h (List.cons_ne_nil b bs))
      (fun _ => hfirst) hlast
    have hle : offset ≤ (b :: bs).flatten.length := by
      rw [List.flatten_cons, List.length_append]
      omega
    rw [if_neg (by rw [List.length_cons]; omega), between_append hle hlast]
    simp only [hrun, if_neg (List.cons_ne_nil b bs), Except.ok.injEq, MAC.mk.injEq, true_and,
      List.append_cancel_left_eq, forall_const]
    exact fedOf_eq_iff (by rwa [Nat.zero_add])

/-! ### What is verified -/

variable (hash : Bytes → Bytes)

/-- A tag is accepted only if it is a prefix of the MAC, and not empty. -/
def VerifiesPrefix (dataIn : List Bytes) (tag : Bytes) : Prop :=
  (∃ m, runVerify hash dataIn tag = .ok m) → tag ≠ [] ∧ tag <+: hash dataIn.flatten

/-- A tag is accepted just when one of the tag and the MAC is a prefix of the other. -/
theorem runVerify_ok_iff (dataIn : List Bytes) (tag : Bytes) :
    (∃ m, runVerify hash dataIn tag = .ok m) ↔
      tag <+: hash dataIn.flatten ∨ hash dataIn.flatten <+: tag := by
  have hrun : runVerify hash dataIn tag = finalizeAndVerify hash ⟨true, dataIn.flatten⟩ tag := by
    rw [runVerify, init, processBuffers_initialized]
    rfl
  have hok : (∃ m, runVerify hash dataIn tag = .ok m) ↔
      verifies hash tag dataIn.flatten = true := by
    rw [hrun, finalizeAndVerify_initialized]
    split
    next h => exact iff_of_true ⟨_, rfl⟩ h
    next h => exact iff_of_false nofun h
  rw [hok, verifies, decide_eq_true_eq]
  rcases Nat.le_total tag.length (hash dataIn.flatten).length with h | h
  · rw [Nat.min_eq_right h, List.take_length]
    refine ⟨fun heq => .inl (heq ▸ List.take_prefix _ _), ?_⟩
    rintro (hfront | hfront)
    · exact (List.prefix_iff_eq_take.mp hfront).symm
    · have heq := hfront.eq_of_length_le h
      rw [heq, List.take_length]
  · rw [Nat.min_eq_left h, List.take_length]
    refine ⟨fun heq => .inr (heq ▸ List.take_prefix _ _), ?_⟩
    rintro (hfront | hfront)
    · have heq := hfront.eq_of_length_le h
      rw [heq, List.take_length]
    · exact List.prefix_iff_eq_take.mp hfront

/-- **Only prefixes of the MAC are accepted** unless the tag is empty, or is the MAC and more. -/
theorem verifies_prefix_iff (dataIn : List Bytes) (tag : Bytes) :
    VerifiesPrefix hash dataIn tag ↔
      ¬(tag = [] ∨ hash dataIn.flatten <+: tag ∧ tag ≠ hash dataIn.flatten) := by
  rw [VerifiesPrefix, runVerify_ok_iff]
  constructor
  · rintro h (rfl | ⟨hfront, hne⟩)
    · exact (h (.inl (List.nil_prefix))).1 rfl
    · exact hne ((h (.inr hfront)).2.eq_of_length_le hfront.length_le)
  · intro h hok
    obtain ⟨hnil, hmore⟩ := not_or.mp h
    refine ⟨hnil, hok.elim id fun hfront => ?_⟩
    rw [not_and, not_not] at hmore
    exact (hmore hfront).symm ▸ List.prefix_rfl

/-- **Digests over buffers** are fed the message, and tags are verified, as they should be just when
the last buffer is not left out as a whole, and the tag is neither empty nor the MAC and more. -/
theorem digest_right_iff {bs : List Bytes} {offset backOffset : Nat}
    (h : Trims bs offset backOffset) (dataIn : List Bytes) (tag : Bytes) :
    (Feeds bs offset backOffset ↔ KeepsLast bs offset backOffset) ∧
      (VerifiesPrefix hash dataIn tag ↔
        ¬(tag = [] ∨ hash dataIn.flatten <+: tag ∧ tag ≠ hash dataIn.flatten)) :=
  ⟨fed_iff h, verifies_prefix_iff hash dataIn tag⟩

theorem sample_trims : Trims [[1, 2], [3, 4]] 1 1 := ⟨nofun, by decide, by decide, by decide⟩

theorem digest_right_sample :
    (Feeds [[1, 2], [3, 4]] 1 1 ↔ KeepsLast [[1, 2], [3, 4]] 1 1) ∧
      (VerifiesPrefix (fun _ => [7, 8]) [[1]] [7] ↔
        ¬([(7 : UInt8)] = [] ∨ [7, 8] <+: [(7 : UInt8)] ∧ [(7 : UInt8)] ≠ [7, 8])) :=
  digest_right_iff (fun _ => [7, 8]) sample_trims [[1]] [7]

/-- A last buffer of one byte is fed although it is left out, and the empty tag is accepted. -/
theorem last_buffer_is_fed : Trims [[1], [2]] 0 1 ∧ ¬ Feeds [[1], [2]] 0 1 ∧
    ¬ VerifiesPrefix (fun _ => [7]) [[1]] [] := by
  have htrims : Trims [[1], [2]] 0 1 := ⟨nofun, by decide, by decide, by decide⟩
  refine ⟨htrims, fun h => ?_, fun h => (h ⟨_, rfl⟩).1 rfl⟩
  rcases (fed_iff htrims).mp h with h | h
  · exact absurd h (by decide)
  · exact absurd h (by decide)

end MAC

end Hatn.Crypt
