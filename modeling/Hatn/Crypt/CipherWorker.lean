import Mathlib.Data.List.Basic

/-!
# Workers of ciphers and digests

`CipherWorker` processes a part of an input buffer and puts the result behind a part of the
output buffer; what it does with the bytes is left to the cipher.  The template is used for the
cipher of a backend as well as for a whole AEAD cipher.  `MAC` feeds the bytes of buffers to a
hash.  Input comes in one buffer or in many.
-/

namespace Hatn.Crypt

abbrev Bytes := List UInt8

/-- The errors of ciphers and digests; `backend` stands for those of a backend. -/
inductive Error
  | invalidSize
  | invalidCipherState
  | invalidDigestState
  | invalidMacState
  | decryptionFailed
  | macFailed
  | backend
  deriving DecidableEq

/-- The result of a backend. -/
def ofBackend {α : Type} : Option α → Except Error α
  | none => .error .backend
  | some a => .ok a

@[simp] theorem ofBackend_some {α : Type} (a : α) : ofBackend (some a) = .ok a := rfl

@[simp] theorem ofBackend_none {α : Type} : ofBackend (none : Option α) = .error .backend := rfl

/-- A `SpanBuffer` or `SpanBuffers`, by the views of the buffers. -/
inductive Data
  | buffer (b : Bytes)
  | buffers (bs : List Bytes)

namespace Data

def toList : Data → List Bytes
  | buffer b => [b]
  | buffers bs => bs

def bytes (d : Data) : Bytes := d.toList.flatten

@[simp] theorem bytes_buffer (b : Bytes) : (buffer b).bytes = b := List.flatten_singleton

@[simp] theorem bytes_buffers (bs : List Bytes) : (buffers bs).bytes = bs.flatten := rfl

end Data

/-- `checkInContainerSize`: the size to process, where none is given the rest of the container. -/
def checkInContainerSize (containerSize offset processSize : Nat) : Option Nat :=
  if processSize = 0 then
    if containerSize < offset then none else some (containerSize - offset)
  else if containerSize < processSize + offset then none
  else some processSize

/-- The rest of a container, given by its size or by none. -/
theorem checkInContainerSize_rest {containerSize offset size : Nat} (h : offset ≤ containerSize)
    (hsize : size = 0 ∨ size = containerSize - offset) :
    checkInContainerSize containerSize offset size = some (containerSize - offset) := by
  unfold checkInContainerSize
  by_cases h0 : size = 0
  · rw [if_pos h0, if_neg (Nat.not_lt.mpr h)]
  · rw [if_neg h0, if_neg (by omega), hsize.resolve_left h0]

/-- `resize`; what is new comes from the memory. -/
def resize (buf : Bytes) (size : Nat) (memory : Nat → UInt8) : Bytes :=
  buf.take size ++ (List.range (size - buf.length)).map memory

theorem length_resize (buf : Bytes) (size : Nat) (memory : Nat → UInt8) :
    (resize buf size memory).length = size := by
  rw [resize, List.length_append, List.length_take, List.length_map, List.length_range]
  omega

/-- The first bytes of a buffer stay when it is resized. -/
theorem take_prefix_resize (buf : Bytes) {n size : Nat} (h : n ≤ size) (memory : Nat → UInt8) :
    buf.take n <+: (resize buf size memory).take n := by
  rw [resize, List.take_append, List.take_take, Nat.min_eq_left h]
  exact List.prefix_append _ _

/-- What a `CipherWorker` with states `σ` leaves to the cipher: `m_initialized`, which `finalize`
resets, and `doProcess`, which returns what was put into the output buffer. -/
structure CipherWorker (σ : Type) where
  initialized : σ → Bool
  close : σ → σ
  doProcess : σ → (bufIn : Bytes) → (lastBlock : Bool) → Except Error (σ × Bytes)

namespace CipherWorker

variable {σ : Type} (w : CipherWorker σ)

/-- `process`; the result is the output buffer up to the size that is returned. -/
def process (s : σ) (dataIn dataOut : Bytes) (sizeIn offsetIn offsetOut : Nat)
    (lastBlock : Bool) : Except Error (σ × Bytes) :=
  if !w.initialized s then .error .invalidCipherState
  else
    match checkInContainerSize dataIn.length offsetIn sizeIn with
    | none => .error .invalidSize
    | some sizeIn =>
      if dataOut.length < offsetOut then .error .invalidSize
      else if sizeIn = 0 ∧ lastBlock = false then .ok (s, dataOut.take offsetOut)
      else
        match w.doProcess s ((dataIn.drop offsetIn).take sizeIn) lastBlock with
        | .error e => .error e
        | .ok (s, out) => .ok (s, dataOut.take offsetOut ++ out)

/-- `finalize` -/
def finalize (s : σ) (dataOut : Bytes) (offsetOut : Nat) : Except Error (σ × Bytes) :=
  if !w.initialized s then .error .invalidCipherState
  else
    match w.doProcess (w.close s) [] true with
    | .error e => .error e
    | .ok (s, out) => .ok (s, dataOut.take offsetOut ++ out)

/-- A loop over buffers, each put behind what is there. -/
def processAll : σ → List Bytes → (dataOut : Bytes) → Except Error (σ × Bytes)
  | s, [], out => .ok (s, out)
  | s, b :: bs, out =>
    match w.process s b out 0 0 out.length false with
    | .error e => .error e
    | .ok (s, out) => processAll s bs out

/-- `processAndFinalize`: nothing is done with a single buffer that is empty. -/
def processAndFinalize (s : σ) : Data → Except Error (σ × Bytes)
  | .buffer b =>
    if b = [] then .ok (s, [])
    else
      match w.process s b [] b.length 0 0 false with
      | .error e => .error e
      | .ok (s, out) => w.finalize s out out.length
  | .buffers bs =>
    match w.processAll s bs [] with
    | .error e => .error e
    | .ok (s, out) => w.finalize s out out.length

variable {w} {s : σ} {b out : Bytes} {offset : Nat}

theorem process_append (h : w.initialized s = true) (hoffset : offset ≤ b.length) (size : Nat)
    (hsize : size = 0 ∨ size = b.length - offset) :
    w.process s b out size offset out.length false =
      if b.drop offset = [] then .ok (s, out)
      else
        match w.doProcess s (b.drop offset) false with
        | .error e => .error e
        | .ok (s, more) => .ok (s, out ++ more) := by
  rw [process, checkInContainerSize_rest hoffset hsize]
  simp only [h, Bool.not_true, Bool.false_eq_true, if_false, Nat.lt_irrefl, and_true,
    List.take_length]
  have hempty : b.length - offset = 0 ↔ b.drop offset = [] := by
    rw [← List.length_eq_zero_iff, List.length_drop]
  rw [List.take_of_length_le (Nat.le_of_eq (List.length_drop ..))]
  by_cases hb : b.drop offset = []
  · rw [if_pos (hempty.mpr hb), if_pos hb]
  · rw [if_neg (fun h => hb (hempty.mp h)), if_neg hb]

/-- The last block of an empty input. -/
theorem process_last (h : w.initialized s = true) :
    w.process s [] [] 0 0 0 true = w.doProcess s [] true := by
  rw [process, checkInContainerSize_rest (Nat.zero_le _) (Or.inl rfl)]
  simp only [h, Bool.not_true, Bool.false_eq_true, if_false, Nat.lt_irrefl, and_false,
    Bool.true_eq_false, List.drop_nil, List.take_nil, List.nil_append, List.length_nil]
  cases w.doProcess s [] true <;> rfl

theorem finalize_append (h : w.initialized s = true) :
    w.finalize s out out.length =
      match w.doProcess (w.close s) [] true with
      | .error e => .error e
      | .ok (s, more) => .ok (s, out ++ more) := by
  rw [finalize]
  simp only [h, Bool.not_true, Bool.false_eq_true, if_false, List.take_length]

/-! ### Buffers one behind the other -/

/-- A worker, in the states of `I`, does with two pieces what it does with one of both. -/
structure Absorbs (w : CipherWorker σ) (I : σ → Prop) : Prop where
  initialized : ∀ {s}, I s → w.initialized s = true
  nil : ∀ {s}, I s → w.doProcess s [] false = .ok (s, [])
  keeps : ∀ {s t xs out}, I s → w.doProcess s xs false = .ok (t, out) → I t
  append : ∀ {s t xs out}, I s → w.doProcess s xs false = .ok (t, out) → ∀ ys,
    w.doProcess s (xs ++ ys) false = (w.doProcess t ys false).map fun p => (p.1, out ++ p.2)
  error : ∀ {s xs e}, I s → w.doProcess s xs false = .error e → ∀ ys,
    w.doProcess s (xs ++ ys) false = .error e

namespace Absorbs

variable {I : σ → Prop} (h : w.Absorbs I)
include h

theorem process (hs : I s) (hoffset : offset ≤ b.length) (size : Nat)
    (hsize : size = 0 ∨ size = b.length - offset) :
    w.process s b out size offset out.length false =
      (w.doProcess s (b.drop offset) false).map fun p => (p.1, out ++ p.2) := by
  rw [process_append (h.initialized hs) hoffset size hsize]
  split
  · next hb =>
    rw [hb, h.nil hs]
    simp only [Except.map, List.append_nil]
  · cases w.doProcess s (b.drop offset) false <;> rfl

theorem processAll (bs : List Bytes) : ∀ {s : σ} {out : Bytes}, I s → w.processAll s bs out =
    (w.doProcess s bs.flatten false).map fun p => (p.1, out ++ p.2) := by
  induction bs with
  | nil =>
    intro s out hs
    rw [CipherWorker.processAll, List.flatten_nil, h.nil hs]
    simp only [Except.map, List.append_nil]
  | cons b bs ih =>
    intro s out hs
    rw [CipherWorker.processAll, h.process hs (Nat.zero_le _) 0 (Or.inl rfl), List.drop_zero,
      List.flatten_cons]
    cases hb : w.doProcess s b false with
    | error e =>
      rw [h.error hs hb]
      rfl
    | ok p =>
      obtain ⟨t, more⟩ := p
      rw [h.append hs hb]
      refine (ih (h.keeps hs hb)).trans ?_
      cases w.doProcess t bs.flatten false with
      | error e => rfl
      | ok p => simp only [Except.map, List.append_assoc]

/-- Two pieces that are processed in one. -/
theorem split {s t : σ} {xs ys out : Bytes} (hs : I s)
    (hrun : w.doProcess s (xs ++ ys) false = .ok (t, out)) :
    ∃ u a b, w.doProcess s xs false = .ok (u, a) ∧ w.doProcess u ys false = .ok (t, b) ∧
      out = a ++ b := by
  cases hxs : w.doProcess s xs false with
  | error e =>
    rw [h.error hs hxs] at hrun
    cases hrun
  | ok p =>
    obtain ⟨u, a⟩ := p
    rw [h.append hs hxs] at hrun
    cases hys : w.doProcess u ys false with
    | error e =>
      rw [hys] at hrun
      cases hrun
    | ok q =>
      rw [hys] at hrun
      obtain ⟨rfl, rfl⟩ := Prod.mk.inj (Except.ok.inj hrun)
      exact ⟨u, a, q.2, rfl, hys, rfl⟩

end Absorbs

end CipherWorker

/-! ### MAC -/

/-- `MAC`: `m_initialized`, and what was fed to the hash. -/
structure MAC where
  initialized : Bool
  fed : Bytes

namespace MAC

/-- `init` -/
def init : MAC := ⟨true, []⟩

/-- `doReset` -/
def reset : MAC := ⟨false, []⟩

/-- `process` of a container. -/
def process (m : MAC) (buf : Bytes) (size offset : Nat) : Except Error MAC :=
  if !m.initialized then .error .invalidDigestState
  else
    match checkInContainerSize buf.length offset size with
    | none => .error .invalidSize
    | some size => .ok { m with fed := m.fed ++ (buf.drop offset).take size }

/-- `process` of a `SpanBuffer`. -/
def processBuffer (m : MAC) (buf : Bytes) (offset : Nat) : Except Error MAC :=
  match checkInContainerSize buf.length offset 0 with
  | none => .error .invalidSize
  | some size => m.process buf size offset

/-- The loop over `SpanBuffers`; the offset is that of the first. -/
def processBuffers : MAC → List Bytes → (offset : Nat) → Except Error MAC
  | m, [], _ => .ok m
  | m, b :: bs, offset =>
    match m.processBuffer b offset with
    | .error e => .error e
    | .ok m => processBuffers m bs 0

/-- `process` of buffers. -/
def processData (m : MAC) (data : Data) (offset : Nat) : Except Error MAC :=
  match data with
  | .buffer b => m.processBuffer b offset
  | .buffers bs => m.processBuffers bs offset

variable (hash : Bytes → Bytes)

/-- `finalize` -/
def finalize (m : MAC) : Except Error (MAC × Bytes) :=
  if !m.initialized then .error .invalidDigestState
  else .ok ({ m with initialized := false }, hash m.fed)

/-- The first bytes of the tag are those of the hash. -/
def verifies (tag fed : Bytes) : Bool :=
  let size := min (hash fed).length tag.length
  (hash fed).take size = tag.take size

/-- `finalizeAndVerify` compares as many bytes as both tags have. -/
def finalizeAndVerify (m : MAC) (tag : Bytes) : Except Error MAC :=
  match m.finalize hash with
  | .error e => .error e
  | .ok (m', _) => if verifies hash tag m.fed then .ok m' else .error .macFailed

/-- `runVerify` of `SpanBuffers` -/
def runVerify (dataIn : List Bytes) (tag : Bytes) : Except Error MAC :=
  match init.processBuffers dataIn 0 with
  | .error e => .error e
  | .ok m => m.finalizeAndVerify hash tag

variable {fed : Bytes}

theorem process_initialized {b : Bytes} {offset : Nat} (h : offset ≤ b.length) (size : Nat)
    (hsize : size = 0 ∨ size = b.length - offset) :
    process ⟨true, fed⟩ b size offset = .ok ⟨true, fed ++ b.drop offset⟩ := by
  rw [process, checkInContainerSize_rest h hsize]
  simp only [Bool.not_true, Bool.false_eq_true, if_false]
  rw [List.take_of_length_le (Nat.le_of_eq (List.length_drop ..))]

theorem processBuffer_initialized {b : Bytes} {offset : Nat} (h : offset ≤ b.length) :
    processBuffer ⟨true, fed⟩ b offset = .ok ⟨true, fed ++ b.drop offset⟩ := by
  rw [processBuffer, checkInContainerSize_rest h (Or.inl rfl)]
  exact process_initialized h _ (Or.inr rfl)

theorem processBuffers_initialized (bs : List Bytes) : ∀ fed : Bytes,
    processBuffers ⟨true, fed⟩ bs 0 = .ok ⟨true, fed ++ bs.flatten⟩ := by
  induction bs with
  | nil =>
    intro fed
    rw [processBuffers, List.flatten_nil, List.append_nil]
  | cons b bs ih =>
    intro fed
    rw [processBuffers, processBuffer_initialized (Nat.zero_le _)]
    simp only [List.drop_zero]
    rw [ih, List.flatten_cons, List.append_assoc]

theorem processData_initialized (data : Data) {offset : Nat}
    (h : offset ≤ (data.toList.headD []).length) :
    processData ⟨true, fed⟩ data offset = .ok ⟨true, fed ++ data.bytes.drop offset⟩ := by
  cases data with
  | buffer b =>
    have h : offset ≤ b.length := h
    rw [processData, processBuffer_initialized h, Data.bytes_buffer]
  | buffers bs =>
    cases bs with
    | nil =>
      rw [processData, processBuffers, Data.bytes_buffers, List.flatten_nil, List.drop_nil,
        List.append_nil]
    | cons b bs =>
      have h : offset ≤ b.length := h
      rw [processData, processBuffers, processBuffer_initialized h]
      simp only [processBuffers_initialized]
      rw [Data.bytes_buffers, List.flatten_cons, List.drop_append_of_le_length h, List.append_assoc]

@[simp] theorem finalizeAndVerify_initialized (tag : Bytes) :
    finalizeAndVerify hash ⟨true, fed⟩ tag =
      if verifies hash tag fed then .ok ⟨false, fed⟩ else .error .macFailed := rfl

end MAC

end Hatn.Crypt
