import Hatn.Common.SpanBuffer
import Hatn.Tables.Loops

/-!
# Gathered writes and complete reads

A plain transfer of a stream may take a part of the bytes only.  `StreamGatherTraits` goes on until
all spans are written, or all expected bytes are read.  What a lambda captures is a value here, and
the outcomes of the plain transfers are given one after another.

`StreamTmplV::readAll` calls the plain `read` and not `readAll` of the stream that it wraps, so that
it may succeed after a part of the bytes (`wrapped_iff`).
-/

namespace Hatn.Common

open SpanBuffer

inductive StreamError
  | common (e : CommonError)
  | plain (value : Int)
  deriving DecidableEq

/-- What a plain transfer calls its callback with. -/
structure Outcome where
  ec : Option StreamError
  transferred : Nat

/-- The outcomes of a transfer of that size: bytes are transferred, unless there is an error or
none are asked for. -/
def Outcome.Fits (o : Outcome) (size : Nat) : Prop :=
  o.transferred ≤ size ∧ (o.ec = none → 0 < size → 0 < o.transferred)

instance (o : Outcome) (size : Nat) : Decidable (o.Fits size) :=
  inferInstanceAs (Decidable (_ ∧ (_ → _ → _)))

/-- An operation of several plain transfers: the one under way with the values that its callback
has captured, the addresses of the bytes that were transferred, and the calls of the callback of
the operation. -/
structure Transfer (κ : Type) where
  pending : Option (ConstDataBuf × κ)
  moved : List Nat
  calls : List (Option StreamError × Nat)

namespace Transfer

variable {κ : Type}

/-- A plain `write` or `read` is called. -/
def call (t : Transfer κ) (data size : Nat) (captured : κ) : Transfer κ :=
  { t with pending := some (⟨data, size⟩, captured) }

/-- The callback of the operation is called. -/
def callback (t : Transfer κ) (ec : Option StreamError) (size : Nat) : Transfer κ :=
  { t with calls := t.calls ++ [(ec, size)] }

/-- The transfer under way ends with an outcome, and its callback goes on.  Outcomes that do not
fit do not come; those that are left when nothing is under way are not used. -/
def step (resume : κ → Outcome → Transfer κ → Transfer κ) (t : Transfer κ) (o : Outcome) :
    Except Unit (Transfer κ) :=
  match t.pending with
  | none => .ok t
  | some (view, captured) =>
    if o.Fits view.size then
      .ok (resume captured o
        { t with pending := none, moved := t.moved ++ view.places.take o.transferred })
    else .error ()

def run (resume : κ → Outcome → Transfer κ → Transfer κ) (start : Transfer κ → Transfer κ)
    (outcomes : List Outcome) : Except Unit (Transfer κ) :=
  outcomes.foldlM (step resume) (start ⟨none, [], []⟩)

theorem foldlM_not_pending (resume : κ → Outcome → Transfer κ → Transfer κ) {t : Transfer κ}
    (h : t.pending = none) (outcomes : List Outcome) : outcomes.foldlM (step resume) t = .ok t := by
  induction outcomes with
  | nil => rfl
  | cons o outcomes ih =>
    rw [List.foldlM_cons, step, h]
    exact ih

/-- A complete transfer: the bytes go in order, the callback is called once, at the latest after
so many outcomes, and with success only after all bytes. -/
structure Completes (all : List Nat) (bound : Nat) (outcomes : List Outcome) (t : Transfer κ) :
    Prop where
  moved : t.moved <+: all
  once : t.calls.length = if t.pending.isSome then 0 else 1
  ends : bound ≤ outcomes.length → t.pending = none
  success : ∀ size, (none, size) ∈ t.calls → t.moved = all ∧ size = all.length

/-- The callback was called, and what holds if it was with success. -/
def Called (all : List Nat) (P : Prop) (t : Transfer κ) : Prop :=
  ∃ ec size, t.calls = [(ec, size)] ∧ t.moved <+: all ∧
    (ec = none → t.moved = all ∧ size = all.length ∧ P)

variable {t : Transfer κ} {all : List Nat} {bound : Nat} {outcomes : List Outcome}

theorem Called.completes {P : Prop} (h : Called all P t) (hpending : t.pending = none) :
    Completes all bound outcomes t ∧ ∀ size, (none, size) ∈ t.calls → P := by
  obtain ⟨ec, size, hcalls, hfront, hsuccess⟩ := h
  have hmem : ∀ size', (none, size') ∈ t.calls → ec = none ∧ size' = size := by
    rw [hcalls]
    rintro size' hmem
    obtain ⟨rfl, rfl⟩ := Prod.mk.inj (List.mem_singleton.mp hmem)
    exact ⟨rfl, rfl⟩
  refine ⟨⟨hfront, ?_, fun _ => hpending, fun size' h => ?_⟩, fun size' h => ?_⟩
  · rw [hcalls, hpending]
    rfl
  · obtain ⟨hec, rfl⟩ := hmem size' h
    exact ⟨(hsuccess hec).1, (hsuccess hec).2.1⟩
  · exact (hsuccess (hmem size' h).1).2.2

/-- A transfer under way completes nothing, and cannot last. -/
theorem completes_pending (hcalls : t.calls = []) (hpending : t.pending.isSome = true)
    (hfront : t.moved <+: all) (hbound : outcomes.length < bound) :
    Completes all bound outcomes t :=
  { moved := hfront
    once := by
      rw [hcalls, hpending]
      rfl
    ends := fun h => absurd h (Nat.not_le.mpr hbound)
    success := fun _ h => absurd h (hcalls ▸ List.not_mem_nil) }

end Transfer

/-! ### Writing -/

namespace StreamGatherTraits

open Transfer

/-- What the callback of a plain write has captured, but for the buffers. -/
structure Written where
  index : Nat
  currentOffset : Nat
  sentSize : Nat

def writeNext (buffers : List SpanBuffer) (w : Written) (t : Transfer Written) :
    Transfer Written :=
  match buffers[w.index]? with
  | none => t.callback none w.sentSize
  | some current =>
    if current.span.1 then
      t.call (current.span.2.data + w.currentOffset) (current.span.2.size - w.currentOffset) w
    else t.callback (some (.common .invalidSize)) w.sentSize

/-- The callback of a plain write. -/
def written (buffers : List SpanBuffer) (w : Written) (o : Outcome) (t : Transfer Written) :
    Transfer Written :=
  match o.ec with
  | some ec => t.callback (some ec) w.sentSize
  | none =>
    let nextSentSize := w.sentSize + o.transferred
    let nextCurrentOffset := w.currentOffset + o.transferred
    match buffers[w.index]? with
    | none => t
    | some current =>
      if nextCurrentOffset < current.span.2.size then
        writeNext buffers ⟨w.index, nextCurrentOffset, nextSentSize⟩ t
      else writeNext buffers ⟨w.index + 1, 0, nextSentSize⟩ t

/-- `write` of scattered buffers. -/
def write (buffers : List SpanBuffer) (t : Transfer Written) : Transfer Written :=
  writeNext buffers ⟨0, 0, 0⟩ t

/-! ### Reading -/

/-- `receivedSize`, which the callback of a plain read has captured. -/
def readNext (data expectedSize receivedSize : Nat) (t : Transfer Nat) : Transfer Nat :=
  if receivedSize = expectedSize then t.callback none receivedSize
  else t.call (data + receivedSize) (expectedSize - receivedSize) receivedSize

/-- The callback of a plain read. -/
def received (data expectedSize receivedSize : Nat) (o : Outcome) (t : Transfer Nat) :
    Transfer Nat :=
  match o.ec with
  | some ec => t.callback (some ec) (receivedSize + o.transferred)
  | none => readNext data expectedSize (receivedSize + o.transferred) t

def readAll (data expectedSize : Nat) (t : Transfer Nat) : Transfer Nat :=
  readNext data expectedSize 0 t

end StreamGatherTraits

namespace StreamTmplV

open Transfer

/-- `readAll` of the wrapper: `read` of the stream, with the callback of the operation. -/
def readAll (data expectedSize : Nat) (t : Transfer Unit) : Transfer Unit :=
  t.call data expectedSize ()

def received (_ : Unit) (o : Outcome) (t : Transfer Unit) : Transfer Unit :=
  t.callback o.ec o.transferred

end StreamTmplV

namespace StreamGatherTraits

open Transfer

/-- Every write of the buffers is complete, and it succeeds if all of them have views only. -/
def Gathers (buffers : List SpanBuffer) (outcomes : List Outcome) : Prop :=
  ∀ t, run (written buffers) (write buffers) outcomes = .ok t →
    Completes (buffers.flatMap (·.span.2.places)) (total buffers + buffers.length) outcomes t ∧
      ∀ size, (none, size) ∈ t.calls → ∀ b ∈ buffers, b.span.1 = true

/-- Every read of the expected bytes is complete. -/
def Reads {κ : Type} (resume : κ → Outcome → Transfer κ → Transfer κ)
    (start : Transfer κ → Transfer κ) (data expectedSize : Nat) (outcomes : List Outcome) : Prop :=
  ∀ t, run resume start outcomes = .ok t →
    Completes (List.range' data expectedSize) (expectedSize + 1) outcomes t

variable {buffers : List SpanBuffer} {outcomes : List Outcome} {data expectedSize : Nat}
  {w : Written} {o : Outcome}

/-! ### Writes are complete -/

/-- The addresses of the buffers. -/
def places (buffers : List SpanBuffer) : List Nat := buffers.flatMap (·.span.2.places)

theorem length_places (buffers : List SpanBuffer) : (places buffers).length = total buffers := by
  rw [places, List.length_flatMap, total]
  simp only [ConstDataBuf.places, List.length_range']

theorem places_append (before rest : List SpanBuffer) :
    places (before ++ rest) = places before ++ places rest := List.flatMap_append

theorem take_places {b : SpanBuffer} {rest : List SpanBuffer} {n : Nat}
    (h : n ≤ b.span.2.size) : (places (b :: rest)).take n = List.range' b.span.2.data n := by
  have hlength : n ≤ b.span.2.places.length := by rwa [ConstDataBuf.places, List.length_range']
  rw [places, List.flatMap_cons, List.take_append_of_le_length hlength, ConstDataBuf.places,
    List.take_range'_of_length_ge h]

/-- All bytes of the buffers in front are written, and those in front of an offset in the next one;
nothing has been called back. -/
structure At (before rest : List SpanBuffer) (w : Written) (t : Transfer Written) : Prop where
  calls : t.calls = []
  index : w.index = before.length
  views : ∀ b ∈ before, b.span.1 = true
  moved : t.moved = places before ++ (places rest).take w.currentOffset
  sentSize : w.sentSize = t.moved.length
  offset : ∀ b ∈ rest.head?, w.currentOffset ≤ b.span.2.size

/-- What holds while outcomes come, of which so many are left. -/
def Writing (buffers : List SpanBuffer) (count left : Nat) (t : Transfer Written) : Prop :=
  match t.pending with
  | none => Called (places buffers) (∀ b ∈ buffers, b.span.1 = true) t
  | some (view, w) => ∃ before b rest, buffers = before ++ b :: rest ∧ At before (b :: rest) w t ∧
      b.span.1 = true ∧
      view = ⟨b.span.2.data + w.currentOffset, b.span.2.size - w.currentOffset⟩ ∧
      count ≤ left + t.moved.length + w.index

variable {before rest : List SpanBuffer} {t : Transfer Written} {count left : Nat}

theorem At.moved_isPrefix (h : At before rest w t) : t.moved <+: places (before ++ rest) := by
  rw [h.moved, places_append, List.prefix_append_right_inj]
  exact List.take_prefix _ _

theorem At.getElem? (h : At before rest w t) : (before ++ rest)[w.index]? = rest.head? := by
  rw [h.index, List.getElem?_append_right (Nat.le_refl _), Nat.sub_self, List.head?_eq_getElem?]

/-- The next write is called, or the callback. -/
theorem writeNext_writing (h : At before rest w t) (hpending : t.pending = none)
    (hcount : count ≤ left + t.moved.length + w.index) :
    Writing (before ++ rest) count left (writeNext (before ++ rest) w t) := by
  rw [writeNext, h.getElem?]
  cases rest with
  | nil =>
    have hmoved : t.moved = places (before ++ []) := by
      rw [h.moved, places_append]
      exact congrArg (places before ++ ·) List.take_nil
    simp only [List.head?_nil, Writing, Called, callback, hpending, h.calls, List.nil_append]
    refine ⟨none, w.sentSize, rfl, hmoved ▸ List.prefix_rfl, fun _ => ⟨hmoved, ?_, ?_⟩⟩
    · rw [h.sentSize, hmoved]
    · rw [List.append_nil]
      exact h.views
  | cons b rest =>
    simp only [List.head?_cons]
    by_cases hview : b.span.1 = true
    · rw [if_pos hview]
      exact ⟨before, b, rest, rfl, ⟨h.calls, h.index, h.views, h.moved, h.sentSize, h.offset⟩,
        hview, rfl, hcount⟩
    · rw [if_neg hview]
      simp only [Writing, Called, callback, hpending, h.calls, List.nil_append]
      exact ⟨_, _, rfl, h.moved_isPrefix, nofun⟩

/-- What a plain write has taken is what comes next. -/
theorem At.taken {b : SpanBuffer} (h : At before (b :: rest) w t) {n : Nat}
    (hn : n ≤ b.span.2.size - w.currentOffset) :
    t.moved ++ (ConstDataBuf.mk (b.span.2.data + w.currentOffset)
        (b.span.2.size - w.currentOffset)).places.take n =
      places before ++ (places (b :: rest)).take (w.currentOffset + n) := by
  have hoffset := h.offset b rfl
  rw [h.moved, take_places hoffset, take_places (by omega), ConstDataBuf.places,
    List.take_range'_of_length_ge hn, List.append_assoc, List.range'_append_1]

/-- After a plain write without an error. -/
theorem written_writing {b : SpanBuffer} (h : At before (b :: rest) w t)
    (hview : b.span.1 = true) (hec : o.ec = none)
    (hfits : o.Fits (b.span.2.size - w.currentOffset))
    (hcount : count ≤ left + 1 + t.moved.length + w.index) :
    Writing (before ++ b :: rest) count left (written (before ++ b :: rest) w o
      { t with
        pending := none
        moved := t.moved ++ (ConstDataBuf.mk (b.span.2.data + w.currentOffset)
          (b.span.2.size - w.currentOffset)).places.take o.transferred }) := by
  have htaken := h.taken hfits.1
  have hoffset := h.offset b rfl
  have hlength : (t.moved ++ (ConstDataBuf.mk (b.span.2.data + w.currentOffset)
      (b.span.2.size - w.currentOffset)).places.take o.transferred).length =
      w.sentSize + o.transferred := by
    rw [List.length_append, ConstDataBuf.places, List.take_range'_of_length_ge hfits.1,
      List.length_range', h.sentSize]
  have hsome := hfits.2 hec
  rw [written, hec]
  simp only [h.getElem?, List.head?_cons]
  split
  next hsame =>
    refine writeNext_writing ⟨h.calls, h.index, h.views, htaken, hlength.symm, ?_⟩ rfl ?_
    · rintro b' ⟨⟩
      exact Nat.le_of_lt hsame
    · dsimp only
      rw [hlength, h.sentSize]
      omega
  next hnext =>
    have hall : w.currentOffset + o.transferred = b.span.2.size := by
      have := hfits.1
      omega
    have hbuffers : before ++ b :: rest = (before ++ [b]) ++ rest := List.append_cons ..
    rw [hbuffers]
    refine writeNext_writing ⟨h.calls, ?_, ?_, ?_, hlength.symm, fun _ _ => Nat.zero_le _⟩
      rfl ?_
    · rw [List.length_append, h.index]
      rfl
    · exact fun b' hb' => (List.mem_append.mp hb').elim (h.views b') fun hb' =>
        List.mem_singleton.mp hb' ▸ hview
    · dsimp only
      rw [htaken, hall, take_places (Nat.le_refl _), places_append, List.take_zero,
        List.append_nil, places, places, List.flatMap_singleton]
      rfl
    · dsimp only
      rw [hlength, h.sentSize]
      omega

theorem step_writing (h : Writing buffers count (left + 1) t) {t' : Transfer Written}
    (hstep : step (written buffers) t o = .ok t') : Writing buffers count left t' := by
  unfold Writing at h
  split at h
  next hpending =>
    rw [step, hpending] at hstep
    obtain rfl := Except.ok.inj hstep
    unfold Writing
    rw [hpending]
    exact h
  next view w hpending =>
    obtain ⟨before, b, rest, rfl, hat, hview, rfl, hcount⟩ := h
    rw [step, hpending] at hstep
    dsimp only at hstep
    split at hstep
    next hfits =>
      obtain rfl := Except.ok.inj hstep
      cases hec : o.ec with
      | none => exact written_writing hat hview hec hfits hcount
      | some ec =>
        rw [written, hec]
        have hfront : t.moved ++ (ConstDataBuf.mk (b.span.2.data + w.currentOffset)
            (b.span.2.size - w.currentOffset)).places.take o.transferred <+:
            places (before ++ b :: rest) := by
          rw [hat.taken hfits.1, places_append, List.prefix_append_right_inj]
          exact List.take_prefix _ _
        exact ⟨some ec, w.sentSize, congrArg (· ++ _) hat.calls, hfront, nofun⟩
    next => cases hstep

/-- **Gathered writes** are complete, for all spans and outcomes. -/
theorem gathers (buffers : List SpanBuffer) (outcomes : List Outcome) :
    Gathers buffers outcomes := by
  intro t hrun
  have hstart : Writing buffers outcomes.length outcomes.length (write buffers ⟨none, [], []⟩) :=
    @writeNext_writing ⟨0, 0, 0⟩ [] buffers _ _ _ ⟨rfl, rfl, List.forall_mem_nil _, rfl, rfl,
      fun _ _ => Nat.zero_le _⟩ rfl (Nat.le_add_right _ _)
  have hend : Writing buffers outcomes.length 0 t :=
    Tables.foldlM_rest (fun l t => Writing buffers outcomes.length l.length t)
      (fun _ _ _ _ h hstep => step_writing h hstep) outcomes hstart hrun
  unfold Writing at hend
  split at hend
  next hpending => exact hend.completes hpending
  next view w hpending =>
    obtain ⟨before, b, rest, rfl, hat, hview, rfl, hcount⟩ := hend
    have hle := hat.moved_isPrefix.length_le
    have hindex := hat.index
    rw [length_places] at hle
    refine ⟨completes_pending hat.calls (by rw [hpending]; rfl) hat.moved_isPrefix ?_, fun size h =>
      absurd h (hat.calls ▸ List.not_mem_nil)⟩
    rw [List.length_append, List.length_cons]
    omega

/-! ### Reads are complete, if they are not wrapped -/

/-- What holds while outcomes of reads come. -/
def Reading (data expectedSize count left : Nat) (t : Transfer Nat) : Prop :=
  match t.pending with
  | none => Called (List.range' data expectedSize) True t
  | some (view, receivedSize) => t.calls = [] ∧ receivedSize < expectedSize ∧
      t.moved = List.range' data receivedSize ∧
      view = ⟨data + receivedSize, expectedSize - receivedSize⟩ ∧ count ≤ left + receivedSize

theorem range'_isPrefix {data m n : Nat} (h : m ≤ n) :
    List.range' data m <+: List.range' data n := by
  rw [← List.take_range'_of_length_ge h]
  exact List.take_prefix _ _

theorem readNext_reading {t : Transfer Nat} {receivedSize : Nat} (hpending : t.pending = none)
    (hcalls : t.calls = []) (hmoved : t.moved = List.range' data receivedSize)
    (hle : receivedSize ≤ expectedSize) (hcount : count ≤ left + receivedSize) :
    Reading data expectedSize count left (readNext data expectedSize receivedSize t) := by
  rw [readNext]
  split
  next heq =>
    subst heq
    simp only [Reading, callback, hpending]
    exact ⟨none, receivedSize, congrArg (· ++ _) hcalls, hmoved ▸ List.prefix_rfl,
      fun _ => ⟨hmoved, List.length_range'.symm, trivial⟩⟩
  next hne => exact ⟨hcalls, Nat.lt_of_le_of_ne hle hne, hmoved, rfl, hcount⟩

theorem step_reading {t t' : Transfer Nat} (h : Reading data expectedSize count (left + 1) t)
    (hstep : step (received data expectedSize) t o = .ok t') :
    Reading data expectedSize count left t' := by
  unfold Reading at h
  split at h
  next hpending =>
    rw [step, hpending] at hstep
    obtain rfl := Except.ok.inj hstep
    unfold Reading
    rw [hpending]
    exact h
  next view receivedSize hpending =>
    obtain ⟨hcalls, hlt, hmoved, rfl, hcount⟩ := h
    rw [step, hpending] at hstep
    dsimp only at hstep
    split at hstep
    next hfits =>
      obtain rfl := Except.ok.inj hstep
      have htaken : t.moved ++ (ConstDataBuf.mk (data + receivedSize)
          (expectedSize - receivedSize)).places.take o.transferred =
          List.range' data (receivedSize + o.transferred) := by
        rw [hmoved, ConstDataBuf.places, List.take_range'_of_length_ge hfits.1,
          List.range'_append_1]
      have hle : receivedSize + o.transferred ≤ expectedSize := by
        have := hfits.1
        omega
      rw [received]
      split
      next ec hec =>
        exact ⟨some ec, _, congrArg (· ++ _) hcalls, htaken ▸ range'_isPrefix hle,
          fun h => by cases h⟩
      next hec =>
        have hsome := hfits.2 hec
        exact readNext_reading rfl hcalls htaken hle (by omega)
    next => cases hstep

/-- **Reads of a stream** are complete, for all outcomes. -/
theorem reads (data expectedSize : Nat) (outcomes : List Outcome) :
    Reads (received data expectedSize) (readAll data expectedSize) data expectedSize outcomes := by
  intro t hrun
  have hend : Reading data expectedSize outcomes.length 0 t :=
    Tables.foldlM_rest (fun l t => Reading data expectedSize outcomes.length l.length t)
      (fun _ _ _ _ h hstep => step_reading h hstep) outcomes
      (readNext_reading rfl rfl rfl (Nat.zero_le _) (Nat.le_add_right _ _)) hrun
  unfold Reading at hend
  split at hend
  next hpending => exact (hend.completes hpending).1
  next view receivedSize hpending =>
    obtain ⟨hcalls, hlt, hmoved, rfl, hcount⟩ := hend
    exact completes_pending hcalls (by rw [hpending]; rfl)
      (hmoved ▸ range'_isPrefix (Nat.le_of_lt hlt)) (by omega)

/-- The first read is an error, or it has all bytes. -/
def FirstReadWhole (expectedSize : Nat) (outcomes : List Outcome) : Prop :=
  ∀ o ∈ outcomes.head?, o.Fits expectedSize → o.ec = none → o.transferred = expectedSize

/-- **Reads through the wrapper** are complete if and only if the first plain read is an error, or
has all bytes. -/
theorem wrapped_iff (data expectedSize : Nat) (outcomes : List Outcome) :
    Reads StreamTmplV.received (StreamTmplV.readAll data expectedSize) data expectedSize outcomes ↔
      FirstReadWhole expectedSize outcomes := by
  cases outcomes with
  | nil =>
    refine iff_of_true (fun t hrun => ?_) nofun
    obtain rfl := Except.ok.inj hrun
    exact completes_pending rfl rfl List.nil_prefix (Nat.succ_pos _)
  | cons o outcomes =>
    have hfirst : FirstReadWhole expectedSize (o :: outcomes) ↔
        (o.Fits expectedSize → o.ec = none → o.transferred = expectedSize) := by
      simp only [FirstReadWhole, List.head?_cons, Option.mem_some_iff, forall_eq']
    rw [hfirst]
    by_cases hfits : o.Fits expectedSize
    · have hrun : run StreamTmplV.received (StreamTmplV.readAll data expectedSize) (o :: outcomes) =
          .ok ⟨none, List.range' data o.transferred, [(o.ec, o.transferred)]⟩ := by
        rw [run, List.foldlM_cons, step]
        simp only [StreamTmplV.readAll, call, if_pos hfits, ConstDataBuf.places,
          List.take_range'_of_length_ge hfits.1]
        exact foldlM_not_pending _ rfl outcomes
      rw [imp_iff_right hfits]
      constructor
      · intro h hec
        have hmem : (none, o.transferred) ∈ [(o.ec, o.transferred)] :=
          hec ▸ List.mem_singleton.mpr rfl
        exact ((h _ hrun).success o.transferred hmem).2.trans List.length_range'
      · intro h t hrun'
        obtain rfl := Except.ok.inj (hrun.symm.trans hrun')
        refine (Called.completes (P := True) ⟨o.ec, o.transferred, rfl, range'_isPrefix hfits.1,
          fun hec => ?_⟩ rfl).1
        rw [h hec]
        exact ⟨rfl, List.length_range'.symm, trivial⟩
    · refine iff_of_true (fun t hrun => ?_) fun h => absurd h hfits
      rw [run, List.foldlM_cons, step] at hrun
      simp only [StreamTmplV.readAll, call, if_neg hfits] at hrun
      cases hrun

/-- **Gathered writes and complete reads** do all that they should, and reads through the wrapper
do if and only if the first plain read is an error, or has all bytes. -/
theorem transfers_right_iff (buffers : List SpanBuffer) (data expectedSize : Nat)
    (outcomes : List Outcome) :
    Gathers buffers outcomes ∧
      Reads (received data expectedSize) (readAll data expectedSize) data expectedSize outcomes ∧
      (Reads StreamTmplV.received (StreamTmplV.readAll data expectedSize) data expectedSize
        outcomes ↔ FirstReadWhole expectedSize outcomes) :=
  ⟨gathers buffers outcomes, reads data expectedSize outcomes,
    wrapped_iff data expectedSize outcomes⟩

/-- One of two bytes is read, and the wrapper reports success. -/
theorem wrapped_part_succeeds : ¬ ∀ (data expectedSize : Nat) (outcomes : List Outcome),
    Reads StreamTmplV.received (StreamTmplV.readAll data expectedSize) data expectedSize
      outcomes := by
  intro h
  have hcompletes := h 64 2 [⟨none, 1⟩] ⟨none, [64], [(none, 1)]⟩ rfl
  exact absurd (hcompletes.success 1 (List.mem_singleton.mpr rfl)).2 (by decide)

end StreamGatherTraits

end Hatn.Common
