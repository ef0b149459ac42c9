import Mathlib.Tactic.Linarith
import Mathlib.Tactic.Ring

/-!
# Positions of chunks

An encrypted file is made of chunks: a first one and others, each size of its own, and a packed
chunk has some extra bytes.  `seqnumToPos` and `seqnumToRawPos` say where a chunk begins in the
plain contents and in the file, `posToSeqnum` which chunk a position is in.  Sizes and numbers of
chunks have 32 bits and so have their products: from 2 ^ 32 on the positions that are made of
them wrap (`chunk_addresses_iff`).
-/

namespace Hatn.Crypt

/-- The sizes of chunks in the descriptor of a file and the extra size of a packed chunk. -/
structure ChunkSizes where
  firstChunkMaxSize : Nat
  chunkMaxSize : Nat
  packedExtraSize : Nat
  first_lt : firstChunkMaxSize < 2 ^ 32
  chunk_lt : chunkMaxSize < 2 ^ 32
  extra_lt : packedExtraSize < 2 ^ 32

namespace ChunkSizes

/-- `maxPlainChunkSize` -/
def maxPlainChunkSize (s : ChunkSizes) (seqnum : Nat) : Nat :=
  if seqnum = 0 then
    if s.firstChunkMaxSize = 0 then s.chunkMaxSize else s.firstChunkMaxSize
  else s.chunkMaxSize

/-- The size of a packed chunk of a plain size; the assertion is that the size is not zero. -/
def packedSize (s : ChunkSizes) (chunkSize : Nat) : Option Nat :=
  if chunkSize ≠ 0 then some ((chunkSize + s.packedExtraSize) % 2 ^ 32) else none

/-- `maxPackedChunkSize`: without a size of the other chunks, they have the packed size of the
first one as their plain size. -/
def maxPackedChunkSize (s : ChunkSizes) (seqnum : Nat) : Option Nat :=
  if seqnum = 0 then s.packedSize (s.maxPlainChunkSize 0)
  else if s.chunkMaxSize = 0 then do
    let first ← s.packedSize (s.maxPlainChunkSize 0)
    s.packedSize first
  else s.packedSize s.chunkMaxSize

/-- `seqnumToPos` -/
def seqnumToPos (s : ChunkSizes) (seqnum : Nat) : Nat :=
  if seqnum = 0 then 0
  else (s.maxPlainChunkSize 0 + (seqnum - 1) * s.maxPlainChunkSize seqnum) % 2 ^ 32

/-- `seqnumToRawPos` -/
def seqnumToRawPos (s : ChunkSizes) (dataOffset seqnum : Nat) : Option Nat :=
  if seqnum = 0 then some dataOffset
  else do
    let first ← s.maxPackedChunkSize 0
    let size ← s.maxPackedChunkSize seqnum
    return ((first + (seqnum - 1) * size) % 2 ^ 32 + dataOffset) % 2 ^ 64

/-- `posToSeqnum` -/
def posToSeqnum (s : ChunkSizes) (pos : Nat) : Nat :=
  let firstChunkSize := s.maxPlainChunkSize 0
  let chunkSize := s.chunkMaxSize
  if pos < firstChunkSize ∨ firstChunkSize = 0 then 0
  else if pos = firstChunkSize ∨ chunkSize = 0 then 1
  else (1 + (pos - firstChunkSize) / chunkSize % 2 ^ 32) % 2 ^ 32

/-- `chunkBeginForPos` -/
def chunkBeginForPos (s : ChunkSizes) (pos : Nat) : Nat :=
  let seqnum := s.posToSeqnum pos
  if seqnum = 0 then 0
  else (s.maxPlainChunkSize 0 + (seqnum - 1) * s.maxPlainChunkSize 1) % 2 ^ 32

/-- `chunkOffsetForPos` -/
def chunkOffsetForPos (s : ChunkSizes) (pos : Nat) : Nat :=
  (pos + 2 ^ 64 - s.chunkBeginForPos pos) % 2 ^ 64

/-- The number of the chunk that a position is in. -/
def chunkNumber (s : ChunkSizes) (pos : Nat) : Nat :=
  if pos < s.maxPlainChunkSize 0 then 0
  else 1 + (pos - s.maxPlainChunkSize 0) / s.chunkMaxSize

/-! ### Plain positions -/

theorem maxPlainChunkSize_succ (s : ChunkSizes) {n : Nat} (hn : n ≠ 0) :
    s.maxPlainChunkSize n = s.chunkMaxSize := if_neg hn

theorem maxPlainChunkSize_zero {s : ChunkSizes} (hF : 0 < s.firstChunkMaxSize) :
    s.maxPlainChunkSize 0 = s.firstChunkMaxSize := by
  rw [maxPlainChunkSize, if_pos rfl, if_neg hF.ne']

theorem maxPlainChunkSize_lt (s : ChunkSizes) (n : Nat) : s.maxPlainChunkSize n < 2 ^ 32 := by
  rw [maxPlainChunkSize]
  repeat' split
  · exact s.chunk_lt
  · exact s.first_lt
  · exact s.chunk_lt

/-- Positions have the number of their chunk where it has 32 bits. -/
theorem posToSeqnum_eq {s : ChunkSizes} {pos : Nat} (hF : 0 < s.maxPlainChunkSize 0)
    (hC : 0 < s.chunkMaxSize) (h : s.chunkNumber pos < 2 ^ 32) :
    s.posToSeqnum pos = s.chunkNumber pos := by
  rw [chunkNumber] at h ⊢
  simp only [posToSeqnum]
  by_cases hpos : pos < s.maxPlainChunkSize 0
  · rw [if_pos (.inl hpos), if_pos hpos]
  · rw [if_neg (by omega), if_neg hpos]
    rw [if_neg hpos] at h
    split
    next heq =>
      have hzero : pos - s.maxPlainChunkSize 0 = 0 := by omega
      rw [hzero, Nat.zero_div]
    next =>
      rw [Nat.mod_eq_of_lt (show _ / _ < 2 ^ 32 from Nat.lt_of_add_left_lt h), Nat.mod_eq_of_lt h]

theorem chunkBeginForPos_eq (s : ChunkSizes) (pos : Nat) :
    s.chunkBeginForPos pos = s.seqnumToPos (s.posToSeqnum pos) := by
  simp only [chunkBeginForPos, seqnumToPos]
  split
  next => rfl
  next h => rw [maxPlainChunkSize_succ s h, maxPlainChunkSize_succ s one_ne_zero]

/-- A position is in its chunk, when the chunk's beginning is not wrapped. -/
theorem chunk_bounds {s : ChunkSizes} {pos n : Nat} (hC : 0 < s.chunkMaxSize)
    (hn : s.chunkNumber pos = n + 1) :
    s.maxPlainChunkSize 0 + n * s.chunkMaxSize ≤ pos ∧
      pos < s.maxPlainChunkSize 0 + n * s.chunkMaxSize + s.chunkMaxSize := by
  rw [chunkNumber] at hn
  split at hn
  next => omega
  next h =>
    have hdiv := Nat.div_add_mod (pos - s.maxPlainChunkSize 0) s.chunkMaxSize
    have hmod := Nat.mod_lt (pos - s.maxPlainChunkSize 0) hC
    have hq : (pos - s.maxPlainChunkSize 0) / s.chunkMaxSize = n := by omega
    rw [hq, Nat.mul_comm] at hdiv
    omega

theorem seqnumToPos_succ (s : ChunkSizes) (n : Nat) :
    s.seqnumToPos (n + 1) = (s.maxPlainChunkSize 0 + n * s.chunkMaxSize) % 2 ^ 32 := by
  rw [seqnumToPos, if_neg (Nat.succ_ne_zero n), maxPlainChunkSize_succ s (Nat.succ_ne_zero n),
    Nat.add_sub_cancel]

/-- **A position is in the chunk that is found for it** exactly when the beginning of the chunk
has 32 bits. -/
theorem pos_in_chunk_iff {s : ChunkSizes} {pos : Nat} (hF : 0 < s.maxPlainChunkSize 0)
    (hC : 0 < s.chunkMaxSize) (h : s.chunkNumber pos < 2 ^ 32) :
    (s.seqnumToPos (s.posToSeqnum pos) ≤ pos ∧
      pos < s.seqnumToPos (s.posToSeqnum pos) + s.maxPlainChunkSize (s.posToSeqnum pos)) ↔
    s.posToSeqnum pos = 0 ∨
      s.maxPlainChunkSize 0 + (s.posToSeqnum pos - 1) * s.chunkMaxSize < 2 ^ 32 := by
  rw [posToSeqnum_eq hF hC h]
  obtain hzero | ⟨n, hn⟩ : s.chunkNumber pos = 0 ∨ ∃ n, s.chunkNumber pos = n + 1 := by
    cases s.chunkNumber pos with
    | zero => exact .inl rfl
    | succ n => exact .inr ⟨n, rfl⟩
  · have hpos : pos < s.maxPlainChunkSize 0 := by
      by_contra hge
      rw [chunkNumber, if_neg hge, Nat.add_eq_zero_iff] at hzero
      exact absurd hzero.1 one_ne_zero
    rw [hzero, seqnumToPos, if_pos rfl]
    exact iff_of_true ⟨Nat.zero_le _, by omega⟩ (.inl rfl)
  · obtain ⟨hbegin, hend⟩ := chunk_bounds hC hn
    rw [hn, seqnumToPos_succ, maxPlainChunkSize_succ s (Nat.succ_ne_zero n), Nat.add_sub_cancel]
    generalize s.maxPlainChunkSize 0 + n * s.chunkMaxSize = begin_ at *
    have hlt := s.chunk_lt
    constructor
    · rintro ⟨-, h⟩
      omega
    · intro h
      have hmod : begin_ % 2 ^ 32 = begin_ := Nat.mod_eq_of_lt (by omega)
      rw [hmod]
      exact ⟨hbegin, hend⟩

/-- **The beginning of a chunk is in the chunk** exactly when it has 32 bits. -/
theorem posToSeqnum_seqnumToPos_iff {s : ChunkSizes} {n : Nat} (hF : 0 < s.maxPlainChunkSize 0)
    (hC : 0 < s.chunkMaxSize) (hn : n < 2 ^ 32) :
    s.posToSeqnum (s.seqnumToPos n) = n ↔
      n = 0 ∨ s.maxPlainChunkSize 0 + (n - 1) * s.chunkMaxSize < 2 ^ 32 := by
  cases n with
  | zero =>
    refine iff_of_true ?_ (.inl rfl)
    simp only [seqnumToPos, posToSeqnum, if_true]
    rw [if_pos (.inl hF)]
  | succ n =>
    rw [seqnumToPos_succ, Nat.add_sub_cancel]
    obtain ⟨begin_, hbegin⟩ : ∃ b, s.maxPlainChunkSize 0 + n * s.chunkMaxSize = b := ⟨_, rfl⟩
    have hle := Nat.mod_le begin_ (2 ^ 32)
    have hquot : ∀ pos, pos ≤ begin_ → s.maxPlainChunkSize 0 ≤ pos →
        (pos - s.maxPlainChunkSize 0) / s.chunkMaxSize ≤ n := by
      intro pos hpos _
      apply Nat.div_le_of_le_mul
      rw [Nat.mul_comm]
      omega
    have hnumber : s.chunkNumber (begin_ % 2 ^ 32) < 2 ^ 32 := by
      rw [chunkNumber]
      split
      next => decide
      next h =>
        have hq := hquot _ hle (by omega)
        omega
    rw [hbegin, posToSeqnum_eq hF hC hnumber]
    constructor
    · intro h
      right
      obtain ⟨hfirst, -⟩ := chunk_bounds hC h
      rw [hbegin] at hfirst
      omega
    · rintro (h | h)
      · omega
      · rw [Nat.mod_eq_of_lt h, chunkNumber, if_neg (by omega), ← hbegin, Nat.add_sub_cancel_left,
          Nat.mul_div_cancel _ hC, Nat.add_comm]

/-! ### Raw positions -/

/-- The packed sizes of the first chunk and of the other ones. -/
def firstPacked (s : ChunkSizes) : Nat := (s.maxPlainChunkSize 0 + s.packedExtraSize) % 2 ^ 32

def otherPacked (s : ChunkSizes) : Nat := (s.chunkMaxSize + s.packedExtraSize) % 2 ^ 32

theorem maxPackedChunkSize_zero {s : ChunkSizes} (hF : 0 < s.maxPlainChunkSize 0) :
    s.maxPackedChunkSize 0 = some s.firstPacked := by
  rw [maxPackedChunkSize, if_pos rfl, packedSize, if_pos hF.ne', firstPacked]

theorem maxPackedChunkSize_succ {s : ChunkSizes} (hC : 0 < s.chunkMaxSize) {n : Nat}
    (hn : n ≠ 0) : s.maxPackedChunkSize n = some s.otherPacked := by
  rw [maxPackedChunkSize, if_neg hn, if_neg hC.ne', packedSize, if_pos hC.ne', otherPacked]

theorem seqnumToRawPos_zero (s : ChunkSizes) (dataOffset : Nat) :
    s.seqnumToRawPos dataOffset 0 = some dataOffset := if_pos rfl

theorem seqnumToRawPos_succ {s : ChunkSizes} (hF : 0 < s.maxPlainChunkSize 0)
    (hC : 0 < s.chunkMaxSize) {dataOffset : Nat} (hD : dataOffset < 2 ^ 63) (n : Nat) :
    s.seqnumToRawPos dataOffset (n + 1) =
      some ((s.firstPacked + n * s.otherPacked) % 2 ^ 32 + dataOffset) := by
  rw [seqnumToRawPos, if_neg (Nat.succ_ne_zero n), maxPackedChunkSize_zero hF,
    maxPackedChunkSize_succ hC (Nat.succ_ne_zero n), Nat.add_sub_cancel]
  simp only [Option.bind_eq_bind, Option.bind_some, Option.pure_def]
  rw [Nat.mod_eq_of_lt (show _ + dataOffset < 2 ^ 64 by omega)]

/-- A chunk is followed by the next one. -/
def Follows (s : ChunkSizes) (dataOffset n : Nat) : Prop :=
  ∃ pos next size, s.seqnumToRawPos dataOffset n = some pos ∧
    s.seqnumToRawPos dataOffset (n + 1) = some next ∧ s.maxPackedChunkSize n = some size ∧
    next = pos + size ∧ pos < next

/-- Up to a chunk, all chunks are followed by the next ones and begin in their order. -/
def RawAddressed (s : ChunkSizes) (dataOffset last : Nat) : Prop :=
  (∀ n < last, s.Follows dataOffset n) ∧ ∀ m n, m < n → n ≤ last →
    ∃ pos pos', s.seqnumToRawPos dataOffset m = some pos ∧
      s.seqnumToRawPos dataOffset n = some pos' ∧ pos < pos'

/-- The order of the chunks follows from the steps from one to the next. -/
theorem rawAddressed_of_follows {s : ChunkSizes} {dataOffset last : Nat}
    (h : ∀ n < last, s.Follows dataOffset n) : s.RawAddressed dataOffset last := by
  refine ⟨h, fun m n hlt hle => ?_⟩
  induction n, hlt using Nat.le_induction with
  | base =>
    obtain ⟨pos, next, size, hpos, hnext, -, -, hlt⟩ := h m hle
    exact ⟨pos, next, hpos, hnext, hlt⟩
  | succ n hlt ih =>
    obtain ⟨pos, pos', hpos, hpos', hlt⟩ := ih (by omega)
    obtain ⟨mid, next, size, hmid, hnext, -, -, hlt'⟩ := h n hle
    obtain rfl : pos' = mid := Option.some.inj (hpos'.symm.trans hmid)
    exact ⟨pos, next, hpos, hnext, hlt.trans hlt'⟩

theorem follows_zero_iff {s : ChunkSizes} (hF : 0 < s.maxPlainChunkSize 0)
    (hC : 0 < s.chunkMaxSize) {dataOffset : Nat} (hD : dataOffset < 2 ^ 63) :
    s.Follows dataOffset 0 ↔ 0 < s.firstPacked := by
  have hlt : s.firstPacked < 2 ^ 32 := Nat.mod_lt _ (by decide)
  have hnext := seqnumToRawPos_succ hF hC hD 0
  simp only [Nat.zero_mul, Nat.add_zero, Nat.mod_eq_of_lt hlt] at hnext
  constructor
  · rintro ⟨pos, next, size, hpos, hnext', hsize, hadd, hlt'⟩
    rw [maxPackedChunkSize_zero hF, Option.some.injEq] at hsize
    omega
  · intro h
    exact ⟨_, _, _, seqnumToRawPos_zero s dataOffset, hnext, maxPackedChunkSize_zero hF,
      Nat.add_comm _ _, by omega⟩

/-- Behind the first chunk, a chunk that is not wrapped is followed by the next one when that one
is not wrapped, too. -/
theorem follows_succ_iff {s : ChunkSizes} (hF : 0 < s.maxPlainChunkSize 0)
    (hC : 0 < s.chunkMaxSize) {dataOffset n : Nat} (hD : dataOffset < 2 ^ 63)
    (hn : s.firstPacked + n * s.otherPacked < 2 ^ 32) :
    s.Follows dataOffset (n + 1) ↔
      0 < s.otherPacked ∧ s.firstPacked + (n + 1) * s.otherPacked < 2 ^ 32 := by
  have hpos := seqnumToRawPos_succ hF hC hD n
  have hnext := seqnumToRawPos_succ hF hC hD (n + 1)
  have hsize := maxPackedChunkSize_succ hC (Nat.succ_ne_zero n)
  have hmul : (n + 1) * s.otherPacked = n * s.otherPacked + s.otherPacked := by ring
  rw [Nat.mod_eq_of_lt hn] at hpos
  rw [hmul] at hnext ⊢
  constructor
  · rintro ⟨pos, next, size, hpos', hnext', hsize', hadd, hlt⟩
    rw [hpos, Option.some.injEq] at hpos'
    rw [hnext, Option.some.injEq] at hnext'
    rw [hsize, Option.some.injEq] at hsize'
    have hmod := Nat.mod_lt (s.firstPacked + (n * s.otherPacked + s.otherPacked))
      (show 0 < 2 ^ 32 by decide)
    omega
  · rintro ⟨hpositive, hlt⟩
    rw [Nat.mod_eq_of_lt hlt] at hnext
    exact ⟨_, _, _, hpos, hnext, hsize, by omega, by omega⟩

/-- No raw position up to a chunk wraps. -/
def Unwrapped (s : ChunkSizes) (last : Nat) : Prop :=
  last = 0 ∨ 0 < s.firstPacked ∧
    (last = 1 ∨ 0 < s.otherPacked ∧ s.firstPacked + (last - 1) * s.otherPacked < 2 ^ 32)

instance (s : ChunkSizes) (last : Nat) : Decidable (s.Unwrapped last) :=
  inferInstanceAs (Decidable (_ ∨ _))

theorem follows_iff {s : ChunkSizes} (hF : 0 < s.maxPlainChunkSize 0) (hC : 0 < s.chunkMaxSize)
    {dataOffset : Nat} (hD : dataOffset < 2 ^ 63) (last : Nat) :
    (∀ n < last, s.Follows dataOffset n) ↔ s.Unwrapped last := by
  have hlt : s.firstPacked < 2 ^ 32 := Nat.mod_lt _ (by decide)
  induction last with
  | zero => exact iff_of_true (by simp) (.inl rfl)
  | succ last ih =>
    have hsplit : (∀ n < last + 1, s.Follows dataOffset n) ↔
        (∀ n < last, s.Follows dataOffset n) ∧ s.Follows dataOffset last := by
      simp only [Nat.lt_succ_iff_lt_or_eq, or_imp, forall_and, forall_eq]
    refine hsplit.trans ((and_congr_left' ih).trans ?_)
    cases last with
    | zero =>
      rw [follows_zero_iff hF hC hD, Unwrapped, Unwrapped]
      simp
    | succ n =>
      simp only [Unwrapped, Nat.add_sub_cancel, Nat.succ_ne_zero, false_or, Nat.add_eq_right]
      have hmul : (n + 1) * s.otherPacked = n * s.otherPacked + s.otherPacked := by ring
      constructor
      · rintro ⟨⟨hfirst, hn⟩, hfollows⟩
        have hn' : s.firstPacked + n * s.otherPacked < 2 ^ 32 := by
          obtain rfl | ⟨-, hn⟩ := hn
          · simpa using hlt
          · exact hn
        exact ⟨hfirst, (follows_succ_iff hF hC hD hn').mp hfollows⟩
      · rintro ⟨hfirst, hother, hn⟩
        have hn' : s.firstPacked + n * s.otherPacked < 2 ^ 32 := by omega
        exact ⟨⟨hfirst, .inr ⟨hother, hn'⟩⟩, (follows_succ_iff hF hC hD hn').mpr ⟨hother, hn⟩⟩

/-- **When chunks are addressed right.**  A position is in the chunk that is found for it, and a
chunk is found for its beginning, exactly when the plain beginning of the chunk has 32 bits; the
chunks up to a last one follow one another in the file exactly when no raw position wraps. -/
theorem chunk_addresses_iff {s : ChunkSizes} (hF : 0 < s.firstChunkMaxSize)
    (hC : 0 < s.chunkMaxSize) {dataOffset : Nat} (hD : dataOffset < 2 ^ 63) :
    (∀ pos < 2 ^ 63, s.chunkNumber pos < 2 ^ 32 → ∀ n, s.posToSeqnum pos = n →
      ((s.chunkBeginForPos pos = s.seqnumToPos n ∧ s.seqnumToPos n ≤ pos ∧
          pos < s.seqnumToPos n + s.maxPlainChunkSize n) ↔
        n = 0 ∨ s.firstChunkMaxSize + (n - 1) * s.chunkMaxSize < 2 ^ 32)) ∧
    (∀ n < 2 ^ 32, s.posToSeqnum (s.seqnumToPos n) = n ↔
      n = 0 ∨ s.firstChunkMaxSize + (n - 1) * s.chunkMaxSize < 2 ^ 32) ∧
    ∀ last < 2 ^ 32, s.RawAddressed dataOffset last ↔ s.Unwrapped last := by
  have hfirst := maxPlainChunkSize_zero hF
  have hF' : 0 < s.maxPlainChunkSize 0 := by omega
  refine ⟨?_, ?_, ?_⟩
  · rintro pos - hnumber n rfl
    rw [and_iff_right (chunkBeginForPos_eq s pos), pos_in_chunk_iff hF' hC hnumber, hfirst]
  · intro n hn
    rw [posToSeqnum_seqnumToPos_iff hF' hC hn, hfirst]
  · intro last _
    rw [← follows_iff hF' hC hD]
    exact ⟨fun h => h.1, rawAddressed_of_follows⟩

/-- Chunks of a mebibyte with 16 extra bytes. -/
def mebibytes : ChunkSizes :=
  ⟨2 ^ 20, 2 ^ 20, 16, by decide, by decide, by decide⟩

theorem chunk_addresses_sample : mebibytes.RawAddressed 100 4095 :=
  ((chunk_addresses_iff (s := mebibytes) (by decide) (by decide) (by decide)).2.2 4095
    (by decide)).mpr (by decide)

/-- At 4 gibibytes the chunk 4096 is said to begin at the beginning of the file. -/
theorem position_wraps :
    mebibytes.chunkNumber (2 ^ 32) = 4096 ∧ mebibytes.posToSeqnum (2 ^ 32) = 4096 ∧
      mebibytes.chunkBeginForPos (2 ^ 32) = 0 ∧
      ¬ ∀ s : ChunkSizes, 0 < s.firstChunkMaxSize → 0 < s.chunkMaxSize → ∀ pos < 2 ^ 63,
        s.chunkNumber pos < 2 ^ 32 → ∀ n, s.posToSeqnum pos = n →
          s.chunkBeginForPos pos = s.seqnumToPos n ∧ s.seqnumToPos n ≤ pos ∧
            pos < s.seqnumToPos n + s.maxPlainChunkSize n := by
  refine ⟨by decide, by decide, by decide, fun h => ?_⟩
  have hchunk := h mebibytes (by decide) (by decide) (2 ^ 32) (by decide) (by decide) 4096
    (by decide)
  exact absurd hchunk (by decide)

end ChunkSizes

end Hatn.Crypt
