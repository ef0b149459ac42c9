import Hatn.Crypt.StreamFile

/-!
# Sessions of appending

A file that sessions have written is its header, full chunks one behind the other (`Stored`) and
what is in the last chunk (`Packed`).  Writing keeps this layout: a session encrypts the last chunk
again with its first write and continues its stream with the next ones.  From the layout the size
is found again, and so is the position that the next session writes to.

The layout is kept as long as no position wraps (`Recoverable`).  Where only the first chunk has a
size, the other one has none when it is written, but is taken for one of the packed size of the
first chunk when the file is opened; and a session cannot step from the first chunk into it.
-/

namespace Hatn.Crypt

/-! ### The stream -/

namespace StreamCipher

variable {e : StreamCipher} {iv : List UInt8} {seqnum : Nat}

@[simp] theorem encryptFrom_length (i : Nat) (data : List UInt8) :
    (e.encryptFrom iv seqnum i data).length = data.length := by
  simp [encryptFrom]

/-- **A stream that is continued is one stream.** -/
theorem encryptFrom_append (i : Nat) (data more : List UInt8) :
    e.encryptFrom iv seqnum i (data ++ more) =
      e.encryptFrom iv seqnum i data ++ e.encryptFrom iv seqnum (i + data.length) more := by
  simp only [encryptFrom, List.mapIdx_append]
  congr 2
  funext k b
  rw [Nat.add_assoc, Nat.add_comm k]

theorem decrypt_encryptFrom (data : List UInt8) :
    e.decrypt iv seqnum (e.encryptFrom iv seqnum 0 data) = data := by
  simp only [decrypt, encryptFrom, List.mapIdx_mapIdx, Function.comp_def, Nat.zero_add,
    e.decrypt_encrypt]
  rw [List.mapIdx_eq_iff]
  intro i
  rw [Option.map_id']

end StreamCipher

theorem writeAt_end (raw data : List UInt8) : writeAt raw raw.length data = raw ++ data := by
  rw [writeAt, Nat.sub_self, List.replicate_zero, List.append_nil, List.take_length,
    List.drop_of_length_le (Nat.le_add_right _ _), List.append_nil]

/-- What is behind a position is overwritten by data that is not shorter. -/
theorem writeAt_append {a b data : List UInt8} (h : b.length ≤ data.length) :
    writeAt (a ++ b) a.length data = a ++ data := by
  have hzero : a.length - (a ++ b).length = 0 := by
    rw [List.length_append]
    omega
  rw [writeAt, hzero, List.replicate_zero, List.append_nil, List.take_left,
    List.drop_of_length_le, List.append_nil]
  rw [List.length_append]
  omega

/-! ### Positions that are not wrapped -/

namespace ChunkSizes

variable {s : ChunkSizes}

def plainBegin (s : ChunkSizes) (n : Nat) : Nat :=
  if n = 0 then 0 else s.maxPlainChunkSize 0 + (n - 1) * s.chunkMaxSize

def rawBegin (s : ChunkSizes) (n : Nat) : Nat :=
  if n = 0 then 0
  else s.maxPlainChunkSize 0 + s.packedExtraSize + (n - 1) * (s.chunkMaxSize + s.packedExtraSize)

/-- The beginning of the chunk is not wrapped. -/
def Addressable (s : ChunkSizes) (n : Nat) : Prop :=
  n = 0 ∨ 0 < s.maxPlainChunkSize 0 ∧ s.rawBegin n < 2 ^ 32 ∧ (s.chunkMaxSize = 0 → n = 1)

theorem plainBegin_le_rawBegin (s : ChunkSizes) (n : Nat) : s.plainBegin n ≤ s.rawBegin n := by
  rw [plainBegin, rawBegin]
  split
  next => exact le_rfl
  next =>
    rw [Nat.mul_add]
    omega

theorem plainBegin_succ (s : ChunkSizes) (n : Nat) :
    s.plainBegin (n + 1) = s.plainBegin n + s.maxPlainChunkSize n := by
  cases n with
  | zero => simp [plainBegin]
  | succ n =>
    rw [plainBegin, plainBegin, if_neg (Nat.succ_ne_zero _), if_neg (Nat.succ_ne_zero _),
      s.maxPlainChunkSize_succ (Nat.succ_ne_zero n)]
    simp only [Nat.add_sub_cancel]
    ring

theorem rawBegin_succ (s : ChunkSizes) (n : Nat) :
    s.rawBegin (n + 1) = s.rawBegin n + (s.packedExtraSize + s.maxPlainChunkSize n) := by
  cases n with
  | zero =>
    rw [rawBegin, rawBegin, if_neg (Nat.succ_ne_zero 0), if_pos rfl]
    ring
  | succ n =>
    rw [rawBegin, rawBegin, if_neg (Nat.succ_ne_zero _), if_neg (Nat.succ_ne_zero _),
      s.maxPlainChunkSize_succ (Nat.succ_ne_zero n)]
    simp only [Nat.add_sub_cancel]
    ring

theorem rawBegin_ge {n : Nat} (hn : n ≠ 0) :
    s.maxPlainChunkSize 0 + s.packedExtraSize ≤ s.rawBegin n := by
  rw [rawBegin, if_neg hn]
  exact Nat.le_add_right _ _

theorem maxPackedChunkSize_first (hF : 0 < s.maxPlainChunkSize 0)
    (h : s.maxPlainChunkSize 0 + s.packedExtraSize < 2 ^ 32) :
    s.maxPackedChunkSize 0 = some (s.maxPlainChunkSize 0 + s.packedExtraSize) := by
  rw [maxPackedChunkSize_zero hF, firstPacked, Nat.mod_eq_of_lt h]

/-- Without a size of the other chunks, they have two vectors and the size of the first one. -/
theorem maxPackedChunkSize_other {n : Nat} (hn : n ≠ 0) (hF : 0 < s.maxPlainChunkSize 0)
    (h : s.maxPlainChunkSize 0 + s.packedExtraSize < 2 ^ 32) :
    s.maxPackedChunkSize n = some (if s.chunkMaxSize = 0
      then (s.maxPlainChunkSize 0 + s.packedExtraSize + s.packedExtraSize) % 2 ^ 32
      else s.otherPacked) := by
  split
  next hC =>
    have hfirst := maxPackedChunkSize_first hF h
    rw [maxPackedChunkSize, if_pos rfl] at hfirst
    rw [maxPackedChunkSize, if_neg hn, if_pos hC, hfirst, Option.bind_eq_bind, Option.bind_some,
      packedSize, if_pos (by omega)]
  next hC => exact maxPackedChunkSize_succ (Nat.pos_of_ne_zero hC) hn

theorem seqnumToRawPos_eq (dataOffset : Nat) {n : Nat} (hD : dataOffset < 2 ^ 63)
    (h : s.Addressable n) : s.seqnumToRawPos dataOffset n = some (dataOffset + s.rawBegin n) := by
  obtain rfl | ⟨hF, hraw, hC⟩ := h
  · rfl
  by_cases hn : n = 0
  · subst hn
    rfl
  have hge := rawBegin_ge (s := s) hn
  have hsize := maxPackedChunkSize_other hn hF (by omega)
  obtain ⟨size, hif⟩ : ∃ size, size = if s.chunkMaxSize = 0
      then (s.maxPlainChunkSize 0 + s.packedExtraSize + s.packedExtraSize) % 2 ^ 32
      else s.otherPacked := ⟨_, rfl⟩
  rw [← hif] at hsize
  have hsum : s.maxPlainChunkSize 0 + s.packedExtraSize + (n - 1) * size = s.rawBegin n := by
    rw [rawBegin, if_neg hn] at hraw ⊢
    by_cases hone : n = 1
    · rw [hone, Nat.sub_self, Nat.zero_mul, Nat.zero_mul]
    · have hle : s.chunkMaxSize + s.packedExtraSize ≤
          (n - 1) * (s.chunkMaxSize + s.packedExtraSize) := Nat.le_mul_of_pos_left _ (by omega)
      rw [hif, if_neg (mt hC hone), otherPacked, Nat.mod_eq_of_lt (by omega)]
  rw [seqnumToRawPos, if_neg hn, maxPackedChunkSize_first hF (by omega), hsize]
  simp only [Option.bind_eq_bind, Option.bind_some, Option.pure_def]
  rw [hsum, Nat.mod_eq_of_lt hraw, Nat.mod_eq_of_lt (by omega), Nat.add_comm]

theorem seqnumToPos_eq {n : Nat} (h : s.Addressable n) : s.seqnumToPos n = s.plainBegin n := by
  obtain rfl | ⟨hF, hraw, hC⟩ := h
  · rfl
  have hle := s.plainBegin_le_rawBegin n
  cases n with
  | zero => rfl
  | succ n =>
    rw [plainBegin, if_neg (Nat.succ_ne_zero n), Nat.add_sub_cancel] at hle ⊢
    rw [seqnumToPos_succ, Nat.mod_eq_of_lt (by omega)]

/-- A position of a chunk is found to be in it. -/
theorem posToSeqnum_begin {n k : Nat} (h : s.Addressable n)
    (hk : s.maxPlainChunkSize n ≠ 0 → k < s.maxPlainChunkSize n) :
    s.posToSeqnum (s.plainBegin n + k) = n := by
  cases n with
  | zero =>
    rw [plainBegin, if_pos rfl, Nat.zero_add, posToSeqnum, if_pos]
    by_cases hzero : s.maxPlainChunkSize 0 = 0
    · exact .inr hzero
    · exact .inl (hk hzero)
  | succ n =>
    obtain h | ⟨hF, hraw, hC⟩ := h
    · exact absurd h (Nat.succ_ne_zero n)
    rw [s.maxPlainChunkSize_succ (Nat.succ_ne_zero n)] at hk
    rw [plainBegin, if_neg (Nat.succ_ne_zero n), Nat.add_sub_cancel, Nat.add_assoc]
    by_cases hzero : s.chunkMaxSize = 0
    · obtain rfl : n = 0 := by simpa using hC hzero
      simp only [posToSeqnum]
      rw [if_neg (by omega), if_pos (.inr hzero)]
    · have hpos := Nat.pos_of_ne_zero hzero
      have hnumber : s.chunkNumber (s.maxPlainChunkSize 0 + (n * s.chunkMaxSize + k)) = n + 1 := by
        rw [chunkNumber, if_neg (by omega), Nat.add_sub_cancel_left, Nat.add_comm _ k,
          Nat.mul_comm, Nat.add_mul_div_left _ _ hpos, Nat.div_eq_of_lt (hk hzero), Nat.zero_add,
          Nat.add_comm]
      have hlt : n < 2 ^ 32 - 1 := by
        rw [rawBegin, if_neg (Nat.succ_ne_zero n), Nat.add_sub_cancel] at hraw
        have hle : n ≤ n * (s.chunkMaxSize + s.packedExtraSize) :=
          Nat.le_mul_of_pos_right _ (by omega)
        omega
      rw [posToSeqnum_eq hF hpos (by omega), hnumber]

theorem chunkOffsetForPos_begin {n k : Nat} (h : s.Addressable n)
    (hk : s.maxPlainChunkSize n ≠ 0 → k < s.maxPlainChunkSize n) (hlt : k < 2 ^ 64) :
    s.chunkOffsetForPos (s.plainBegin n + k) = k := by
  rw [chunkOffsetForPos, chunkBeginForPos_eq, posToSeqnum_begin h hk, seqnumToPos_eq h,
    show s.plainBegin n + k + 2 ^ 64 - s.plainBegin n = k + 2 ^ 64 by omega, Nat.add_mod_right,
    Nat.mod_eq_of_lt hlt]

end ChunkSizes

/-! ### The layout of a file -/

namespace StreamConfig

variable {c : StreamConfig}

theorem packedExtraSize_eq (c : StreamConfig) : c.sizes.packedExtraSize = c.cipher.prefixSize := rfl

/-- A packed chunk: the vector and the encrypted contents. -/
def packed (c : StreamConfig) (iv : List UInt8) (seqnum : Nat) (content : List UInt8) :
    List UInt8 :=
  iv ++ c.cipher.encryptFrom iv seqnum 0 content

/-- Full chunks one behind the other, and the contents of all of them. -/
inductive Stored (c : StreamConfig) : Nat → List UInt8 → List UInt8 → Prop
  | none : Stored c 0 [] []
  | chunk {n : Nat} {raw plain iv content : List UInt8} (before : Stored c n raw plain)
      (hiv : iv.length = c.cipher.prefixSize) (hne : content ≠ [])
      (hfull : content.length = c.sizes.maxPlainChunkSize n) :
      Stored c (n + 1) (raw ++ c.packed iv n content) (plain ++ content)

/-- What is in the file of the last chunk. -/
def Packed (c : StreamConfig) (n : Nat) (content cur : List UInt8) : Prop :=
  content = [] ∧ cur = [] ∨
    content ≠ [] ∧ ∃ iv, iv.length = c.cipher.prefixSize ∧ cur = c.packed iv n content

/-- The layout of a file with contents: the full chunks `done` of `plain` and the last chunk `cur`
of `content`. -/
structure Layout (c : StreamConfig) (n : Nat) (done plain cur content raw bytes : List UInt8) :
    Prop where
  stored : Stored c n done plain
  packed : Packed c n content cur
  raw_eq : raw = c.header ++ (done ++ cur)
  bytes_eq : bytes = plain ++ content
  length_le : c.sizes.maxPlainChunkSize n ≠ 0 → content.length ≤ c.sizes.maxPlainChunkSize n

@[simp] theorem packed_length (iv : List UInt8) (n : Nat) (content : List UInt8) :
    (c.packed iv n content).length = iv.length + content.length := by
  simp [StreamConfig.packed]

theorem Stored.lengths {n : Nat} {done plain : List UInt8} (h : Stored c n done plain) :
    done.length = c.sizes.rawBegin n ∧ plain.length = c.sizes.plainBegin n := by
  induction h with
  | none => exact ⟨rfl, rfl⟩
  | chunk before hiv hne hfull ih =>
    rw [List.length_append, List.length_append, packed_length, ChunkSizes.rawBegin_succ,
      ChunkSizes.plainBegin_succ, ih.1, ih.2, hiv, hfull, packedExtraSize_eq]
    exact ⟨rfl, rfl⟩

/-- The chunks that are full have a size. -/
theorem Stored.sizes_pos {n : Nat} {done plain : List UInt8} (h : Stored c n done plain) :
    ∀ i < n, 0 < c.sizes.maxPlainChunkSize i := by
  induction h with
  | none => exact fun i hi => absurd hi (Nat.not_lt_zero i)
  | chunk before hiv hne hfull ih =>
    intro i hi
    obtain hi | rfl := Nat.lt_succ_iff_lt_or_eq.mp hi
    · exact ih i hi
    · rw [← hfull]
      exact List.length_pos_iff.mpr hne

theorem Packed.length {n : Nat} {content cur : List UInt8} (h : Packed c n content cur) :
    cur.length = if content = [] then 0 else c.cipher.prefixSize + content.length := by
  obtain ⟨rfl, rfl⟩ | ⟨hne, iv, hiv, rfl⟩ := h
  · rfl
  · rw [if_neg hne, packed_length, hiv]

/-! ### Sizes that are found again -/

/-- **The sizes that are found again**: nothing is stored, or the first chunk has a size and no
position up to the end of the contents wraps; where the other chunks have no size, there is no
more in the second one than the packed size of the first. -/
def Recoverable (c : StreamConfig) (size : Nat) : Prop :=
  let first := c.sizes.maxPlainChunkSize 0
  let firstPacked := first + c.cipher.prefixSize
  size = 0 ∨ 0 < first ∧ firstPacked < 2 ^ 32 ∧
    (first ≤ size → c.sizes.maxPackedChunkSize 1 ≠ some 0) ∧
    (first < size → c.chunkMaxSize = 0 →
      firstPacked + c.cipher.prefixSize < 2 ^ 32 ∧ size ≤ first + firstPacked) ∧
    (first < size → c.chunkMaxSize ≠ 0 → c.chunkMaxSize + c.cipher.prefixSize < 2 ^ 32 ∧
      firstPacked + (size - first) / c.chunkMaxSize *
        (c.chunkMaxSize + c.cipher.prefixSize) < 2 ^ 32)

instance (c : StreamConfig) (size : Nat) : Decidable (c.Recoverable size) :=
  inferInstanceAs (Decidable (_ ∨ _))

theorem Recoverable.mono {size size' : Nat} (h : c.Recoverable size') (hle : size ≤ size') :
    c.Recoverable size := by
  obtain h | ⟨hF, hfirst, hne, hzero, hother⟩ := h
  · exact .inl (by omega)
  refine .inr ⟨hF, hfirst, fun hle' => hne (hle'.trans hle), fun hlt hC => ?_, fun hlt hC => ?_⟩
  · have hsecond := hzero (hlt.trans_le hle) hC
    exact ⟨hsecond.1, hle.trans hsecond.2⟩
  · have hmore := hother (hlt.trans_le hle) hC
    have hdiv := Nat.div_le_div_right (c := c.chunkMaxSize)
      (Nat.sub_le_sub_right hle (c.sizes.maxPlainChunkSize 0))
    have hmul := Nat.mul_le_mul_right (c.chunkMaxSize + c.cipher.prefixSize) hdiv
    exact ⟨hmore.1, by omega⟩

/-- Chunks that begin in contents that are found again are not wrapped. -/
theorem Stored.addressable {n size : Nat} {done plain : List UInt8} (h : Stored c n done plain)
    (hrec : c.Recoverable size) (hle : plain.length ≤ size) : c.sizes.Addressable n := by
  have hpos := h.sizes_pos
  obtain ⟨-, hplain⟩ := h.lengths
  by_cases hn : n = 0
  · exact .inl hn
  have hfirst := hpos 0 (Nat.pos_of_ne_zero hn)
  rw [hplain, ChunkSizes.plainBegin, if_neg hn] at hle
  obtain hzero | ⟨hF, hlt, -, -, hmore⟩ := hrec
  · omega
  refine .inr ⟨hF, ?_, fun hC => ?_⟩
  · rw [ChunkSizes.rawBegin, if_neg hn, packedExtraSize_eq]
    by_cases hone : n = 1
    · rw [hone, Nat.sub_self, Nat.zero_mul]
      exact hlt
    · have hC := hpos 1 (by omega)
      have hC' : 0 < c.chunkMaxSize := hC
      have hmul : c.chunkMaxSize ≤ (n - 1) * c.chunkMaxSize :=
        Nat.le_mul_of_pos_left _ (by omega)
      have hle' : c.sizes.maxPlainChunkSize 0 + (n - 1) * c.chunkMaxSize ≤ size := hle
      have hmore := hmore (by omega) hC'.ne'
      have hquot : n - 1 ≤ (size - c.sizes.maxPlainChunkSize 0) / c.chunkMaxSize := by
        rw [Nat.le_div_iff_mul_le hC']
        omega
      have hmul := Nat.mul_le_mul_right (c.chunkMaxSize + c.cipher.prefixSize) hquot
      exact lt_of_le_of_lt (Nat.add_le_add_left hmul _) hmore.2
  · by_contra hone
    have hC' : 0 < c.sizes.chunkMaxSize := hpos 1 (by omega)
    omega

/-! ### The size of a file -/

theorem streamSize_eq_chunks {size : Nat} (hF : 0 < c.sizes.maxPlainChunkSize 0)
    (hfirst : c.sizes.maxPlainChunkSize 0 + c.cipher.prefixSize < 2 ^ 32) (hsize : size ≠ 0) :
    c.streamSize size = c.sizeOfChunks (c.sizes.maxPlainChunkSize 0)
      (c.sizes.maxPlainChunkSize 0 + c.cipher.prefixSize) c.cipher.prefixSize size := by
  have hiv : (c.sizes.maxPlainChunkSize 0 + c.sizes.packedExtraSize + 2 ^ 32 -
      c.sizes.maxPlainChunkSize 0) % 2 ^ 32 = c.cipher.prefixSize := by
    rw [packedExtraSize_eq]
    omega
  rw [streamSize, if_neg hsize, ChunkSizes.maxPackedChunkSize_first hF hfirst,
    Option.bind_eq_bind, Option.bind_some, hiv]
  rfl

/-- The size of a file with a part of the first chunk. -/
theorem streamSize_first {size : Nat} (hF : 0 < c.sizes.maxPlainChunkSize 0)
    (hfirst : c.sizes.maxPlainChunkSize 0 + c.cipher.prefixSize < 2 ^ 32) (hsize : size ≠ 0)
    (hlt : size < c.sizes.maxPlainChunkSize 0) :
    c.streamSize (c.cipher.prefixSize + size) = some size := by
  rw [streamSize_eq_chunks hF hfirst (by omega), sizeOfChunks, if_neg (by omega),
    if_pos (by omega), Nat.add_sub_cancel_left]

/-- The size of a file whose first chunk is full: `quot` other chunks are full and `rem` bytes are
in the last one. -/
theorem streamSize_rest (quot rem plain : Nat) {chunkSize : Nat} (hF : 0 < c.sizes.maxPlainChunkSize 0)
    (hfirst : c.sizes.maxPlainChunkSize 0 + c.cipher.prefixSize < 2 ^ 32)
    (hchunk : c.sizes.maxPackedChunkSize 1 = some chunkSize) (hrem : rem < chunkSize)
    (hiv : rem = 0 ∨ c.cipher.prefixSize ≤ rem)
    (hplain : plain = (chunkSize + 2 ^ 32 - c.cipher.prefixSize) % 2 ^ 32)
    (hlt : c.sizes.maxPlainChunkSize 0 + quot * plain + (rem - c.cipher.prefixSize) < 2 ^ 64) :
    c.streamSize (c.sizes.maxPlainChunkSize 0 + c.cipher.prefixSize + (quot * chunkSize + rem)) =
      some (c.sizes.maxPlainChunkSize 0 + quot * plain + (rem - c.cipher.prefixSize)) := by
  have hdiv : (quot * chunkSize + rem) / chunkSize = quot := by
    rw [Nat.mul_comm, Nat.mul_add_div (by omega), Nat.div_eq_of_lt hrem, Nat.add_zero]
  have hmod : (quot * chunkSize + rem) % chunkSize = rem := by
    rw [Nat.mul_comm, Nat.mul_add_mod, Nat.mod_eq_of_lt hrem]
  rw [streamSize_eq_chunks hF hfirst (by omega), sizeOfChunks, if_neg (by omega),
    if_neg (by omega), hchunk, Option.bind_eq_bind, Option.bind_some, if_neg (by omega),
    Nat.add_sub_cancel_left, hdiv, hmod, ← hplain]
  have hrest : (if rem = 0 then c.cipher.prefixSize else rem) - c.cipher.prefixSize =
      rem - c.cipher.prefixSize := by
    split <;> omega
  rw [if_neg, hrest]
  · exact congrArg some (Nat.mod_eq_of_lt hlt)
  · split <;> omega

/-- **The size of a file is found again from its length.** -/
theorem Layout.streamSize_eq {n : Nat} {done plain cur content raw bytes : List UInt8}
    (h : Layout c n done plain cur content raw bytes)
    (hlt : c.sizes.maxPlainChunkSize n ≠ 0 → content.length < c.sizes.maxPlainChunkSize n)
    (hrec : c.Recoverable bytes.length) :
    c.streamSize (done ++ cur).length = some bytes.length := by
  obtain ⟨hdone, hplain⟩ := h.stored.lengths
  have hcur := h.packed.length
  have hbytes : bytes.length = c.sizes.plainBegin n + content.length := by
    rw [h.bytes_eq, List.length_append, hplain]
  rw [List.length_append, hdone, hcur, hbytes]
  rw [hbytes] at hrec
  by_cases hn : n = 0
  · subst hn
    by_cases hcontent : content = []
    · subst hcontent
      rfl
    have hne : content.length ≠ 0 := mt List.length_eq_zero_iff.mp hcontent
    simp only [ChunkSizes.rawBegin, ChunkSizes.plainBegin, if_true, Nat.zero_add] at hrec ⊢
    obtain hzero | ⟨hF, hfirst, -⟩ := hrec
    · exact absurd hzero hne
    rw [if_neg hcontent]
    exact streamSize_first hF hfirst hne (hlt hF.ne')
  have hpositive := h.stored.sizes_pos 0 (Nat.pos_of_ne_zero hn)
  have hraw : c.sizes.rawBegin n = c.sizes.maxPlainChunkSize 0 + c.cipher.prefixSize +
      (n - 1) * (c.chunkMaxSize + c.cipher.prefixSize) := if_neg hn
  have hpos : c.sizes.plainBegin n = c.sizes.maxPlainChunkSize 0 + (n - 1) * c.chunkMaxSize :=
    if_neg hn
  obtain ⟨rem, hrem⟩ : ∃ rem, rem =
      if content = [] then 0 else c.cipher.prefixSize + content.length := ⟨_, rfl⟩
  have hrem' : rem = 0 ∧ content.length = 0 ∨
      rem = c.cipher.prefixSize + content.length ∧ content.length ≠ 0 := by
    split at hrem
    next hcontent => exact .inl ⟨hrem, by rw [hcontent]; rfl⟩
    next hcontent => exact .inr ⟨hrem, mt List.length_eq_zero_iff.mp hcontent⟩
  rw [← hrem, hraw, hpos, Nat.add_assoc (_ + c.cipher.prefixSize)]
  rw [hpos] at hrec
  obtain hzero | ⟨hF, hfirst, hnonzero, hsecond, hother⟩ := hrec
  · omega
  have hchunk := ChunkSizes.maxPackedChunkSize_other one_ne_zero hF hfirst
  have hne := hnonzero (by omega)
  have hbound := c.sizes.maxPlainChunkSize_lt 0
  have hp := c.cipher.prefix_lt
  by_cases hnothing : n = 1 ∧ rem = 0
  · -- the first chunk is full and nothing is behind it
    obtain ⟨rfl, hrem0⟩ := hnothing
    rw [hchunk] at hne
    have hpos := Nat.pos_of_ne_zero (mt (congrArg some) hne)
    have hsize := streamSize_rest 0 0 _ hF hfirst hchunk hpos (.inl rfl) rfl (by omega)
    rw [hrem0, show content.length = 0 by omega]
    simpa using hsize
  by_cases hC : c.chunkMaxSize = 0
  · -- the second chunk has no size, and there is no third one
    have hone : n = 1 := by
      by_contra hone
      have hpos := h.stored.sizes_pos 1 (by omega)
      exact absurd hC hpos.ne'
    obtain ⟨hrem', hcontent⟩ : rem = c.cipher.prefixSize + content.length ∧ content.length ≠ 0 := by
      omega
    rw [hone, Nat.sub_self, Nat.zero_mul, Nat.add_zero] at hsecond
    obtain ⟨hsum, hle⟩ := hsecond (by omega) hC
    rw [if_pos (show c.sizes.chunkMaxSize = 0 from hC), packedExtraSize_eq,
      Nat.mod_eq_of_lt hsum] at hchunk
    rw [hone, Nat.sub_self, Nat.zero_mul, Nat.zero_mul, Nat.zero_add, Nat.add_zero]
    obtain hlt' | heq := Nat.lt_or_eq_of_le (show content.length ≤
        c.sizes.maxPlainChunkSize 0 + c.cipher.prefixSize by omega)
    · have hsize := streamSize_rest 0 rem _ hF hfirst hchunk (by omega)
        (.inr (by omega)) rfl (by omega)
      rw [Nat.zero_mul, Nat.zero_mul, Nat.zero_add, Nat.add_zero] at hsize
      rw [hsize, hrem', Nat.add_sub_cancel_left]
    · have hsize := streamSize_rest 1 0
        (c.sizes.maxPlainChunkSize 0 + c.cipher.prefixSize) hF hfirst hchunk (by omega)
        (.inl rfl) (by omega) (by omega)
      rw [Nat.one_mul, Nat.one_mul, Nat.add_zero, Nat.zero_sub, Nat.add_zero] at hsize
      rw [hrem', heq, ← hsize]
      congr 1
      omega
  · have hC' := Nat.pos_of_ne_zero hC
    have hlength := hlt (by rw [c.sizes.maxPlainChunkSize_succ hn]; exact hC)
    rw [c.sizes.maxPlainChunkSize_succ hn] at hlength
    have hlength' : content.length < c.chunkMaxSize := hlength
    have hmul : n = 1 ∨ c.chunkMaxSize ≤ (n - 1) * c.chunkMaxSize := by
      by_cases hone : n = 1
      · exact .inl hone
      · exact .inr (Nat.le_mul_of_pos_left _ (by omega))
    have hmore := hother (by omega) hC
    rw [if_neg (show ¬ c.sizes.chunkMaxSize = 0 from hC)] at hchunk
    have hpacked : c.sizes.otherPacked = c.chunkMaxSize + c.cipher.prefixSize :=
      Nat.mod_eq_of_lt hmore.1
    rw [hpacked] at hchunk
    have hle := c.sizes.plainBegin_le_rawBegin n
    rw [hpos] at hle
    have hrec : c.Recoverable bytes.length :=
      hbytes ▸ hpos ▸ .inr ⟨hF, hfirst, hnonzero, hsecond, hother⟩
    have haddr := h.stored.addressable hrec (by omega)
    obtain hzero | ⟨-, hraw', -⟩ := haddr
    · exact absurd hzero hn
    have hsize := streamSize_rest (n - 1) rem c.chunkMaxSize hF hfirst
      hchunk (by omega) (by omega) (by omega) (by omega)
    rw [hsize, Option.some.injEq]
    omega

/-! ### Reading chunks -/

theorem seekRawChunk_eq {f : StreamFile} {chunk : StreamChunk} (pre rest : List UInt8)
    (haddr : c.sizes.Addressable chunk.seqnum) (hraw : f.raw = c.header ++ (pre ++ rest))
    (hsize : f.ciphertextSize = (pre ++ rest).length)
    (hpre : pre.length = c.sizes.rawBegin chunk.seqnum) :
    c.seekRawChunk f chunk = some (c.dataOffset + pre.length) := by
  have hlength : f.raw.length = c.dataOffset + (pre ++ rest).length := by
    rw [hraw, List.length_append]
    rfl
  have hpos := ChunkSizes.seqnumToRawPos_eq c.dataOffset c.header_lt haddr
  rw [List.length_append] at hlength hsize
  rw [seekRawChunk, if_neg (by rw [eofPos]; omega), hpos, Option.bind_eq_bind, Option.bind_some,
    eofPos, if_neg (by omega), hpre]

theorem maxPackedChunkSizeOf_isSome {n : Nat} (haddr : c.sizes.Addressable n) (size : Nat) :
    ∃ m, c.maxPackedChunkSizeOf n size = some m := by
  rw [maxPackedChunkSizeOf]
  split
  next hsizes =>
    obtain rfl | ⟨hF, hraw, -⟩ := haddr
    · have hF : 0 < c.sizes.maxPlainChunkSize 0 := by
        by_cases hfirst : c.firstChunkMaxSize = 0
        · have hC : 0 < c.chunkMaxSize := by omega
          exact hC.trans_eq (if_pos hfirst).symm
        · exact (Nat.pos_of_ne_zero hfirst).trans_eq (if_neg hfirst).symm
      exact ⟨_, ChunkSizes.maxPackedChunkSize_zero hF⟩
    · by_cases hn : n = 0
      · subst hn
        exact ⟨_, ChunkSizes.maxPackedChunkSize_zero hF⟩
      · have hge := ChunkSizes.rawBegin_ge (s := c.sizes) hn
        exact ⟨_, ChunkSizes.maxPackedChunkSize_other hn hF (by omega)⟩
  next =>
    simp only
    split
    · exact ⟨_, rfl⟩
    · exact ⟨_, rfl⟩

/-- Nothing is read from a chunk that begins at the end of the file. -/
theorem readRawChunk_end {f : StreamFile} (chunk : StreamChunk) (pre : List UInt8)
    (haddr : c.sizes.Addressable chunk.seqnum) (hraw : f.raw = c.header ++ pre)
    (hsize : f.ciphertextSize = pre.length)
    (hpre : pre.length = c.sizes.rawBegin chunk.seqnum) (overwriteSize : Nat) :
    c.readRawChunk f chunk overwriteSize = some chunk := by
  obtain ⟨m, hm⟩ := maxPackedChunkSizeOf_isSome haddr (f.ciphertextSize % 2 ^ 32)
  have hseek := seekRawChunk_eq pre [] haddr (by rw [List.append_nil, hraw])
    (by rw [List.append_nil, hsize]) hpre
  rw [readRawChunk, hseek, Option.bind_eq_bind, Option.bind_some, hm, Option.bind_some,
    if_pos]
  rw [eofPos]
  split <;> omega

theorem unpackChunk_packed {n : Nat} {iv content : List UInt8}
    (hiv : iv.length = c.cipher.prefixSize) (hne : content ≠ []) :
    c.unpackChunk n (c.packed iv n content) = some content := by
  have hlength := List.length_pos_iff.mpr hne
  have hnonempty : (c.packed iv n content).isEmpty = false := by
    rw [← Bool.not_eq_true, List.isEmpty_iff_length_eq_zero, packed_length]
    omega
  rw [unpackChunk, hnonempty, if_neg (by decide), if_neg (by rw [packed_length]; omega),
    StreamConfig.packed, ← hiv, List.take_left, List.drop_left, StreamCipher.decrypt_encryptFrom]

/-- **What was packed into a chunk is read from it**, where the chunk is not longer than a packed
chunk at most, and as long where others follow. -/
theorem readRawChunk_packed {f : StreamFile} (chunk : StreamChunk) {m : Nat}
    (pre tail : List UInt8) {iv content : List UInt8} (haddr : c.sizes.Addressable chunk.seqnum)
    (hraw : f.raw = c.header ++ (pre ++ (c.packed iv chunk.seqnum content ++ tail)))
    (hsize : f.ciphertextSize = (pre ++ (c.packed iv chunk.seqnum content ++ tail)).length)
    (hpre : pre.length = c.sizes.rawBegin chunk.seqnum) (hiv : iv.length = c.cipher.prefixSize)
    (hne : content ≠ []) (hnew : chunk.content = [])
    (hm : c.maxPackedChunkSizeOf chunk.seqnum (f.ciphertextSize % 2 ^ 32) = some m)
    (hle : iv.length + content.length ≤ m)
    (htail : tail = [] ∨ iv.length + content.length = m) :
    c.readRawChunk f chunk 0 = some
      { chunk with content := content, ciphertextSize := iv.length + content.length } := by
  have hlength := List.length_pos_iff.mpr hne
  have hseek := seekRawChunk_eq pre _ haddr hraw hsize hpre
  simp only [List.length_append, packed_length] at hsize
  have hchunk : (if c.eofPos f < c.dataOffset + pre.length + m
      then c.eofPos f - (c.dataOffset + pre.length) else m) = iv.length + content.length := by
    rw [eofPos, hsize]
    obtain rfl | htail := htail
    · rw [List.length_nil]
      split <;> omega
    · split <;> omega
  have hbuffer : (f.raw.drop (c.dataOffset + pre.length)).take (iv.length + content.length) =
      c.packed iv chunk.seqnum content := by
    have hoffset : c.dataOffset + pre.length = (c.header ++ pre).length := List.length_append.symm
    rw [hraw, ← List.append_assoc, hoffset, List.drop_left, ← packed_length (c := c) iv
      chunk.seqnum, List.take_left]
  have hread : ¬ (c.packed iv chunk.seqnum content).length ≠ iv.length + content.length := by
    rw [packed_length]
    exact not_not_intro rfl
  rw [readRawChunk, hseek, Option.bind_eq_bind, Option.bind_some, hm, Option.bind_some, hchunk,
    if_neg (by omega), if_pos rfl, hbuffer]
  simp only [if_neg hread, unpackChunk_packed hiv hne, Option.bind_eq_bind, Option.bind_some,
    hnew, List.nil_append]

/-! ### Open files -/

/-- The stream of a chunk that was written before is the one of its vector. -/
def Continued (c : StreamConfig) (f : StreamFile) (chunk : StreamChunk) (cur : List UInt8) :
    Prop :=
  chunk.streamWriteCursor = chunk.content.length ∧ chunk.content ≠ [] ∧
    ∃ iv, iv.length = c.cipher.prefixSize ∧ cur = c.packed iv chunk.seqnum chunk.content ∧
      f.encryptor = some ⟨iv, chunk.seqnum, chunk.content.length⟩

/-- A file that is open at the end of its contents. -/
structure Opened (c : StreamConfig) (f : StreamFile) (chunk : StreamChunk)
    (done plain cur bytes : List UInt8) : Prop where
  current : f.currentChunk = some chunk
  layout : Layout c chunk.seqnum done plain cur chunk.content f.raw bytes
  dirty : chunk.dirty = false
  offset : chunk.offset = chunk.content.length
  maxSize : chunk.maxSize = c.sizes.maxPlainChunkSize chunk.seqnum
  chunkSize : chunk.ciphertextSize = cur.length
  stream : chunk.streamWriteCursor = 0 ∨ Continued c f chunk cur
  size : f.size = bytes.length
  cursor : f.cursor = bytes.length
  fileSize : f.ciphertextSize = (done ++ cur).length
  last : f.eofSeqnum = chunk.seqnum

theorem putContent_end {chunk : StreamChunk} (h : chunk.offset = chunk.content.length)
    (data : List UInt8) : putContent chunk data = chunk.content ++ data := by
  rw [putContent, h, writeAt_end]

/-- What a pass of writing does to the members before the chunk is encrypted. -/
def afterPut (f : StreamFile) (writeSize : Nat) : StreamFile :=
  { f with size := f.size + writeSize, cursor := f.cursor + writeSize }

def chunkAfterPut (chunk : StreamChunk) (data : List UInt8) : StreamChunk :=
  { chunk with content := chunk.content ++ data, offset := chunk.offset + data.length }

theorem Opened.raw_eq {f : StreamFile} {chunk : StreamChunk} {done plain cur bytes : List UInt8}
    (h : Opened c f chunk done plain cur bytes) : f.raw = c.header ++ done ++ cur := by
  rw [h.layout.raw_eq, List.append_assoc]

/-- The chunk is encrypted from its beginning. -/
theorem Opened.encryptFirst {f : StreamFile} {chunk : StreamChunk}
    {done plain cur bytes data : List UInt8} (h : Opened c f chunk done plain cur bytes)
    (hne : data ≠ []) (hle : c.sizes.maxPlainChunkSize chunk.seqnum ≠ 0 →
      chunk.content.length + data.length ≤ c.sizes.maxPlainChunkSize chunk.seqnum) :
    ∃ chunk' cur', chunk'.seqnum = chunk.seqnum ∧
      Opened c (c.encryptFirst (afterPut f data.length) (chunkAfterPut chunk data)
        (c.header ++ done).length chunk.content.length data.length) chunk' done plain cur'
        (bytes ++ data) := by
  have hcur := h.layout.packed.length
  have hcontent : chunk.content ++ data ≠ [] := by simp [hne]
  have hiv := c.cipher.generateIV_length f.generated
  have hlength : (c.packed (c.cipher.generateIV f.generated) chunk.seqnum
      (chunk.content ++ data)).length =
      c.cipher.prefixSize + (chunk.content.length + data.length) := by
    rw [packed_length, List.length_append, hiv]
  have hwrite : writeAt f.raw (c.header ++ done).length
      (c.packed (c.cipher.generateIV f.generated) chunk.seqnum (chunk.content ++ data)) =
      c.header ++ (done ++ c.packed (c.cipher.generateIV f.generated) chunk.seqnum
        (chunk.content ++ data)) := by
    rw [h.raw_eq, writeAt_append, List.append_assoc]
    rw [hcur, hlength]
    split <;> omega
  have hsize : cur.length + (if chunk.content.length = 0 then data.length + c.cipher.prefixSize
      else data.length) = (c.packed (c.cipher.generateIV f.generated) chunk.seqnum
        (chunk.content ++ data)).length := by
    rw [hcur, hlength]
    by_cases hnil : chunk.content = []
    · rw [if_pos hnil, if_pos (List.length_eq_zero_iff.mpr hnil), hnil, List.length_nil]
      omega
    · rw [if_neg hnil, if_neg (mt List.length_eq_zero_iff.mp hnil)]
      omega
  have hfile : f.ciphertextSize + (if chunk.content.length = 0
      then data.length + c.cipher.prefixSize else data.length) =
      (done ++ c.packed (c.cipher.generateIV f.generated) chunk.seqnum
        (chunk.content ++ data)).length := by
    rw [h.fileSize, List.length_append, List.length_append, Nat.add_assoc, hsize]
  refine ⟨_, c.packed (c.cipher.generateIV f.generated) chunk.seqnum (chunk.content ++ data), ?_,
    { current := rfl, layout := ⟨h.layout.stored, .inr ⟨hcontent, _, hiv, rfl⟩, hwrite, ?_, ?_⟩,
      dirty := h.dirty, offset := ?_, maxSize := h.maxSize, chunkSize := ?_, stream := ?_,
      size := ?_, cursor := ?_, fileSize := ?_, last := h.last }⟩
  · rfl
  · rw [h.layout.bytes_eq, List.append_assoc]
    rfl
  · intro hmax
    exact List.length_append.trans_le (hle hmax)
  · exact (congrArg (· + data.length) h.offset).trans List.length_append.symm
  · exact (congrArg (· + _) h.chunkSize).trans hsize
  · exact .inr ⟨rfl, hcontent, _, hiv, rfl, rfl⟩
  · exact (congrArg (· + data.length) h.size).trans List.length_append.symm
  · exact (congrArg (· + data.length) h.cursor).trans List.length_append.symm
  · exact hfile

/-- The stream of the chunk is continued. -/
theorem Opened.encryptNext {f : StreamFile} {chunk : StreamChunk} {encryptor : StreamEncryptor}
    {done plain cur bytes data : List UInt8} (h : Opened c f chunk done plain cur bytes)
    (hcontinued : Continued c f chunk cur) (hencryptor : f.encryptor = some encryptor)
    (hle : c.sizes.maxPlainChunkSize chunk.seqnum ≠ 0 →
      chunk.content.length + data.length ≤ c.sizes.maxPlainChunkSize chunk.seqnum) :
    ∃ chunk' cur', chunk'.seqnum = chunk.seqnum ∧
      Opened c (c.encryptNext (afterPut f data.length) (chunkAfterPut chunk data) encryptor
        (c.header ++ done).length data.length) chunk' done plain cur' (bytes ++ data) := by
  obtain ⟨hcursor, hold, iv, hiv, hpacked, hiv'⟩ := hcontinued
  obtain rfl := Option.some.inj (hencryptor.symm.trans hiv')
  have hcontent : chunk.content ++ data ≠ [] := by simp [hold]
  have hsub : chunk.offset + data.length - chunk.streamWriteCursor = data.length := by
    rw [hcursor, h.offset, Nat.add_sub_cancel_left]
  have hdata : ((chunk.content ++ data).drop chunk.streamWriteCursor).take
      (chunk.offset + data.length - chunk.streamWriteCursor) = data := by
    rw [hsub, hcursor, List.drop_left, List.take_length]
  have happend : c.packed iv chunk.seqnum (chunk.content ++ data) =
      cur ++ c.cipher.encryptFrom iv chunk.seqnum chunk.content.length data := by
    rw [hpacked, StreamConfig.packed, StreamCipher.encryptFrom_append, Nat.zero_add,
      ← List.append_assoc]
    rfl
  have hlength : (c.packed iv chunk.seqnum (chunk.content ++ data)).length =
      cur.length + data.length := by
    rw [happend, List.length_append, StreamCipher.encryptFrom_length]
  have hfile : f.ciphertextSize + data.length =
      (done ++ c.packed iv chunk.seqnum (chunk.content ++ data)).length := by
    rw [h.fileSize, List.length_append, List.length_append, hlength, Nat.add_assoc]
  have hend : (c.header ++ done).length + chunk.ciphertextSize = f.raw.length := by
    rw [h.raw_eq, h.chunkSize]
    exact List.length_append.symm
  have hwrite : writeAt f.raw ((c.header ++ done).length + chunk.ciphertextSize)
      (c.cipher.encryptFrom iv chunk.seqnum chunk.content.length
        (((chunk.content ++ data).drop chunk.streamWriteCursor).take
          (chunk.offset + data.length - chunk.streamWriteCursor))) =
      c.header ++ (done ++ c.packed iv chunk.seqnum (chunk.content ++ data)) := by
    rw [hdata, hend, writeAt_end, happend, h.layout.raw_eq, List.append_assoc, List.append_assoc]
  refine ⟨_, c.packed iv chunk.seqnum (chunk.content ++ data), ?_,
    { current := rfl, layout := ⟨h.layout.stored, .inr ⟨hcontent, iv, hiv, rfl⟩, hwrite, ?_, ?_⟩,
      dirty := h.dirty, offset := ?_, maxSize := h.maxSize, chunkSize := ?_, stream := ?_,
      size := ?_, cursor := ?_, fileSize := ?_, last := h.last }⟩
  · rfl
  · rw [h.layout.bytes_eq, List.append_assoc]
    rfl
  · intro hmax
    exact List.length_append.trans_le (hle hmax)
  · exact (congrArg (· + data.length) h.offset).trans List.length_append.symm
  · exact (congrArg (· + data.length) h.chunkSize).trans hlength.symm
  · refine .inr ⟨?_, hcontent, iv, hiv, rfl, ?_⟩
    · show chunk.streamWriteCursor + (chunk.offset + data.length - chunk.streamWriteCursor) =
        (chunk.content ++ data).length
      rw [hsub, hcursor, List.length_append]
    · show some (StreamEncryptor.mk iv chunk.seqnum (chunk.content.length +
        (((chunk.content ++ data).drop chunk.streamWriteCursor).take
          (chunk.offset + data.length - chunk.streamWriteCursor)).length)) =
        some ⟨iv, chunk.seqnum, (chunk.content ++ data).length⟩
      rw [hdata, List.length_append]
  · exact (congrArg (· + data.length) h.size).trans List.length_append.symm
  · exact (congrArg (· + data.length) h.cursor).trans List.length_append.symm
  · exact hfile

/-- **Data is appended to the last chunk.** -/
theorem Opened.encryptChunk {f : StreamFile} {chunk : StreamChunk}
    {done plain cur bytes data : List UInt8} (h : Opened c f chunk done plain cur bytes)
    (haddr : c.sizes.Addressable chunk.seqnum) (hne : data ≠ [])
    (hle : c.sizes.maxPlainChunkSize chunk.seqnum ≠ 0 →
      chunk.content.length + data.length ≤ c.sizes.maxPlainChunkSize chunk.seqnum) :
    ∃ f' chunk' cur', c.encryptChunk (afterPut f data.length) (chunkAfterPut chunk data)
        chunk.content.length data.length = some f' ∧
      chunk'.seqnum = chunk.seqnum ∧ Opened c f' chunk' done plain cur' (bytes ++ data) := by
  obtain ⟨hdone, -⟩ := h.layout.stored.lengths
  have hpos : c.sizes.seqnumToRawPos c.dataOffset (chunkAfterPut chunk data).seqnum =
      some (c.header ++ done).length := by
    have hpos := ChunkSizes.seqnumToRawPos_eq c.dataOffset c.header_lt haddr
    rw [← hdone] at hpos
    exact hpos.trans (congrArg some List.length_append.symm)
  rw [StreamConfig.encryptChunk, hpos, Option.bind_eq_bind, Option.bind_some]
  obtain hnew | hcontinued := h.stream
  · obtain ⟨chunk', cur', hseqnum, hopened⟩ := h.encryptFirst hne hle
    rw [if_pos (show (chunkAfterPut chunk data).streamWriteCursor = 0 from hnew)]
    exact ⟨_, chunk', cur', rfl, hseqnum, hopened⟩
  · have hlength := List.length_pos_iff.mpr hcontinued.2.1
    have hold : (chunkAfterPut chunk data).streamWriteCursor ≠ 0 :=
      hcontinued.1.trans_ne hlength.ne'
    have hstream := hcontinued
    obtain ⟨-, -, iv, -, -, hencryptor⟩ := hstream
    obtain ⟨chunk', cur', hseqnum, hopened⟩ := h.encryptNext hcontinued hencryptor hle
    rw [if_neg hold, show (afterPut f data.length).encryptor =
      some ⟨iv, chunk.seqnum, chunk.content.length⟩ from hencryptor, Option.bind_eq_bind,
      Option.bind_some]
    exact ⟨_, chunk', cur', rfl, hseqnum, hopened⟩

/-! ### The next chunk -/

/-- Another chunk is sought at the end of the file. -/
theorem doSeek_new {f : StreamFile} {n k : Nat} (overwriteSize : Nat) (chunk : StreamChunk)
    (haddr : c.sizes.Addressable n)
    (hk : c.sizes.maxPlainChunkSize n ≠ 0 → k < c.sizes.maxPlainChunkSize n) (hlt : k < 2 ^ 64)
    (hsize : f.size = c.sizes.plainBegin n + k)
    (hcurrent : ∀ old, f.currentChunk = some old → old.dirty = false ∧ old.seqnum ≠ n)
    (hread : ∀ w, (overwriteSize = 0 → w = 0) →
      c.readRawChunk f ⟨n, false, k, c.sizes.maxPlainChunkSize n, 0, 0, []⟩ w = some chunk) :
    c.doSeek f (c.sizes.plainBegin n + k) overwriteSize = some { f with
      cursor := c.sizes.plainBegin n + k
      currentChunk := some chunk
      eofSeqnum := max f.eofSeqnum n } := by
  have hfilter : f.currentChunk.filter (·.seqnum = n) = none := by
    cases h : f.currentChunk with
    | none => rfl
    | some old => exact Option.filter_some_neg (by simpa using (hcurrent old h).2)
  have hflush : c.flushLastChunk f = some f := by
    rw [flushLastChunk]
    cases h : f.currentChunk with
    | none => rfl
    | some old => exact if_neg (by rw [(hcurrent old h).1, Bool.false_and]; decide)
  rw [doSeek, if_neg (not_not_intro hsize.symm)]
  simp only [ChunkSizes.posToSeqnum_begin haddr hk, ChunkSizes.chunkOffsetForPos_begin haddr hk hlt,
    hfilter, hflush, Option.bind_eq_bind, Option.bind_some]
  rw [hread _ fun h => by rw [h]; split <;> omega, Option.bind_some]

theorem Layout.full {n : Nat} {done plain cur content raw bytes : List UInt8}
    (h : Layout c n done plain cur content raw bytes)
    (hfull : content.length = c.sizes.maxPlainChunkSize n)
    (hpos : c.sizes.maxPlainChunkSize n ≠ 0) :
    Layout c (n + 1) (done ++ cur) bytes [] [] raw bytes := by
  have hne : content ≠ [] := by
    rintro rfl
    exact hpos hfull.symm
  obtain ⟨hnil, -⟩ | ⟨-, iv, hiv, rfl⟩ := h.packed
  · exact absurd hnil hne
  · refine ⟨?_, .inl ⟨rfl, rfl⟩, ?_, (List.append_nil _).symm, fun _ => Nat.zero_le _⟩
    · rw [h.bytes_eq]
      exact .chunk h.stored hiv hne hfull
    · rw [List.append_nil, h.raw_eq]

/-- **From a full chunk the next one is sought**, where it has a size. -/
theorem Opened.doSeek_next {f : StreamFile} {chunk : StreamChunk}
    {done plain cur bytes : List UInt8} (h : Opened c f chunk done plain cur bytes)
    (hfull : chunk.content.length = c.sizes.maxPlainChunkSize chunk.seqnum)
    (hpos : c.sizes.maxPlainChunkSize chunk.seqnum ≠ 0)
    (haddr : c.sizes.Addressable (chunk.seqnum + 1)) (overwriteSize : Nat) :
    ∃ f' chunk', c.doSeek f (c.sizes.seqnumToPos (chunk.seqnum + 1)) overwriteSize = some f' ∧
      chunk'.seqnum = chunk.seqnum + 1 ∧ chunk'.content = [] ∧
      Opened c f' chunk' (done ++ cur) bytes [] bytes := by
  have hlayout := h.layout.full hfull hpos
  obtain ⟨hdone, hplain⟩ := hlayout.stored.lengths
  have hseek := doSeek_new (f := f) (k := 0) overwriteSize
    ⟨chunk.seqnum + 1, false, 0, c.sizes.maxPlainChunkSize (chunk.seqnum + 1), 0, 0, []⟩ haddr (fun hne => Nat.pos_of_ne_zero hne) (by decide) (h.size.trans hplain)
    (fun old hold => by
      obtain rfl := Option.some.inj (h.current.symm.trans hold)
      exact ⟨h.dirty, (Nat.lt_succ_self _).ne⟩)
    (fun w _ => readRawChunk_end _ _ haddr (by rw [h.layout.raw_eq]) h.fileSize hdone w)
  rw [ChunkSizes.seqnumToPos_eq haddr]
  rw [Nat.add_zero] at hseek
  exact ⟨_, _, hseek, rfl, rfl, rfl, hlayout, rfl, rfl, rfl, rfl, .inl rfl, h.size, hplain.symm,
    by rw [List.append_nil]; exact h.fileSize, by rw [h.last]; exact Nat.max_eq_right (Nat.le_succ _)⟩

/-- The space that is found for a write: a part of the data at least fits into the chunk. -/
theorem Opened.availableSpace {f : StreamFile} {chunk : StreamChunk}
    {done plain cur bytes : List UInt8} {writeSize : Nat}
    (h : Opened c f chunk done plain cur bytes) (hw : 0 < writeSize)
    (hrec : c.Recoverable (bytes.length + writeSize))
    (hcross : c.chunkMaxSize = 0 → c.sizes.maxPlainChunkSize chunk.seqnum ≠ 0 →
      bytes.length + writeSize ≤ c.sizes.maxPlainChunkSize 0) :
    ∃ f' chunk' done' plain' cur' w, c.availableSpace f chunk writeSize = some (f', chunk', w) ∧
      0 < w ∧ w ≤ writeSize ∧ (c.sizes.maxPlainChunkSize chunk'.seqnum ≠ 0 →
        chunk'.content.length + w ≤ c.sizes.maxPlainChunkSize chunk'.seqnum) ∧
      (c.chunkMaxSize = 0 → chunk'.seqnum = chunk.seqnum) ∧
      Opened c f' chunk' done' plain' cur' bytes := by
  have hlt := c.sizes.maxPlainChunkSize_lt chunk.seqnum
  rw [StreamConfig.availableSpace, h.maxSize]
  by_cases hzero : c.sizes.maxPlainChunkSize chunk.seqnum = 0
  · rw [if_pos hzero]
    exact ⟨f, chunk, done, plain, cur, writeSize, rfl, hw, le_rfl, fun hne => absurd hzero hne,
      fun _ => rfl, h⟩
  have hle := h.layout.length_le hzero
  rw [if_neg hzero]
  have hspace : (c.sizes.maxPlainChunkSize chunk.seqnum + 2 ^ 64 - chunk.offset) % 2 ^ 64 =
      c.sizes.maxPlainChunkSize chunk.seqnum - chunk.content.length := by
    rw [h.offset]
    omega
  by_cases hfull : chunk.content.length = c.sizes.maxPlainChunkSize chunk.seqnum
  · -- the chunk is full
    have hlayout := h.layout.full hfull hzero
    have haddr := hlayout.stored.addressable hrec (Nat.le_add_right _ _)
    have hC : c.chunkMaxSize ≠ 0 := by
      intro hC
      have hseqnum : chunk.seqnum = 0 := by
        by_contra hne
        exact hzero ((c.sizes.maxPlainChunkSize_succ hne).trans hC)
      have hbytes := hlayout.stored.lengths.2
      have hfits := hcross hC hzero
      rw [hseqnum, ChunkSizes.plainBegin_succ, ChunkSizes.plainBegin, if_pos rfl] at hbytes
      omega
    obtain ⟨f', chunk', hseek, hseqnum, hnil, hopened⟩ := h.doSeek_next hfull hzero haddr writeSize
    have hmax : c.sizes.maxPlainChunkSize chunk'.seqnum = c.chunkMaxSize := by
      rw [hseqnum]
      exact c.sizes.maxPlainChunkSize_succ (Nat.succ_ne_zero _)
    have hC' := c.chunk_lt
    have hspace' : (chunk'.maxSize + 2 ^ 64 - chunk'.offset) % 2 ^ 64 = c.chunkMaxSize := by
      rw [hopened.maxSize, hopened.offset, hmax, hnil, List.length_nil]
      omega
    rw [if_pos (by rw [hspace, hfull, Nat.sub_self]), hseek, Option.bind_eq_bind, Option.bind_some,
      hopened.current, Option.bind_eq_bind, Option.bind_some, hspace', if_neg hC]
    refine ⟨f', chunk', _, _, _, _, rfl, by omega, Nat.min_le_left _ _, fun _ => ?_,
      fun hzero => absurd hzero hC, hopened⟩
    rw [hmax, hnil, List.length_nil, Nat.zero_add]
    exact Nat.min_le_right _ _
  · rw [if_neg (by rw [hspace]; omega), hspace]
    exact ⟨f, chunk, done, plain, cur, _, rfl, by omega, Nat.min_le_left _ _, fun _ => by omega,
      fun _ => rfl, h⟩

/-! ### Writing -/

/-- **A pass of writing** appends a part of the data. -/
theorem Opened.writeStep {f : StreamFile} {chunk : StreamChunk}
    {done plain cur bytes data : List UInt8} (h : Opened c f chunk done plain cur bytes)
    (hne : data ≠ []) (hrec : c.Recoverable (bytes.length + data.length))
    (hcross : c.chunkMaxSize = 0 → c.sizes.maxPlainChunkSize chunk.seqnum ≠ 0 →
      bytes.length + data.length ≤ c.sizes.maxPlainChunkSize 0) :
    ∃ f' chunk' done' plain' cur' w, c.writeStep f data = some (f', w) ∧ 0 < w ∧
      w ≤ data.length ∧ (c.chunkMaxSize = 0 → chunk'.seqnum = chunk.seqnum) ∧
      Opened c f' chunk' done' plain' cur' (bytes ++ data.take w) := by
  obtain ⟨f₁, chunk₁, done₁, plain₁, cur₁, w, hspace, hw, hle, hfits, hsame, hopened⟩ :=
    h.availableSpace (List.length_pos_iff.mpr hne) hrec hcross
  have htake : (data.take w).length = w := by
    rw [List.length_take]
    omega
  have hne' : data.take w ≠ [] := by
    apply List.length_pos_iff.mp
    omega
  have haddr := hopened.layout.stored.addressable hrec (by
    rw [hopened.layout.bytes_eq, List.length_append]
    omega)
  obtain ⟨f', chunk', cur', hencrypt, hseqnum, hopened'⟩ := hopened.encryptChunk haddr hne'
    (fun hmax => by rw [htake]; exact hfits hmax)
  refine ⟨f', chunk', done₁, plain₁, cur', w, ?_, hw, hle,
    fun hC => hseqnum.trans (hsame hC), hopened'⟩
  have hput := putContent_end hopened.offset (data.take w)
  have hlast : (chunk₁.seqnum == f₁.eofSeqnum) = true := by
    rw [hopened.last]
    exact beq_self_eq_true _
  have happend : (if (true && decide (chunk₁.content.length < chunk₁.offset + w)) = true
      then chunk₁.offset + w - chunk₁.content.length else 0) = w := by
    rw [hopened.offset, if_pos (by simpa using hw)]
    omega
  rw [StreamConfig.writeStep, h.current]
  simp only [Option.bind_eq_bind, Option.bind_some, hspace, hlast, hput, happend, if_true]
  rw [htake] at hencrypt
  have hencrypt' := hencrypt
  rw [afterPut, chunkAfterPut, htake] at hencrypt'
  rw [hencrypt', Option.bind_some]
  rfl

/-- **The loop of a write** appends all data. -/
theorem Opened.writeLoop {fuel : Nat} {f : StreamFile} {chunk : StreamChunk}
    {done plain cur bytes data : List UInt8} (hfuel : data.length ≤ fuel)
    (h : Opened c f chunk done plain cur bytes)
    (hrec : c.Recoverable (bytes.length + data.length))
    (hcross : c.chunkMaxSize = 0 → c.sizes.maxPlainChunkSize chunk.seqnum ≠ 0 →
      bytes.length + data.length ≤ c.sizes.maxPlainChunkSize 0) :
    ∃ f' chunk' done' plain' cur', c.writeLoop fuel f data = some f' ∧
      (c.chunkMaxSize = 0 → chunk'.seqnum = chunk.seqnum) ∧
      Opened c f' chunk' done' plain' cur' (bytes ++ data) := by
  induction fuel generalizing f chunk done plain cur bytes data with
  | zero =>
    obtain rfl := List.length_eq_zero_iff.mp (Nat.le_zero.mp hfuel)
    refine ⟨f, chunk, done, plain, cur, ?_, fun _ => rfl, by rwa [List.append_nil]⟩
    rw [StreamConfig.writeLoop, if_pos (h.cursor.trans h.size.symm).le]
  | succ fuel ih =>
    cases data with
    | nil =>
      refine ⟨f, chunk, done, plain, cur, ?_, fun _ => rfl, by rwa [List.append_nil]⟩
      rw [StreamConfig.writeLoop, if_pos (h.cursor.trans h.size.symm).le]
    | cons b data =>
      obtain ⟨f₁, chunk₁, done₁, plain₁, cur₁, w, hstep, hw, hle, hsame, hopened⟩ :=
        h.writeStep (List.cons_ne_nil b data) hrec hcross
      have htake : ((b :: data).take w).length = w := by
        rw [List.length_take]
        omega
      have hdrop : ((b :: data).drop w).length = (b :: data).length - w := List.length_drop
      have hsum : (bytes ++ (b :: data).take w).length + ((b :: data).drop w).length =
          bytes.length + (b :: data).length := by
        rw [List.length_append, htake, hdrop]
        omega
      obtain ⟨f', chunk', done', plain', cur', hloop, hsame', hopened'⟩ := ih
        (by rw [hdrop]; omega) hopened (by rwa [hsum])
        (fun hC hne => by rw [hsum]; exact hcross hC (by rwa [hsame hC] at hne))
      refine ⟨f', chunk', done', plain', cur', ?_, fun hC => (hsame' hC).trans (hsame hC), ?_⟩
      · rw [StreamConfig.writeLoop, hstep, Option.bind_eq_bind, Option.bind_some]
        exact hloop
      · rwa [List.append_assoc, List.take_append_drop] at hopened'

theorem Opened.write {f : StreamFile} {chunk : StreamChunk}
    {done plain cur bytes : List UInt8} (data : List UInt8)
    (h : Opened c f chunk done plain cur bytes)
    (hrec : c.Recoverable (bytes.length + data.length))
    (hcross : c.chunkMaxSize = 0 → c.sizes.maxPlainChunkSize chunk.seqnum ≠ 0 →
      bytes.length + data.length ≤ c.sizes.maxPlainChunkSize 0) :
    ∃ f' chunk' done' plain' cur', c.write f data = some f' ∧
      (c.chunkMaxSize = 0 → chunk'.seqnum = chunk.seqnum) ∧
      Opened c f' chunk' done' plain' cur' (bytes ++ data) := by
  rw [StreamConfig.write]
  cases data with
  | nil => exact ⟨f, chunk, done, plain, cur, rfl, fun _ => rfl, by rwa [List.append_nil]⟩
  | cons b data => exact h.writeLoop le_rfl hrec hcross

/-- **The writes of a session** append their data one after the other. -/
theorem Opened.writes {f : StreamFile} {chunk : StreamChunk} {done plain cur bytes : List UInt8}
    (writes : List (List UInt8)) (h : Opened c f chunk done plain cur bytes)
    (hrec : c.Recoverable (bytes.length + writes.flatten.length))
    (hcross : c.chunkMaxSize = 0 → c.sizes.maxPlainChunkSize chunk.seqnum ≠ 0 →
      bytes.length + writes.flatten.length ≤ c.sizes.maxPlainChunkSize 0) :
    ∃ f' chunk' done' plain' cur', writes.foldlM c.write f = some f' ∧
      Opened c f' chunk' done' plain' cur' (bytes ++ writes.flatten) := by
  induction writes generalizing f chunk done plain cur bytes with
  | nil => exact ⟨f, chunk, done, plain, cur, rfl, by rwa [List.flatten_nil, List.append_nil]⟩
  | cons data writes ih =>
    rw [List.flatten_cons, List.length_append] at hrec hcross
    obtain ⟨f₁, chunk₁, done₁, plain₁, cur₁, hwrite, hsame, hopened⟩ := h.write data
      (hrec.mono (by omega)) (fun hC hne => by have hle := hcross hC hne; omega)
    obtain ⟨f', chunk', done', plain', cur', hwrites, hopened'⟩ := ih hopened
      (by rwa [List.length_append, Nat.add_assoc])
      (fun hC hne => by
        rw [List.length_append, Nat.add_assoc]
        exact hcross hC (by rwa [hsame hC] at hne))
    refine ⟨f', chunk', done', plain', cur', ?_, ?_⟩
    · rw [List.foldlM_cons, hwrite, Option.bind_eq_bind, Option.bind_some]
      exact hwrites
    · rwa [List.flatten_cons, ← List.append_assoc]

end StreamConfig

end Hatn.Crypt
