import Hatn.Crypt.StreamFileSessions

/-!
# Files that are opened again

A file that a session has written is found with the size of what was appended to it, and the next
session continues at its end: over all sessions (`sessions_recovered`) the chunks that are read
from the file are the bytes that were appended, in their order, none lost and none repeated.
-/

namespace Hatn.Crypt

namespace StreamConfig

variable {c : StreamConfig}

/-! ### Files that were written -/

/-- A file on the disk with contents: its last chunk is not full. -/
def Written (c : StreamConfig) (raw bytes : List UInt8) : Prop :=
  ∃ n done plain cur content, Layout c n done plain cur content raw bytes ∧
    (c.sizes.maxPlainChunkSize n ≠ 0 → content.length < c.sizes.maxPlainChunkSize n)

theorem Opened.written {f : StreamFile} {chunk : StreamChunk} {done plain cur bytes : List UInt8}
    (h : Opened c f chunk done plain cur bytes) : Written c f.raw bytes := by
  by_cases hfull : c.sizes.maxPlainChunkSize chunk.seqnum ≠ 0 ∧
      chunk.content.length = c.sizes.maxPlainChunkSize chunk.seqnum
  · exact ⟨_, _, _, _, _, h.layout.full hfull.2 hfull.1, fun hne => Nat.pos_of_ne_zero hne⟩
  · refine ⟨_, _, _, _, _, h.layout, fun hne => ?_⟩
    have hle := h.layout.length_le hne
    omega

theorem Opened.doFlush {f : StreamFile} {chunk : StreamChunk} {done plain cur bytes : List UInt8}
    (h : Opened c f chunk done plain cur bytes) : c.doFlush f = some f := by
  rw [StreamConfig.doFlush, h.current]
  exact if_neg (by rw [h.dirty]; decide)

/-- Where something is found again, the first chunk has a size. -/
theorem Recoverable.maxPackedChunkSizeOf {size : Nat} (hrec : c.Recoverable size)
    (hne : size ≠ 0) (n containerSize : Nat) :
    c.maxPackedChunkSizeOf n containerSize = c.sizes.maxPackedChunkSize n := by
  obtain hzero | ⟨hF, -⟩ := hrec
  · exact absurd hzero hne
  · rw [StreamConfig.maxPackedChunkSizeOf, if_pos]
    by_contra hsizes
    obtain ⟨hC, hfirst⟩ := not_or.mp hsizes
    have hzero : c.sizes.maxPlainChunkSize 0 = 0 :=
      (if_pos (not_not.mp hfirst)).trans (not_not.mp hC)
    omega

/-- The packed size of a full chunk. -/
theorem Recoverable.maxPackedChunkSize_full {n size : Nat} (hrec : c.Recoverable size)
    (hle : c.sizes.plainBegin n + c.sizes.maxPlainChunkSize n ≤ size)
    (hpos : ∀ i ≤ n, 0 < c.sizes.maxPlainChunkSize i) :
    c.sizes.maxPackedChunkSize n =
      some (c.cipher.prefixSize + c.sizes.maxPlainChunkSize n) := by
  have hfull := hpos n le_rfl
  obtain hzero | ⟨hF, hfirst, -, -, hother⟩ := hrec
  · omega
  by_cases hn : n = 0
  · rw [hn, ChunkSizes.maxPackedChunkSize_first hF hfirst, packedExtraSize_eq, Nat.add_comm]
  · rw [ChunkSizes.plainBegin, if_neg hn] at hle
    rw [c.sizes.maxPlainChunkSize_succ hn] at hfull hle ⊢
    have hmore := hother (by omega) (show c.chunkMaxSize ≠ 0 from hfull.ne')
    rw [ChunkSizes.maxPackedChunkSize_succ hfull hn, ChunkSizes.otherPacked, packedExtraSize_eq,
      Nat.add_comm]
    exact congrArg some (Nat.mod_eq_of_lt (by rw [Nat.add_comm]; exact hmore.1))

/-- The last chunk is not longer than a packed chunk. -/
theorem Layout.length_le_packed {n : Nat} {done plain cur content raw bytes : List UInt8}
    (h : Layout c n done plain cur content raw bytes) (hne : content ≠ [])
    (hrec : c.Recoverable bytes.length) :
    ∃ m, c.sizes.maxPackedChunkSize n = some m ∧ c.cipher.prefixSize + content.length ≤ m := by
  obtain ⟨-, hplain⟩ := h.stored.lengths
  have hlength := List.length_pos_iff.mpr hne
  have hle := h.length_le
  have hbytes : bytes.length = c.sizes.plainBegin n + content.length := by
    rw [h.bytes_eq, List.length_append, hplain]
  obtain hzero | ⟨hF, hfirst, -, hsecond, hother⟩ := hrec
  · omega
  by_cases hn : n = 0
  · subst hn
    have hle := hle hF.ne'
    refine ⟨_, ChunkSizes.maxPackedChunkSize_first hF hfirst, ?_⟩
    rw [packedExtraSize_eq]
    omega
  have hbegin : c.sizes.plainBegin n = c.sizes.maxPlainChunkSize 0 + (n - 1) * c.chunkMaxSize :=
    if_neg hn
  have hchunk := ChunkSizes.maxPackedChunkSize_other hn hF hfirst
  refine ⟨_, hchunk, ?_⟩
  rw [c.sizes.maxPlainChunkSize_succ hn] at hle
  split
  next hC =>
    have hC' : c.chunkMaxSize = 0 := hC
    rw [hC', Nat.mul_zero] at hbegin
    obtain ⟨hsum, hmax⟩ := hsecond (by omega) hC'
    rw [packedExtraSize_eq, Nat.mod_eq_of_lt hsum]
    omega
  next hC =>
    have hle := hle hC
    have hmore := hother (by omega) hC
    have hpacked : c.sizes.otherPacked = c.chunkMaxSize + c.cipher.prefixSize :=
      Nat.mod_eq_of_lt hmore.1
    have hle' : content.length ≤ c.chunkMaxSize := hle
    omega

/-- What the last chunk is read as. -/
theorem Layout.readRawChunk {n offset maxSize : Nat}
    {done plain cur content bytes : List UInt8}
    {f : StreamFile} (h : Layout c n done plain cur content f.raw bytes)
    (hrec : c.Recoverable bytes.length) (hsize : f.ciphertextSize = (done ++ cur).length) :
    c.readRawChunk f ⟨n, false, offset, maxSize, 0, 0, []⟩ 0 =
      some ⟨n, false, offset, maxSize, cur.length, 0, content⟩ := by
  obtain ⟨hdone, -⟩ := h.stored.lengths
  have haddr := h.stored.addressable hrec (by rw [h.bytes_eq, List.length_append]; omega)
  obtain ⟨rfl, rfl⟩ | ⟨hne, iv, hiv, hcur⟩ := h.packed
  · exact readRawChunk_end ⟨n, false, offset, maxSize, 0, 0, []⟩ done haddr
      (by rw [h.raw_eq, List.append_nil]) (by rw [hsize, List.append_nil]) hdone 0
  · obtain ⟨m, hm, hle⟩ := h.length_le_packed hne hrec
    have hlength := List.length_pos_iff.mpr hne
    have hnonempty : bytes.length ≠ 0 := by
      rw [h.bytes_eq, List.length_append]
      omega
    have hread := readRawChunk_packed (c := c) (f := f)
      ⟨n, false, offset, maxSize, 0, 0, []⟩ done [] haddr
      (by rw [h.raw_eq, List.append_nil, hcur]) (by rw [hsize, List.append_nil, hcur]) hdone hiv
      hne rfl ((hrec.maxPackedChunkSizeOf hnonempty _ _).trans hm) (by omega) (.inl rfl)
    rw [hread, hcur, packed_length]

/-! ### Opening -/

/-- A file that does not exist is made. -/
theorem doOpen_new (c : StreamConfig) (generated : Nat) :
    ∃ f chunk, c.doOpen none generated = some f ∧ chunk.seqnum = 0 ∧
      Opened c f chunk [] [] [] [] := by
  have hseek := doSeek_new (c := c) (n := 0) (k := 0)
    (f := ⟨c.header, generated, none, 0, 0, 0, 0, none⟩) 0
    ⟨0, false, 0, c.sizes.maxPlainChunkSize 0, 0, 0, []⟩ (.inl rfl)
    (fun hne => Nat.pos_of_ne_zero hne) (by decide) rfl (fun _ hold => by cases hold)
    (fun w _ => readRawChunk_end _ [] (.inl rfl) (List.append_nil _).symm rfl rfl w)
  refine ⟨_, _, hseek, ?_, rfl, ⟨.none, .inl ⟨rfl, rfl⟩, (List.append_nil _).symm, rfl,
    fun _ => Nat.zero_le _⟩, rfl, rfl, rfl, rfl, .inl rfl, rfl, rfl, rfl, rfl⟩
  rfl

/-- What is in the last chunk has no more than 64 bits. -/
theorem Layout.content_lt {n : Nat} {done plain cur content raw bytes : List UInt8}
    (h : Layout c n done plain cur content raw bytes) (hrec : c.Recoverable bytes.length) :
    content.length < 2 ^ 64 := by
  have hfirst := c.sizes.maxPlainChunkSize_lt 0
  have hlt := c.sizes.maxPlainChunkSize_lt n
  have hle := h.length_le
  have hbytes : content.length ≤ bytes.length := by
    rw [h.bytes_eq, List.length_append]
    omega
  by_cases hzero : c.sizes.maxPlainChunkSize n = 0
  · obtain hnil | ⟨hF, hpacked, -, hsecond, -⟩ := hrec
    · omega
    have hn : n ≠ 0 := by
      rintro rfl
      omega
    have hC : c.chunkMaxSize = 0 := (c.sizes.maxPlainChunkSize_succ hn).symm.trans hzero
    by_cases hmore : c.sizes.maxPlainChunkSize 0 < bytes.length
    · have hmax := (hsecond hmore hC).2
      omega
    · omega
  · have hle := hle hzero
    omega

/-- **A file that was written is opened at the end of its contents.** -/
theorem Written.doOpen {raw bytes : List UInt8} (h : Written c raw bytes)
    (hrec : c.Recoverable bytes.length) (generated : Nat) :
    ∃ f chunk done plain cur, c.doOpen (some raw) generated = some f ∧
      Opened c f chunk done plain cur bytes ∧ (c.sizes.maxPlainChunkSize chunk.seqnum ≠ 0 →
        chunk.content.length < c.sizes.maxPlainChunkSize chunk.seqnum) := by
  obtain ⟨n, done, plain, cur, content, hlayout, hlt⟩ := h
  obtain ⟨hdone, hplain⟩ := hlayout.stored.lengths
  have hbytes : bytes.length = c.sizes.plainBegin n + content.length := by
    rw [hlayout.bytes_eq, List.length_append, hplain]
  have haddr := hlayout.stored.addressable hrec (by omega)
  have hfile : raw.length - c.dataOffset = (done ++ cur).length := by
    rw [hlayout.raw_eq, List.length_append]
    exact Nat.add_sub_cancel_left _ _
  have hheader : raw.take c.dataOffset = c.header := by
    rw [hlayout.raw_eq]
    exact List.take_left
  have hsize := hlayout.streamSize_eq hlt hrec
  have hseqnum : c.sizes.posToSeqnum bytes.length = n := by
    rw [hbytes]
    exact ChunkSizes.posToSeqnum_begin haddr hlt
  have hseek := doSeek_new (c := c) (n := n) (k := content.length)
    (f := ⟨raw, generated, none, bytes.length, 0, (done ++ cur).length, n, none⟩) 0
    ⟨n, false, content.length, c.sizes.maxPlainChunkSize n, cur.length, 0, content⟩
    haddr hlt (hlayout.content_lt hrec) hbytes (fun _ hold => by cases hold)
    (fun w hw => by
      rw [hw rfl]
      exact hlayout.readRawChunk hrec rfl)
  have hopen : c.doOpen (some raw) generated =
      c.doSeek ⟨raw, generated, none, bytes.length, 0, (done ++ cur).length, n, none⟩
        (c.sizes.plainBegin n + content.length) 0 := by
    rw [StreamConfig.doOpen]
    simp only
    rw [if_neg (not_not_intro hheader), hfile, hsize, Option.bind_eq_bind, Option.bind_some,
      hseqnum, ← hbytes]
  exact ⟨_, ⟨n, false, content.length, c.sizes.maxPlainChunkSize n, cur.length, 0, content⟩, done,
    plain, cur, hopen.trans hseek, ⟨rfl, hlayout, rfl, rfl, rfl, rfl, .inl rfl, rfl, hbytes.symm,
    rfl, Nat.max_self n⟩, hlt⟩

/-! ### Sessions -/

/-- A session can append up to a size: it does not step from the first chunk into one that has no
size. -/
def Continues (c : StreamConfig) (size size' : Nat) : Prop :=
  c.chunkMaxSize = 0 → 0 < c.firstChunkMaxSize → c.firstChunkMaxSize ≤ size ∨
    size' ≤ c.firstChunkMaxSize

instance (c : StreamConfig) (size size' : Nat) : Decidable (c.Continues size size') :=
  inferInstanceAs (Decidable (_ → _ → _))

/-- **Sessions that are found again**: each can append its bytes, and the size at the end is
found again. -/
def Fits (c : StreamConfig) : Nat → List (List (List UInt8)) → Prop
  | size, [] => c.Recoverable size
  | size, writes :: rest => c.Continues size (size + writes.flatten.length) ∧
      Fits c (size + writes.flatten.length) rest

/-- The bytes that sessions append. -/
def appended (sessions : List (List (List UInt8))) : List UInt8 :=
  (sessions.map List.flatten).flatten

theorem Fits.recoverable {size : Nat} {sessions : List (List (List UInt8))}
    (h : c.Fits size sessions) : c.Recoverable size := by
  induction sessions generalizing size with
  | nil => exact h
  | cons writes rest ih => exact (ih h.2).mono (Nat.le_add_right _ _)

/-- What fits is found again at the end. -/
theorem Fits.last_aux {size : Nat} {sessions : List (List (List UInt8))}
    (h : c.Fits size sessions) : c.Recoverable (size + (appended sessions).length) := by
  induction sessions generalizing size with
  | nil => exact h
  | cons writes rest ih =>
    have hrest := ih h.2
    rwa [Nat.add_assoc, ← List.length_append] at hrest

theorem Fits.last {sessions : List (List (List UInt8))} (h : c.Fits 0 sessions) :
    c.Recoverable (appended sessions).length := by
  have hlast := h.last_aux
  rwa [Nat.zero_add] at hlast

/-- What is on the disk for the bytes that were appended. -/
def OnDisk (c : StreamConfig) (disk : Option (List UInt8)) (bytes : List UInt8) : Prop :=
  disk = none ∧ bytes = [] ∨ ∃ raw, disk = some raw ∧ Written c raw bytes

theorem OnDisk.doOpen {disk : Option (List UInt8)} {bytes : List UInt8}
    (h : OnDisk c disk bytes) (hrec : c.Recoverable bytes.length) (generated : Nat) :
    ∃ f chunk done plain cur, c.doOpen disk generated = some f ∧
      Opened c f chunk done plain cur bytes ∧ (c.sizes.maxPlainChunkSize chunk.seqnum ≠ 0 →
        chunk.content.length < c.sizes.maxPlainChunkSize chunk.seqnum) := by
  obtain ⟨rfl, rfl⟩ | ⟨raw, rfl, hwritten⟩ := h
  · obtain ⟨f, chunk, hopen, hseqnum, hopened⟩ := c.doOpen_new generated
    refine ⟨f, chunk, [], [], [], hopen, hopened, fun hne => ?_⟩
    have hnil : chunk.content = [] := by
      have hbytes := hopened.layout.bytes_eq
      rwa [List.nil_append, eq_comm] at hbytes
    rw [hnil]
    exact Nat.pos_of_ne_zero hne
  · exact hwritten.doOpen hrec generated

/-- **A session** appends its bytes to a file. -/
theorem OnDisk.session {disk : Option (List UInt8)} {bytes : List UInt8}
    (h : OnDisk c disk bytes) {writes : List (List UInt8)}
    (hcontinues : c.Continues bytes.length (bytes.length + writes.flatten.length))
    (hrec : c.Recoverable (bytes.length + writes.flatten.length)) (generated : Nat) :
    ∃ raw generated', c.session disk generated writes = some (raw, generated') ∧
      OnDisk c (some raw) (bytes ++ writes.flatten) := by
  obtain ⟨f, chunk, done, plain, cur, hopen, hopened, hlt⟩ :=
    h.doOpen (hrec.mono (Nat.le_add_right _ _)) generated
  obtain ⟨f', chunk', done', plain', cur', hwrites, hopened'⟩ := hopened.writes writes hrec (by
    intro hC hne
    have hseqnum : chunk.seqnum = 0 := by
      by_contra hne'
      exact hne ((c.sizes.maxPlainChunkSize_succ hne').trans hC)
    have hlt := hlt hne
    have hbytes : bytes.length = chunk.content.length := by
      rw [hopened.layout.bytes_eq, List.length_append, hopened.layout.stored.lengths.2, hseqnum]
      exact Nat.zero_add _
    rw [hseqnum] at hlt hne
    have hfirst : c.firstChunkMaxSize ≠ 0 := fun hfirst => hne ((if_pos hfirst).trans hC)
    have hF : c.sizes.maxPlainChunkSize 0 = c.firstChunkMaxSize := if_neg hfirst
    have hstep := hcontinues hC (Nat.pos_of_ne_zero hfirst)
    omega)
  refine ⟨f'.raw, f'.generated, ?_, .inr ⟨_, rfl, hopened'.written⟩⟩
  simp only [StreamConfig.session, hopen, hwrites, hopened'.doFlush, Option.bind_eq_bind,
    Option.bind_some, Option.pure_def]

/-- **Sessions one after the other** append their bytes. -/
theorem OnDisk.sessions {sessions : List (List (List UInt8))} {disk : Option (List UInt8)}
    {bytes : List UInt8} (h : OnDisk c disk bytes) (hfits : c.Fits bytes.length sessions)
    (generated : Nat) :
    ∃ disk' generated', c.sessions sessions (disk, generated) = some (disk', generated') ∧
      OnDisk c disk' (bytes ++ appended sessions) := by
  induction sessions generalizing disk bytes generated with
  | nil =>
    refine ⟨disk, generated, rfl, ?_⟩
    rwa [appended, List.map_nil, List.flatten_nil, List.append_nil]
  | cons writes rest ih =>
    obtain ⟨raw, generated₁, hsession, hdisk⟩ := h.session hfits.1 hfits.2.recoverable generated
    obtain ⟨disk', generated', hrest, hdisk'⟩ := ih hdisk
      (by rw [List.length_append]; exact hfits.2) generated₁
    refine ⟨disk', generated', ?_, ?_⟩
    · rw [StreamConfig.sessions, hsession, Option.bind_eq_bind, Option.bind_some]
      exact hrest
    · rwa [List.append_assoc] at hdisk'

/-! ### Reading all -/

/-- The chunks that are full are read one after the other. -/
theorem Stored.mapM_chunkContent {n : Nat} {done plain : List UInt8} (h : Stored c n done plain)
    {size : Nat} (hrec : c.Recoverable size) (hle : plain.length ≤ size) {f : StreamFile}
    {tail : List UInt8} (hraw : f.raw = c.header ++ (done ++ tail))
    (hsize : f.ciphertextSize = (done ++ tail).length) :
    ∃ chunks, (List.range n).mapM (c.chunkContent f) = some chunks ∧ chunks.flatten = plain := by
  induction h generalizing tail with
  | none => exact ⟨[], rfl, rfl⟩
  | @chunk n raw plain iv content before hiv hne hfull ih =>
    have hpos := (before.chunk hiv hne hfull).sizes_pos
    obtain ⟨hbefore, hplain⟩ := before.lengths
    rw [List.length_append] at hle
    have hraw' : f.raw = c.header ++ (raw ++ (c.packed iv n content ++ tail)) := by
      rw [hraw, List.append_assoc]
    have hsize' : f.ciphertextSize = (raw ++ (c.packed iv n content ++ tail)).length := by
      rw [hsize, List.append_assoc]
    obtain ⟨chunks, hchunks, hflatten⟩ := ih (by omega) hraw' hsize'
    have hlength := List.length_pos_iff.mpr hne
    have hm := hrec.maxPackedChunkSize_full (n := n) (by omega)
      (fun i hi => hpos i (Nat.lt_succ_of_le hi))
    have hread := readRawChunk_packed (c := c) (f := f)
      ⟨n, false, 0, c.sizes.maxPlainChunkSize n, 0, 0, []⟩ raw tail
      (before.addressable hrec (by omega)) hraw' hsize' hbefore hiv hne rfl
      ((hrec.maxPackedChunkSizeOf (by omega) _ _).trans hm) (by omega) (.inr (by omega))
    have hcontent : c.chunkContent f n = some content := by
      rw [chunkContent, hread]
      rfl
    refine ⟨chunks ++ [content], ?_, ?_⟩
    · rw [List.range_succ, List.mapM_append, hchunks]
      simp [hcontent]
    · rw [List.flatten_append, hflatten, List.flatten_singleton]

/-- **All bytes are read from an open file.** -/
theorem Opened.contents {f : StreamFile} {chunk : StreamChunk} {done plain cur bytes : List UInt8}
    (h : Opened c f chunk done plain cur bytes) (hrec : c.Recoverable bytes.length) :
    c.contents f = some bytes := by
  have hle : plain.length ≤ bytes.length := by
    rw [h.layout.bytes_eq, List.length_append]
    omega
  obtain ⟨chunks, hchunks, hflatten⟩ := h.layout.stored.mapM_chunkContent hrec hle
    h.layout.raw_eq h.fileSize
  have hlast : c.chunkContent f chunk.seqnum = some chunk.content := by
    rw [chunkContent, h.layout.readRawChunk hrec h.fileSize]
    rfl
  rw [StreamConfig.contents, h.last, List.range_succ, List.mapM_append, hchunks]
  simp [hlast, hflatten, h.layout.bytes_eq]

/-- **Sessions are found again.**  After sessions that fit, the file is opened with the size of
what was appended, at its end, and all of it is read back. -/
theorem sessions_recovered (c : StreamConfig) (sessions : List (List (List UInt8)))
    (h : c.Fits 0 sessions) :
    ∃ disk generated f, c.sessions sessions (none, 0) = some (disk, generated) ∧
      c.doOpen disk generated = some f ∧ f.size = (appended sessions).length ∧
      f.cursor = (appended sessions).length ∧ c.contents f = some (appended sessions) := by
  have hnone : OnDisk c none [] := .inl ⟨rfl, rfl⟩
  obtain ⟨disk, generated, hsessions, hdisk⟩ := hnone.sessions h 0
  rw [List.nil_append] at hdisk
  obtain ⟨f, chunk, done, plain, cur, hopen, hopened, -⟩ := hdisk.doOpen h.last generated
  exact ⟨disk, generated, f, hsessions, hopen, hopened.size, hopened.cursor,
    hopened.contents h.last⟩

/-! ### Sessions that are not found again -/

/-- Vectors of two bytes that are added to the contents. -/
def addingCipher : StreamCipher where
  prefixSize := 2
  prefix_lt := by decide
  generateIV n := [UInt8.ofNat n, 7]
  generateIV_length _ := rfl
  encryptByte iv _ i b := b ^^^ (iv.headD 0 + UInt8.ofNat i)
  decryptByte iv _ i b := b ^^^ (iv.headD 0 + UInt8.ofNat i)
  decrypt_encrypt iv _ i b := by rw [UInt8.xor_assoc, UInt8.xor_self, UInt8.xor_zero]

/-- A first chunk of four bytes, and others of three. -/
def smallChunks : StreamConfig :=
  ⟨addingCipher, 4, 3, by decide, by decide, [0x48, 0x43], by decide⟩

/-- A first chunk of four bytes, and others without a size. -/
def firstChunkOnly : StreamConfig :=
  ⟨addingCipher, 4, 0, by decide, by decide, [0x48, 0x43], by decide⟩

/-- Two sessions over three chunks. -/
theorem sessions_recovered_sample :
    ∃ disk generated f,
      smallChunks.sessions [[[1, 2, 3], [4, 5]], [[6, 7, 8]]] (none, 0) = some (disk, generated) ∧
      smallChunks.doOpen disk generated = some f ∧ f.size = 8 ∧ f.cursor = 8 ∧
      smallChunks.contents f = some [1, 2, 3, 4, 5, 6, 7, 8] :=
  sessions_recovered smallChunks [[[1, 2, 3], [4, 5]], [[6, 7, 8]]]
    ⟨by decide, by decide, show smallChunks.Recoverable 8 by decide⟩

/-- Where only the first chunk has a size, a session cannot step behind it, and the second one is
not found again with more bytes than the packed first one. -/
theorem second_chunk_not_found :
    firstChunkOnly.sessions [[[1, 2, 3, 4, 5]]] (none, 0) = none ∧
    (firstChunkOnly.sessions [[[1, 2, 3, 4]], [[5, 6, 7, 8, 9, 10, 11]]] (none, 0)).isSome ∧
    ((firstChunkOnly.sessions [[[1, 2, 3, 4]], [[5, 6, 7, 8, 9, 10, 11]]] (none, 0)).bind
      fun s => firstChunkOnly.doOpen s.1 s.2) = none ∧
    ¬ ∀ (c : StreamConfig) (sessions : List (List (List UInt8))), ∃ disk generated f,
      c.sessions sessions (none, 0) = some (disk, generated) ∧
      c.doOpen disk generated = some f ∧ f.size = (appended sessions).length ∧
      f.cursor = (appended sessions).length ∧ c.contents f = some (appended sessions) := by
  have hstep : firstChunkOnly.sessions [[[1, 2, 3, 4, 5]]] (none, 0) = none := by decide +kernel
  refine ⟨hstep, by decide +kernel, by decide +kernel, fun h => ?_⟩
  obtain ⟨disk, generated, f, hsessions, -⟩ := h firstChunkOnly [[[1, 2, 3, 4, 5]]]
  rw [hstep] at hsessions
  cases hsessions

end StreamConfig

end Hatn.Crypt
