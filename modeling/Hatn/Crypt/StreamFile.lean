import Hatn.Crypt.ChunkAddress

/-!
# Files of streams

In the streaming mode a file is only appended to and every write is encrypted at once.  A chunk
is the initialization vector of its cipher and the encrypted bytes; a session that finds a chunk
which is not full decrypts it and, with its first write, encrypts it again under a new vector.
The size of the contents is not stored: `streamSize` computes it from the length of the file.
-/

namespace Hatn.Crypt

/-- A stream cipher of the suite: the size of its vectors, the vectors that are generated one
after the other, and what it does to a byte at a position of a chunk. -/
structure StreamCipher where
  prefixSize : Nat
  prefix_lt : prefixSize < 2 ^ 32
  generateIV : Nat → List UInt8
  generateIV_length : ∀ n, (generateIV n).length = prefixSize
  encryptByte : List UInt8 → Nat → Nat → UInt8 → UInt8
  decryptByte : List UInt8 → Nat → Nat → UInt8 → UInt8
  decrypt_encrypt : ∀ iv seqnum i b, decryptByte iv seqnum i (encryptByte iv seqnum i b) = b

namespace StreamCipher

/-- `encryptStream`, from a position of the stream on. -/
def encryptFrom (e : StreamCipher) (iv : List UInt8) (seqnum i : Nat) (data : List UInt8) :
    List UInt8 :=
  data.mapIdx fun k b => e.encryptByte iv seqnum (i + k) b

/-- `decryptStream` -/
def decrypt (e : StreamCipher) (iv : List UInt8) (seqnum : Nat) (data : List UInt8) :
    List UInt8 :=
  data.mapIdx fun k b => e.decryptByte iv seqnum k b

end StreamCipher

/-- A file that is configured: its cipher, the sizes of its chunks, and its header and descriptor
as they are packed. -/
structure StreamConfig where
  cipher : StreamCipher
  firstChunkMaxSize : Nat
  chunkMaxSize : Nat
  first_lt : firstChunkMaxSize < 2 ^ 32
  chunk_lt : chunkMaxSize < 2 ^ 32
  header : List UInt8
  header_lt : header.length < 2 ^ 63

/-- `Chunk` -/
structure StreamChunk where
  seqnum : Nat
  dirty : Bool
  offset : Nat
  maxSize : Nat
  ciphertextSize : Nat
  streamWriteCursor : Nat
  content : List UInt8
  deriving DecidableEq

/-- The stream encryptor: its vector, the number of the chunk its key is derived for and the
bytes it has encrypted. -/
structure StreamEncryptor where
  iv : List UInt8
  seqnum : Nat
  done : Nat
  deriving DecidableEq

/-- An open file: what is on the disk, and the members of `CryptFile`. -/
structure StreamFile where
  raw : List UInt8
  generated : Nat
  encryptor : Option StreamEncryptor
  size : Nat
  cursor : Nat
  ciphertextSize : Nat
  eofSeqnum : Nat
  currentChunk : Option StreamChunk
  deriving DecidableEq

/-- Bytes that are written to a file from a position on. -/
def writeAt (raw : List UInt8) (pos : Nat) (data : List UInt8) : List UInt8 :=
  (raw ++ List.replicate (pos - raw.length) 0).take pos ++ data ++ raw.drop (pos + data.length)

namespace StreamConfig

/-- In the streaming mode the extra size is the size of the vector. -/
def sizes (c : StreamConfig) : ChunkSizes :=
  ⟨c.firstChunkMaxSize, c.chunkMaxSize, c.cipher.prefixSize, c.first_lt, c.chunk_lt,
    c.cipher.prefix_lt⟩

def dataOffset (c : StreamConfig) : Nat := c.header.length

/-- `maxPackedChunkSize` of a container of a size: without sizes of chunks, all is in the first
one. -/
def maxPackedChunkSizeOf (c : StreamConfig) (seqnum containerSize : Nat) : Option Nat :=
  if c.chunkMaxSize ≠ 0 ∨ c.firstChunkMaxSize ≠ 0 then c.sizes.maxPackedChunkSize seqnum
  else
    let first := (containerSize + c.cipher.prefixSize) % 2 ^ 32
    if seqnum = 0 then some first
    else some ((containerSize + 2 ^ 32 - first + c.cipher.prefixSize) % 2 ^ 32)

/-! ### Reading and flushing a chunk -/

/-- `unpackChunk` -/
def unpackChunk (c : StreamConfig) (seqnum : Nat) (ciphertext : List UInt8) :
    Option (List UInt8) :=
  if ciphertext.isEmpty then some []
  else if ciphertext.length < c.cipher.prefixSize then none
  else some (c.cipher.decrypt (ciphertext.take c.cipher.prefixSize) seqnum
    (ciphertext.drop c.cipher.prefixSize))

/-- `eofPos` -/
def eofPos (c : StreamConfig) (f : StreamFile) : Nat := f.ciphertextSize + c.dataOffset

/-- The checks of `seekReadRawChunk` and the raw position that it seeks. -/
def seekRawChunk (c : StreamConfig) (f : StreamFile) (chunk : StreamChunk) : Option Nat := do
  if f.raw.length < c.eofPos f then none
  else
    let chunkRawPos ← c.sizes.seqnumToRawPos c.dataOffset chunk.seqnum
    if c.eofPos f < chunkRawPos then none else some chunkRawPos

/-- `seekReadRawChunk` with reading. -/
def readRawChunk (c : StreamConfig) (f : StreamFile) (chunk : StreamChunk)
    (overwriteSize : Nat) : Option StreamChunk := do
  let chunkRawPos ← c.seekRawChunk f chunk
  let maxSize ← c.maxPackedChunkSizeOf chunk.seqnum (f.ciphertextSize % 2 ^ 32)
  let chunkSize := if c.eofPos f < chunkRawPos + maxSize then c.eofPos f - chunkRawPos else maxSize
  if chunkSize = 0 then some chunk
  else if overwriteSize = 0 then
    let readBuffer := (f.raw.drop chunkRawPos).take chunkSize
    if readBuffer.length ≠ chunkSize then none
    else
      let data ← c.unpackChunk chunk.seqnum readBuffer
      some { chunk with content := chunk.content ++ data, ciphertextSize := chunkSize }
  else some { chunk with content := [], ciphertextSize := chunkSize }

/-- `packChunk`: the contents under a new vector. -/
def packChunk (c : StreamConfig) (f : StreamFile) (seqnum : Nat) (content : List UInt8) :
    Option (List UInt8 × StreamFile) :=
  let maxSize := c.sizes.maxPlainChunkSize seqnum
  if maxSize ≠ 0 ∧ maxSize < content.length then none
  else
    let iv := c.cipher.generateIV f.generated
    some (iv ++ c.cipher.encryptFrom iv seqnum 0 content,
      { f with generated := f.generated + 1, encryptor := some ⟨iv, seqnum, content.length⟩ })

/-- `flushChunk` of the current chunk. -/
def flushChunk (c : StreamConfig) (f : StreamFile) (chunk : StreamChunk) : Option StreamFile := do
  let (writeBuffer, f) ← c.packChunk f chunk.seqnum chunk.content
  if writeBuffer.isEmpty then
    return { f with currentChunk := some { chunk with dirty := false } }
  else
    let pos ← c.seekRawChunk f chunk
    let size := writeBuffer.length
    return { f with
      raw := writeAt f.raw pos writeBuffer
      ciphertextSize := f.ciphertextSize + size - chunk.ciphertextSize
      currentChunk := some { chunk with dirty := false, ciphertextSize := size } }

/-- `flushLastChunk` -/
def flushLastChunk (c : StreamConfig) (f : StreamFile) : Option StreamFile :=
  match f.currentChunk with
  | some chunk =>
    if chunk.dirty && chunk.seqnum == f.eofSeqnum then c.flushChunk f chunk else some f
  | none => some f

/-- `doFlush`, where the cache of chunks is not used. -/
def doFlush (c : StreamConfig) (f : StreamFile) : Option StreamFile :=
  match f.currentChunk with
  | some chunk => if chunk.dirty then c.flushChunk f chunk else some f
  | none => some f

/-- `doSeek` in a mode of appending; the single chunk is reset and read. -/
def doSeek (c : StreamConfig) (f : StreamFile) (pos overwriteSize : Nat) : Option StreamFile := do
  if pos ≠ f.size then none
  else
    let seqnum := c.sizes.posToSeqnum pos
    match f.currentChunk.filter (·.seqnum = seqnum) with
    | some chunk =>
      let chunk := { chunk with offset := c.sizes.chunkOffsetForPos pos }
      some { f with cursor := pos, currentChunk := some chunk }
    | none =>
      let f ← c.flushLastChunk f
      let maxSize := c.sizes.maxPlainChunkSize seqnum
      let offset := c.sizes.chunkOffsetForPos pos
      let chunkTotalOverwriteSize := if offset = 0 ∧ maxSize ≤ overwriteSize then maxSize else 0
      let nextChunk ← c.readRawChunk f ⟨seqnum, false, offset, maxSize, 0, 0, []⟩
        chunkTotalOverwriteSize
      some { f with
        cursor := pos
        currentChunk := some nextChunk
        eofSeqnum := max f.eofSeqnum seqnum }

/-! ### Opening -/

/-- The size of the contents of chunks: of a part of the first one, or of the first one and what
is behind it.  A division by zero and what throws have no result. -/
def sizeOfChunks (c : StreamConfig) (firstChunkSize firstPackedChunkSize prefixSize
    ciphertextSize : Nat) : Option Nat := do
  if ciphertextSize < prefixSize then none
  else if ciphertextSize < firstPackedChunkSize then some (ciphertextSize - prefixSize)
  else
    let rest := ciphertextSize - firstPackedChunkSize
    let packedChunkSize ← c.sizes.maxPackedChunkSize 1
    if packedChunkSize = 0 then none
    else
      let quot := rest / packedChunkSize
      let rem := if rest % packedChunkSize = 0 then prefixSize else rest % packedChunkSize
      if rem < prefixSize then none
      else
        let plain := (packedChunkSize + 2 ^ 32 - prefixSize) % 2 ^ 32
        some ((firstChunkSize + quot * plain + (rem - prefixSize)) % 2 ^ 64)

/-- The size of the contents for the length of what is behind the descriptor. -/
def streamSize (c : StreamConfig) (ciphertextSize : Nat) : Option Nat := do
  if ciphertextSize = 0 then some 0
  else
    let firstChunkSize := c.sizes.maxPlainChunkSize 0
    let firstPackedChunkSize ← c.sizes.maxPackedChunkSize 0
    let prefixSize := (firstPackedChunkSize + 2 ^ 32 - firstChunkSize) % 2 ^ 32
    c.sizeOfChunks firstChunkSize firstPackedChunkSize prefixSize ciphertextSize

/-- A file is opened for appending.  One that does not exist is made of its header and its
descriptor; they are read back from one that does. -/
def doOpen (c : StreamConfig) (disk : Option (List UInt8)) (generated : Nat) :
    Option StreamFile := do
  match disk with
  | none => c.doSeek ⟨c.header, generated, none, 0, 0, 0, 0, none⟩ 0 0
  | some raw =>
    if raw.take c.dataOffset ≠ c.header then none
    else
      let ciphertextSize := raw.length - c.dataOffset
      let size ← c.streamSize ciphertextSize
      c.doSeek ⟨raw, generated, none, size, 0, ciphertextSize, c.sizes.posToSeqnum size, none⟩
        size 0

/-! ### Writing -/

/-- The chunk that is written to and how many bytes; where the current one is full, the next one
is sought. -/
def availableSpace (c : StreamConfig) (f : StreamFile) (chunk : StreamChunk) (writeSize : Nat) :
    Option (StreamFile × StreamChunk × Nat) := do
  if chunk.maxSize = 0 then some (f, chunk, writeSize)
  else
    let space := (chunk.maxSize + 2 ^ 64 - chunk.offset) % 2 ^ 64
    if space = 0 then
      let f ← c.doSeek f (c.sizes.seqnumToPos (chunk.seqnum + 1)) writeSize
      let chunk ← f.currentChunk
      let space := (chunk.maxSize + 2 ^ 64 - chunk.offset) % 2 ^ 64
      if space = 0 then none else some (f, chunk, min writeSize space)
    else some (f, chunk, min writeSize space)

/-- The contents of a chunk are overwritten from its offset on. -/
def putContent (chunk : StreamChunk) (data : List UInt8) : List UInt8 :=
  writeAt chunk.content chunk.offset data

/-- The last chunk is written from its beginning, under a new vector. -/
def encryptFirst (c : StreamConfig) (f : StreamFile) (chunk : StreamChunk)
    (rawPos oldChunkSize appendSize : Nat) : StreamFile :=
  let iv := c.cipher.generateIV f.generated
  let writeBuffer := iv ++ c.cipher.encryptFrom iv chunk.seqnum 0 chunk.content
  let appendSize := if oldChunkSize = 0 then appendSize + c.cipher.prefixSize else appendSize
  let chunk := { chunk with
    ciphertextSize := chunk.ciphertextSize + appendSize
    streamWriteCursor := chunk.content.length }
  { f with
    raw := writeAt f.raw rawPos writeBuffer
    generated := f.generated + 1
    encryptor := some ⟨iv, chunk.seqnum, chunk.content.length⟩
    ciphertextSize := f.ciphertextSize + appendSize
    currentChunk := some chunk }

/-- What is behind the bytes of the last chunk that were written before is written. -/
def encryptNext (c : StreamConfig) (f : StreamFile) (chunk : StreamChunk)
    (encryptor : StreamEncryptor) (rawPos appendSize : Nat) : StreamFile :=
  let streamSize := chunk.offset - chunk.streamWriteCursor
  let data := (chunk.content.drop chunk.streamWriteCursor).take streamSize
  let writeBuffer := c.cipher.encryptFrom encryptor.iv encryptor.seqnum encryptor.done data
  let raw := writeAt f.raw (rawPos + chunk.ciphertextSize) writeBuffer
  let chunk := { chunk with
    ciphertextSize := chunk.ciphertextSize + appendSize
    streamWriteCursor := chunk.streamWriteCursor + streamSize }
  { f with
    raw := raw
    encryptor := some { encryptor with done := encryptor.done + data.length }
    ciphertextSize := f.ciphertextSize + appendSize
    currentChunk := some chunk }

/-- The last chunk is encrypted and written at once. -/
def encryptChunk (c : StreamConfig) (f : StreamFile) (chunk : StreamChunk)
    (oldChunkSize appendSize : Nat) : Option StreamFile := do
  let rawPos ← c.sizes.seqnumToRawPos c.dataOffset chunk.seqnum
  if chunk.streamWriteCursor = 0 then
    some (c.encryptFirst f chunk rawPos oldChunkSize appendSize)
  else
    let encryptor ← f.encryptor
    some (c.encryptNext f chunk encryptor rawPos appendSize)

/-- One pass of the loop of `writeImpl`: the file and the number of bytes that were written. -/
def writeStep (c : StreamConfig) (f : StreamFile) (data : List UInt8) :
    Option (StreamFile × Nat) := do
  let chunk ← f.currentChunk
  let (f, chunk, writeSize) ← c.availableSpace f chunk data.length
  let oldChunkSize := chunk.content.length
  let newChunkSize := chunk.offset + writeSize
  let content := putContent chunk (data.take writeSize)
  let last := chunk.seqnum == f.eofSeqnum
  let appendSize := if last && decide (oldChunkSize < newChunkSize)
    then newChunkSize - oldChunkSize else 0
  let chunk := { chunk with content := content, offset := chunk.offset + writeSize }
  let f := { f with size := f.size + appendSize, cursor := f.cursor + writeSize }
  if last then
    let f ← c.encryptChunk f chunk oldChunkSize appendSize
    return (f, writeSize)
  else
    return ({ f with currentChunk := some { chunk with dirty := true } }, writeSize)

/-- The loop of `writeImpl`: each pass writes a byte at least. -/
def writeLoop (c : StreamConfig) : Nat → StreamFile → List UInt8 → Option StreamFile
  | _, f, [] => if f.cursor ≤ f.size then some f else none
  | 0, _, _ :: _ => none
  | fuel + 1, f, b :: data => do
    let (f, writeSize) ← c.writeStep f (b :: data)
    writeLoop c fuel f ((b :: data).drop writeSize)

/-- `write` -/
def write (c : StreamConfig) (f : StreamFile) (data : List UInt8) : Option StreamFile :=
  if data.isEmpty then some f else c.writeLoop data.length f data

/-- A session: the file is opened, written to and closed. -/
def session (c : StreamConfig) (disk : Option (List UInt8)) (generated : Nat)
    (writes : List (List UInt8)) : Option (List UInt8 × Nat) := do
  let f ← c.doOpen disk generated
  let f ← writes.foldlM (c.write) f
  let f ← c.doFlush f
  return (f.raw, f.generated)

/-- Sessions one after the other, the first one on a file that does not exist. -/
def sessions (c : StreamConfig) : List (List (List UInt8)) →
    Option (List UInt8) × Nat → Option (Option (List UInt8) × Nat)
  | [], s => some s
  | writes :: rest, (disk, generated) => do
    let (raw, generated) ← c.session disk generated writes
    sessions c rest (some raw, generated)

/-- What is read from a chunk of an open file. -/
def chunkContent (c : StreamConfig) (f : StreamFile) (seqnum : Nat) : Option (List UInt8) := do
  let chunk ← c.readRawChunk f ⟨seqnum, false, 0, c.sizes.maxPlainChunkSize seqnum, 0, 0, []⟩ 0
  return chunk.content

/-- All chunks of a file, read one after the other. -/
def contents (c : StreamConfig) (f : StreamFile) : Option (List UInt8) := do
  let chunks ← (List.range (f.eofSeqnum + 1)).mapM (c.chunkContent f)
  return chunks.flatten

end StreamConfig

end Hatn.Crypt
