import Hatn.Crypt.CipherWorker
import Hatn.Pieces.Codec
import Mathlib.Data.UInt

/-!
# Encrypt-then-MAC

`EncryptMAC` is an AEAD cipher made of a symmetric cipher and a MAC: the MAC is fed the IV, the
authenticated data and the ciphertext, one behind the other.  The cipher of the backend is a
codec for each IV, and the MAC of the backend is a function of the bytes that are fed.  The
generic AEAD worker decrypts buffer by buffer; `verifyDecrypt` and `verifyDecryptPack` run the
MAC over all bytes first, and decrypt then.
-/

namespace Hatn.Crypt

open Pieces

/-- The sizes of an `EncryptMacAlg`: of the IV of the cipher, of the hash of the MAC, and of the
tag, which is zero when none was set. -/
structure EncryptMacAlg where
  ivSize : Nat
  hashSize : Nat
  tagSize : Nat
  deriving DecidableEq

/-- `getTagSize` -/
def EncryptMacAlg.getTagSize (alg : EncryptMacAlg) : Nat :=
  if alg.tagSize ≠ 0 then alg.tagSize else if alg.hashSize ≠ 0 then alg.hashSize else 16

theorem EncryptMacAlg.getTagSize_pos (alg : EncryptMacAlg) : 0 < alg.getTagSize := by
  unfold getTagSize
  split
  · omega
  · split <;> omega

/-- An `EncryptMacKey`: what the cipher and the MAC do under it. -/
structure EncryptMacKey extends EncryptMacAlg where
  encrypts : (iv : Bytes) → Codec UInt8 UInt8
  decrypts : (iv : Bytes) → Codec UInt8 UInt8
  hash : Bytes → Bytes
  length_hash : ∀ fed, (hash fed).length = hashSize

/-- The bytes that `SymmetricWorker::init` passes on: zeros stand before a short IV, and of a long
IV only the first bytes are read. -/
def initVector (ivSize : Nat) (iv : Bytes) : Bytes :=
  if ivSize ≤ iv.length then iv.take ivSize else List.replicate (ivSize - iv.length) 0 ++ iv

/-! ### The cipher of the backend -/

/-- A cipher of the backend: `m_initialized`, the IV, and what was processed since `init`. -/
structure Cipher (codec : Bytes → Codec UInt8 UInt8) where
  initialized : Bool
  iv : Bytes
  run : Codec.Run (codec iv)

namespace Cipher

variable {codec : Bytes → Codec UInt8 UInt8}

def start (codec : Bytes → Codec UInt8 UInt8) (iv : Bytes) : Cipher codec := ⟨true, iv, .start _⟩

/-- `init` -/
def init (ivSize : Nat) (iv : Bytes) : Cipher codec := start codec (initVector ivSize iv)

/-- `doProcess`: the input of the last block is not read. -/
def doProcess (c : Cipher codec) (bufIn : Bytes) (lastBlock : Bool) :
    Except Error (Cipher codec × Bytes) :=
  if lastBlock then (ofBackend c.run.finish).map fun out => (c, out)
  else (ofBackend (c.run.feed bufIn)).map fun p => ({ c with run := p.1 }, p.2)

def worker (codec : Bytes → Codec UInt8 UInt8) : CipherWorker (Cipher codec) where
  initialized c := c.initialized
  close c := { c with initialized := false }
  doProcess := doProcess

end Cipher

/-! ### The worker -/

/-- `EncryptMAC`: its own `m_initialized`, `m_cipher`, `m_mac`, `m_authMode` and `m_tag`. -/
structure EncryptMAC (codec : Bytes → Codec UInt8 UInt8) where
  initialized : Bool
  cipher : Cipher codec
  mac : MAC
  authMode : Bool
  tag : Bytes

namespace EncryptMAC

variable {codec : Bytes → Codec UInt8 UInt8} (key : EncryptMacKey)

/-- `init`: the worker is reset, `doInit` starts the cipher, and feeds the IV to the MAC. -/
def init (iv : Bytes) : Except Error (EncryptMAC codec) :=
  let data := initVector key.ivSize iv
  match MAC.init.process data 0 0 with
  | .error e => .error e
  | .ok mac => .ok ⟨true, .init key.ivSize data, mac, false, []⟩

/-- `CipherTraits<true>::process`: the MAC is fed what the cipher puts out. -/
def processEncrypt (s : EncryptMAC codec) (dataIn : Bytes) (lastBlock : Bool) :
    Except Error (EncryptMAC codec × Bytes) := do
  let (cipher, dataOut) ←
    if s.authMode then .ok (s.cipher, [])
    else (Cipher.worker codec).process s.cipher dataIn [] 0 0 0 lastBlock
  let mac ← s.mac.process (if s.authMode then dataIn else dataOut) 0 0
  let (mac, tag) ← if lastBlock then mac.finalize key.hash else .ok (mac, s.tag)
  .ok ({ s with cipher, mac, tag }, dataOut)

/-- `CipherTraits<false>::process`: the MAC is fed what the cipher reads. -/
def processDecrypt (s : EncryptMAC codec) (dataIn : Bytes) (lastBlock : Bool) :
    Except Error (EncryptMAC codec × Bytes) := do
  let mac ← s.mac.process dataIn 0 0
  let (cipher, dataOut) ←
    if s.authMode then .ok (s.cipher, [])
    else (Cipher.worker codec).process s.cipher dataIn [] 0 0 0 lastBlock
  let mac ← if lastBlock then mac.finalizeAndVerify key.hash s.tag else .ok mac
  .ok ({ s with cipher, mac }, dataOut)

def worker (doProcess : EncryptMAC codec → Bytes → Bool → Except Error (EncryptMAC codec × Bytes)) :
    CipherWorker (EncryptMAC codec) where
  initialized s := s.initialized
  close s := { s with initialized := false }
  doProcess := doProcess

/-- `EncryptMAC<true>` -/
def encryptor : CipherWorker (EncryptMAC key.encrypts) := worker (processEncrypt key)

/-- `EncryptMAC<false>` -/
def decryptor : CipherWorker (EncryptMAC key.decrypts) := worker (processDecrypt key)

def beginNotEncrypted (s : EncryptMAC codec) : EncryptMAC codec := { s with authMode := true }

def endNotEncrypted (s : EncryptMAC codec) : EncryptMAC codec := { s with authMode := false }

/-- `setTag` -/
def setTag (s : EncryptMAC codec) (buf : Bytes) : Except Error (EncryptMAC codec) :=
  match checkInContainerSize buf.length 0 key.getTagSize with
  | none => .error .invalidSize
  | some _ => .ok { s with tag := buf.take key.getTagSize }

/-- `getTag` into a buffer of the size of a tag, which keeps the bytes that the tag has not. -/
def getTag (s : EncryptMAC codec) (data : Bytes) : Except Error Bytes :=
  if s.tag = [] then .error .invalidMacState
  else
    let size := min s.tag.length key.getTagSize
    .ok (s.tag.take size ++ data.drop size)

end EncryptMAC

/-! ### Buffers -/

namespace AeadArgTraits

variable {codec : Bytes → Codec UInt8 UInt8} {σ : Type}

/-- `auth` -/
def auth (w : CipherWorker (EncryptMAC codec)) (s : EncryptMAC codec) (authdata : Data)
    (out : Bytes) : Except Error (EncryptMAC codec × Bytes) :=
  match authdata with
  | .buffer [] | .buffers [] => .ok (s, out)
  | .buffer b =>
    match w.process s.beginNotEncrypted b out 0 0 out.length false with
    | .error e => .error e
    | .ok (s, out) => .ok (s.endNotEncrypted, out)
  | .buffers bs =>
    match w.processAll s.beginNotEncrypted bs out with
    | .error e => .error e
    | .ok (s, out) => .ok (s.endNotEncrypted, out)

/-- `encrypt` -/
def encrypt (w : CipherWorker σ) (s : σ) (plaintext : Data) (out : Bytes) :
    Except Error (σ × Bytes) :=
  match plaintext with
  | .buffer [] => .ok (s, out)
  | .buffer b => w.process s b out 0 0 out.length false
  | .buffers bs => w.processAll s bs out

/-- `decrypt`; the offset is that of the first buffer. -/
def decrypt (w : CipherWorker σ) (s : σ) (ciphertext : Data) (out : Bytes) (offset : Nat) :
    Except Error (σ × Bytes) :=
  match ciphertext with
  | .buffer [] | .buffers [] => .ok (s, out)
  | .buffer b => w.process s b out 0 offset out.length false
  | .buffers (b :: bs) =>
    if b.length = offset then w.processAll s bs out
    else
      match w.process s b out 0 offset out.length false with
      | .error e => .error e
      | .ok (s, out) => w.processAll s bs out

/-- `extractIvAndTag` from the first buffer of a pack. -/
def extractIvAndTag (key : EncryptMacKey) (view : Bytes) : Except Error (Bytes × Bytes) :=
  if key.ivSize + key.getTagSize ≤ view.length then
    .ok ((view.drop key.getTagSize).take key.ivSize, view.take key.getTagSize)
  else .error .decryptionFailed

end AeadArgTraits

/-- A pack: there is a first buffer. -/
inductive Pack
  | one (b : Bytes)
  | many (b : Bytes) (bs : List Bytes)

namespace Pack

def front : Pack → Bytes
  | one b | many b _ => b

def data : Pack → Data
  | one b => .buffer b
  | many b bs => .buffers (b :: bs)

end Pack

/-! ### Encryption and decryption -/

namespace EncryptMAC

variable (key : EncryptMacKey)

/-- `encryptAndFinalize`, with the bytes of the buffer that is made for the tag. -/
def encryptAndFinalize (s : EncryptMAC key.encrypts) (plaintext authdata : Data)
    (ciphertext : Bytes) (memory : Nat → UInt8) : Except Error (Bytes × Bytes) := do
  let (s, ciphertext) ← AeadArgTraits.auth (encryptor key) s authdata ciphertext
  let (s, ciphertext) ← AeadArgTraits.encrypt (encryptor key) s plaintext ciphertext
  let (s, ciphertext) ← (encryptor key).finalize s ciphertext ciphertext.length
  let tag ← s.getTag key ((List.range key.getTagSize).map memory)
  .ok (ciphertext, tag)

/-- `encryptPack` behind `before`, with the IV that is generated when none is given.  The IV is
copied into a buffer of its size, which is filled with zeros before. -/
def encryptPack (before : Bytes) (plaintext authdata : Data) (iv generated : Bytes) :
    Except Error Bytes := do
  let iv := if iv = [] then generated else iv
  let ivBuf := (iv ++ List.replicate (key.ivSize - iv.length) 0).take key.ivSize
  let noTag := List.replicate key.getTagSize 0
  let ciphertext := before ++ noTag ++ ivBuf
  let s ← init key ivBuf
  let (s, ciphertext) ← AeadArgTraits.auth (encryptor key) s authdata ciphertext
  let (s, ciphertext) ← AeadArgTraits.encrypt (encryptor key) s plaintext ciphertext
  let (s, ciphertext) ← (encryptor key).finalize s ciphertext ciphertext.length
  let tag ← s.getTag key noTag
  .ok (before ++ tag ++ ciphertext.drop (before ++ noTag).length)

/-- `decryptAndFinalize` -/
def decryptAndFinalize (s : EncryptMAC key.decrypts) (ciphertext authdata : Data)
    (tag plaintext : Bytes) : Except Error Bytes := do
  let (s, plaintext) ← AeadArgTraits.auth (decryptor key) s authdata plaintext
  let (s, plaintext) ← AeadArgTraits.decrypt (decryptor key) s ciphertext plaintext 0
  let s ← s.setTag key tag
  let (_, plaintext) ← (decryptor key).finalize s plaintext plaintext.length
  .ok plaintext

/-- `decryptPack` -/
def decryptPack (ciphertext : Pack) (authdata : Data) (plaintext : Bytes) :
    Except Error Bytes := do
  let (iv, tag) ← AeadArgTraits.extractIvAndTag key ciphertext.front
  let s ← init key iv
  let (s, plaintext) ← AeadArgTraits.auth (decryptor key) s authdata plaintext
  let (s, plaintext) ← AeadArgTraits.decrypt (decryptor key) s ciphertext.data plaintext
    (iv.length + tag.length)
  let s ← s.setTag key tag
  let (_, plaintext) ← (decryptor key).finalize s plaintext plaintext.length
  .ok plaintext

/-- `verifyDecrypt`: the MAC is fed the buffers as they are; then the cipher runs. -/
def verifyDecrypt (iv : Bytes) (ciphertext authdata : Data) (tag : Bytes) :
    Except Error Bytes := do
  let _ ← MAC.runVerify key.hash (iv :: authdata.toList ++ ciphertext.toList) tag
  let (_, plaintext) ←
    (Cipher.worker key.decrypts).processAndFinalize (.init key.ivSize iv) ciphertext
  .ok plaintext

/-- `verifyDecryptPack` -/
def verifyDecryptPack (ciphertext : Pack) (authdata : Data) : Except Error Bytes := do
  let (iv, tag) ← AeadArgTraits.extractIvAndTag key ciphertext.front
  let offset := iv.length + tag.length
  let mac ← MAC.init.process iv 0 0
  let mac ← mac.processData authdata 0
  let mac ← mac.processData ciphertext.data offset
  let _ ← mac.finalizeAndVerify key.hash tag
  let (cipher, plaintext) ← AeadArgTraits.decrypt (Cipher.worker key.decrypts)
    (.init key.ivSize iv) ciphertext.data [] offset
  let (_, plaintext) ← (Cipher.worker key.decrypts).finalize cipher plaintext plaintext.length
  .ok plaintext

end EncryptMAC

end Hatn.Crypt
