import Hatn.Crypt.EncryptMacPaths

/-!
# What a tag of encrypt-then-MAC stands for

The MAC is fed the IV, the authenticated data and the ciphertext with nothing between them.  Where
no other bytes have the tag, what is accepted under it has the same IV, and the same bytes behind
it; but the authenticated data may end, and the ciphertext begin, elsewhere.
`authenticates_iff` says that this is all that can go wrong.
-/

namespace Hatn.Crypt

open Pieces

namespace EncryptMAC

variable (key : EncryptMacKey)

/-! ### Encryption -/

section
variable {iv fed : Bytes} {run : Codec.Run (key.encrypts iv)}

theorem encryptor_auth (authdata : Data) (out : Bytes) :
    AeadArgTraits.auth (encryptor key) (opened iv run fed false) authdata out =
      .ok (opened iv run (fed ++ authdata.bytes) false, out) := by
  refine auth_eq (fun _ => rfl) (fun iv run fed xs => ?_) authdata out
  have hprocess : (encryptor key).doProcess (opened iv run fed true) xs false =
      ((opened iv run fed true).mac.process xs 0 0).map fun mac =>
        (⟨true, ⟨true, iv, run⟩, mac, true, []⟩, []) := rfl
  rw [hprocess, process_mac]
  rfl

theorem encryptor_process (xs : Bytes) :
    (encryptor key).doProcess (opened iv run fed false) xs false =
      (ofBackend (run.feed xs)).map fun p => (opened iv p.1 (fed ++ p.2) false, p.2) := by
  have hprocess : (encryptor key).doProcess (opened iv run fed false) xs false =
      ((Cipher.worker key.encrypts).process (opened iv run fed false).cipher xs [] 0 0 0 false).bind
        fun q => ((opened iv run fed false).mac.process q.2 0 0).map fun mac =>
          (⟨true, q.1, mac, false, []⟩, q.2) := rfl
  rw [hprocess, process_cipher]
  cases run.feed xs with
  | none => rfl
  | some q =>
    simp only [ofBackend_some, Except.map, Except.bind, process_mac]
    rfl

theorem encryptor_absorbs : (encryptor key).Absorbs (Opened false) :=
  absorbs_process (fun _ out => out) (fun _ => rfl) rfl (fun _ _ _ _ => rfl)
    fun _ _ _ => encryptor_process key

variable (fed run) in
/-- The end of the encryption: the end of the input of the cipher, then the tag. -/
theorem encryptor_finalize (out : Bytes) :
    (encryptor key).finalize (opened iv run fed false) out out.length =
      (ofBackend run.finish).map fun last =>
        (⟨false, ⟨true, iv, run⟩, ⟨false, fed ++ last⟩, false, key.hash (fed ++ last)⟩,
          out ++ last) := by
  have hcipher : (Cipher.worker key.encrypts).process ⟨true, iv, run⟩ [] [] 0 0 0 true =
      (ofBackend run.finish).map fun last => (⟨true, iv, run⟩, last) := by
    rw [CipherWorker.process_last rfl]
    rfl
  have hlast : (encryptor key).doProcess ((encryptor key).close (opened iv run fed false)) [] true =
      processEncrypt key ⟨false, ⟨true, iv, run⟩, ⟨true, fed⟩, false, []⟩ [] true := rfl
  rw [CipherWorker.finalize_append rfl, hlast, processEncrypt]
  simp only [hcipher, bind, Except.bind, Bool.false_eq_true, if_false, if_true]
  cases run.finish with
  | none => rfl
  | some last =>
    have hmac : MAC.process ⟨true, fed⟩ last 0 0 = _ :=
      MAC.process_initialized (Nat.zero_le last.length) 0 (Or.inl rfl)
    simp only [ofBackend_some, Except.map, hmac, List.drop_zero]
    rfl

end

/-- The tag of the bytes that were fed, in a buffer of its size. -/
def IsTag (fed tag : Bytes) : Prop :=
  tag.length = key.getTagSize ∧ MAC.verifies key.hash tag fed = true

variable {key} {iv fed out ciphertext tag data : Bytes} {plaintext authdata : Data}

theorem getTag_isTag {s : EncryptMAC key.encrypts} (hs : s.tag = key.hash fed)
    (hdata : data.length = key.getTagSize) (h : s.getTag key data = .ok tag) :
    IsTag key fed tag := by
  rw [getTag, hs] at h
  split at h
  · cases h
  · cases h
    have hsize : ((key.hash fed).take (min (key.hash fed).length key.getTagSize)).length =
        min (key.hash fed).length key.getTagSize := by
      rw [List.length_take, Nat.min_eq_left (Nat.min_le_left ..)]
    have hlength : ((key.hash fed).take (min (key.hash fed).length key.getTagSize) ++
        data.drop (min (key.hash fed).length key.getTagSize)).length = key.getTagSize := by
      rw [List.length_append, hsize, List.length_drop, hdata]
      omega
    refine ⟨hlength, ?_⟩
    rw [MAC.verifies, decide_eq_true_eq, hlength,
      List.take_append_of_le_length (Nat.le_of_eq hsize.symm),
      List.take_take, Nat.min_self]

/-- The plaintext behind `init` and the authenticated data, and the end of it. -/
theorem encrypt_finalize {q r : EncryptMAC key.encrypts × Bytes}
    (hq : AeadArgTraits.encrypt (encryptor key) (opened iv (.start (key.encrypts iv)) fed false)
      plaintext out = .ok q)
    (hr : (encryptor key).finalize q.1 q.2 q.2.length = .ok r) :
    ∃ more, r.2 = out ++ more ∧ r.1.tag = key.hash (fed ++ more) := by
  rw [(encryptor_absorbs key).encrypt ⟨iv, _, fed, rfl⟩ plaintext, encryptor_process] at hq
  cases hfeed : (Codec.Run.start (key.encrypts iv)).feed plaintext.bytes with
  | none =>
    rw [hfeed] at hq
    cases hq
  | some p =>
    rw [hfeed] at hq
    cases hq
    simp only [encryptor_finalize] at hr
    cases hfinish : p.1.finish with
    | none =>
      rw [hfinish] at hr
      cases hr
    | some last =>
      rw [hfinish] at hr
      cases hr
      exact ⟨p.2 ++ last, List.append_assoc .., congrArg key.hash (List.append_assoc ..)⟩

/-- What encryption returns: a ciphertext and its tag for an IV of the right size, or a pack. -/
inductive Encrypted (key : EncryptMacKey) (authdata : Data) (iv ciphertext tag : Bytes) : Prop
  | finalized (plaintext : Data) (memory : Nat → UInt8) (hiv : iv.length = key.ivSize)
      (h : (do encryptAndFinalize key (← init key iv) plaintext authdata [] memory) =
        .ok (ciphertext, tag))
  | packed (before : Bytes) (plaintext : Data) (given generated : Bytes)
      (hiv : iv.length = key.ivSize) (htag : tag.length = key.getTagSize)
      (h : encryptPack key before plaintext authdata given generated =
        .ok (before ++ tag ++ iv ++ ciphertext))

/-- The parts of a pack, whose tag has been put before the rest. -/
theorem pack_parts {before noTag tag' iv' more r : Bytes} (htag : tag'.length = tag.length)
    (hiv : iv'.length = iv.length) (hr : r = before ++ noTag ++ iv' ++ more)
    (h : before ++ tag' ++ r.drop (before ++ noTag).length = before ++ tag ++ iv ++ ciphertext) :
    tag' = tag ∧ iv' = iv ∧ more = ciphertext := by
  rw [hr, List.append_assoc (before ++ noTag), List.drop_left, List.append_assoc, List.append_assoc,
    List.append_assoc, List.append_cancel_left_eq] at h
  obtain ⟨h, hrest⟩ := List.append_inj h htag
  obtain ⟨hiv', hmore⟩ := List.append_inj hrest hiv
  exact ⟨h, hiv', hmore⟩

theorem Encrypted.isTag (h : Encrypted key authdata iv ciphertext tag) :
    iv.length = key.ivSize ∧ IsTag key (iv ++ authdata.bytes ++ ciphertext) tag := by
  cases h with
  | finalized plaintext memory hiv h =>
    refine ⟨hiv, ?_⟩
    rw [init_of_length key hiv] at h
    change encryptAndFinalize key _ plaintext authdata [] memory = _ at h
    rw [encryptAndFinalize, encryptor_auth] at h
    simp only [bind, Except.bind] at h
    split at h
    · cases h
    · next q hq =>
      split at h
      · cases h
      · next r hr =>
        split at h
        · cases h
        · next htag =>
          cases h
          obtain ⟨more, hmore, hr⟩ := encrypt_finalize hq hr
          rw [hmore]
          exact getTag_isTag hr (by rw [List.length_map, List.length_range]) htag
  | packed before plaintext given generated hiv htag h =>
    refine ⟨hiv, ?_⟩
    have hbuf : ∀ iv : Bytes, ((iv ++ List.replicate (key.ivSize - iv.length) 0).take
        key.ivSize).length = key.ivSize := by
      intro iv
      rw [List.length_take, List.length_append, List.length_replicate]
      omega
    rw [encryptPack] at h
    simp only [init_of_length key (hbuf _), encryptor_auth, bind, Except.bind] at h
    split at h
    · cases h
    · next q hq =>
      split at h
      · cases h
      · next r hr =>
        split at h
        · cases h
        · next hget =>
          obtain ⟨more, hmore, hr⟩ := encrypt_finalize hq hr
          have hisTag := getTag_isTag hr List.length_replicate hget
          obtain ⟨rfl, rfl, rfl⟩ := pack_parts (hisTag.1.trans htag.symm)
            ((hbuf _).trans hiv.symm) hmore (Except.ok.inj h)
          exact hisTag

/-! ### What is accepted -/

/-- A call of a decryption. -/
inductive Attempt
  | decryptPack (pack : Pack)
  | verifyDecryptPack (pack : Pack)
  | decryptAndFinalize (iv : Bytes) (ciphertext : Data) (tag : Bytes)
  | verifyDecrypt (iv : Bytes) (ciphertext : Data) (tag : Bytes)

namespace Attempt

variable (key) in
/-- The plaintext. -/
def run (authdata : Data) : Attempt → Except Error Bytes
  | decryptPack pack => EncryptMAC.decryptPack key pack authdata []
  | verifyDecryptPack pack => EncryptMAC.verifyDecryptPack key pack authdata
  | decryptAndFinalize iv ciphertext tag => do
    EncryptMAC.decryptAndFinalize key (← init key iv) ciphertext authdata tag []
  | verifyDecrypt iv ciphertext tag => EncryptMAC.verifyDecrypt key iv ciphertext authdata tag

/-- The call gets these bytes, in whatever buffers. -/
def Carries (iv ciphertext tag : Bytes) : Attempt → Prop
  | decryptPack pack | verifyDecryptPack pack => pack.data.bytes = tag ++ iv ++ ciphertext
  | decryptAndFinalize iv' data tag' | verifyDecrypt iv' data tag' =>
    iv' = iv ∧ data.bytes = ciphertext ∧ tag' = tag

variable (key) in
/-- What the call needs besides the tag: the tag and the IV are in the first buffer of a pack, and
the cipher deciphers the ciphertext. -/
def Opens (iv ciphertext : Bytes) : Attempt → Prop
  | decryptPack pack | verifyDecryptPack pack =>
    key.ivSize + key.getTagSize ≤ pack.front.length ∧
      ((key.decrypts iv).total ciphertext).isSome
  | decryptAndFinalize _ _ _ => ((key.decrypts iv).total ciphertext).isSome
  | verifyDecrypt _ data _ => (deciphered key iv data).isSome

end Attempt

/-- The tag and the IV of a pack whose first buffer has them. -/
theorem extract_of_bytes {pack : Pack} (hiv : iv.length = key.ivSize)
    (htag : tag.length = key.getTagSize) (hbytes : pack.data.bytes = tag ++ iv ++ ciphertext)
    (hfront : key.ivSize + key.getTagSize ≤ pack.front.length) :
    AeadArgTraits.extractIvAndTag key pack.front = .ok (iv, tag) ∧
      pack.data.bytes.drop (iv.length + tag.length) = ciphertext := by
  have hdata : ∃ rest, pack.data.bytes = pack.front ++ rest := by
    cases pack with
    | one b => exact ⟨[], (Data.bytes_buffer b).trans (List.append_nil b).symm⟩
    | many b bs => exact ⟨bs.flatten, rfl⟩
  obtain ⟨rest, hrest⟩ := hdata
  have htake : pack.front.take key.getTagSize = tag := by
    have hfront' : pack.data.bytes.take key.getTagSize = pack.front.take key.getTagSize := by
      rw [hrest, List.take_append_of_le_length (by omega)]
    rw [← hfront', hbytes, ← htag, List.append_assoc, List.take_left]
  have hdrop : (pack.front.drop key.getTagSize).take key.ivSize = iv := by
    have hfront' : key.ivSize ≤ (pack.front.drop key.getTagSize).length := by
      rw [List.length_drop]
      omega
    have hrest' : (pack.data.bytes.drop key.getTagSize).take key.ivSize =
        (pack.front.drop key.getTagSize).take key.ivSize := by
      rw [hrest, List.drop_append_of_le_length (by omega), List.take_append_of_le_length hfront']
    rw [← hrest', hbytes, ← htag, List.append_assoc, List.drop_left, ← hiv, List.take_left]
  refine ⟨(extractIvAndTag_eq_ok key).mpr ⟨hfront, hdrop.symm, htake.symm⟩, ?_⟩
  rw [hbytes, Nat.add_comm, ← List.length_append, List.drop_left]

theorem extract_short {pack : Pack}
    (hfront : ¬ key.ivSize + key.getTagSize ≤ pack.front.length) (p : Bytes) :
    decryptPack key pack authdata [] ≠ .ok p ∧ verifyDecryptPack key pack authdata ≠ .ok p := by
  rw [decryptPack, verifyDecryptPack, AeadArgTraits.extractIvAndTag, if_neg hfront]
  refine ⟨fun h => ?_, fun h => ?_⟩ <;> cases h

/-- A call is accepted when the tag is that of all its bytes, one behind the other. -/
theorem Attempt.run_eq_ok {attempt : Attempt} (hiv : iv.length = key.ivSize)
    (htag : tag.length = key.getTagSize) (h : attempt.Carries iv ciphertext tag) :
    (∃ p, attempt.run key authdata = .ok p) ↔
      MAC.verifies key.hash tag (iv ++ authdata.bytes ++ ciphertext) = true ∧
        attempt.Opens key iv ciphertext := by
  cases attempt with
  | decryptPack pack =>
    by_cases hfront : key.ivSize + key.getTagSize ≤ pack.front.length
    · obtain ⟨hextract, hdrop⟩ := extract_of_bytes hiv htag h hfront
      simp only [run, decryptPack_eq_ok key hextract, hdrop, exists_and_left, Opens, hfront,
        true_and, Option.isSome_iff_exists]
    · exact iff_of_false (fun ⟨p, hp⟩ => (extract_short hfront p).1 hp) fun h => hfront h.2.1
  | verifyDecryptPack pack =>
    by_cases hfront : key.ivSize + key.getTagSize ≤ pack.front.length
    · obtain ⟨hextract, hdrop⟩ := extract_of_bytes hiv htag h hfront
      simp only [run, verifyDecryptPack_eq_ok key hextract, hdrop, exists_and_left, Opens, hfront,
        true_and, Option.isSome_iff_exists]
    · exact iff_of_false (fun ⟨p, hp⟩ => (extract_short hfront p).2 hp) fun h => hfront h.2.1
  | decryptAndFinalize iv' data tag' =>
    obtain ⟨rfl, rfl, rfl⟩ := h
    simp only [run, decryptAndFinalize_eq_ok, Opens, initVector_of_length hiv, ← htag, Nat.le_refl,
      List.take_length, true_and, exists_and_left, Option.isSome_iff_exists]
  | verifyDecrypt iv' data tag' =>
    obtain ⟨rfl, rfl, rfl⟩ := h
    simp only [run, verifyDecrypt_eq_ok, Opens, initVector_of_length hiv, exists_and_left,
      Option.isSome_iff_exists]

/-- Two streams of bytes with one tag. -/
theorem IsTag.verifies_iff {fed' : Bytes} (h : IsTag key fed tag) :
    MAC.verifies key.hash tag fed' = true ↔
      (key.hash fed').take key.getTagSize = (key.hash fed).take key.getTagSize := by
  obtain ⟨hlength, hverifies⟩ := h
  simp only [MAC.verifies, decide_eq_true_eq, key.length_hash, hlength] at hverifies ⊢
  rw [← hverifies]
  have htake : ∀ fed, (key.hash fed).take (min key.hashSize key.getTagSize) =
      (key.hash fed).take key.getTagSize := by
    intro fed
    rw [← key.length_hash fed, List.take_eq_take_iff]
    omega
  rw [htake, htake]

/-- Where no other bytes have the tag of an encryption, a call under this tag gets, if it is
accepted, the parts that were encrypted, just when it does not bring the same bytes with the
authenticated data ending elsewhere. -/
theorem authenticates_iff {iv' ciphertext' : Bytes} {authdata' : Data} {attempt : Attempt}
    (h : Encrypted key authdata iv ciphertext tag)
    (hinjective : ∀ fed, (key.hash fed).take key.getTagSize =
      (key.hash (iv ++ authdata.bytes ++ ciphertext)).take key.getTagSize →
      fed = iv ++ authdata.bytes ++ ciphertext)
    (hcarries : attempt.Carries iv' ciphertext' tag) (hiv : iv'.length = key.ivSize) :
    ((∃ p, attempt.run key authdata' = .ok p) →
      iv' = iv ∧ authdata'.bytes = authdata.bytes ∧ ciphertext' = ciphertext) ↔
    ¬ (iv' = iv ∧ authdata'.bytes ++ ciphertext' = authdata.bytes ++ ciphertext ∧
      authdata'.bytes.length ≠ authdata.bytes.length ∧ attempt.Opens key iv' ciphertext') := by
  obtain ⟨hlength, htag⟩ := h.isTag
  rw [Attempt.run_eq_ok hiv htag.1 hcarries, htag.verifies_iff]
  constructor
  · rintro haccepted ⟨rfl, hbytes, hmoved, hopens⟩
    rw [List.append_assoc, hbytes, ← List.append_assoc] at haccepted
    exact hmoved (congrArg List.length (haccepted ⟨rfl, hopens⟩).2.1)
  · rintro hmoved ⟨hhash, hopens⟩
    have hfed := hinjective _ hhash
    rw [List.append_assoc, List.append_assoc] at hfed
    obtain ⟨rfl, hbytes⟩ := List.append_inj hfed (hiv.trans hlength.symm)
    by_cases hsize : authdata'.bytes.length = authdata.bytes.length
    · exact ⟨rfl, List.append_inj hbytes hsize⟩
    · exact absurd ⟨rfl, hbytes, hsize, hopens⟩ hmoved

/-- A key whose MAC tells one stream from all others; the cipher changes nothing. -/
def sampleKey : EncryptMacKey where
  ivSize := 1
  hashSize := 1
  tagSize := 0
  encrypts _ := .identity UInt8
  decrypts _ := .identity UInt8
  hash fed := if fed = [1, 2, 3] then [1] else [0]
  length_hash fed := by split <;> rfl

theorem sampleKey_encrypted : Encrypted sampleKey (.buffer [2]) [1] [3] [1] :=
  .finalized (.buffer [3]) (fun _ => 0) rfl rfl

theorem sampleKey_injective (fed : Bytes) (h : (sampleKey.hash fed).take sampleKey.getTagSize =
    (sampleKey.hash [1, 2, 3]).take sampleKey.getTagSize) : fed = [1, 2, 3] := by
  by_contra hne
  have hhash : sampleKey.hash fed = [0] := if_neg hne
  rw [hhash] at h
  exact absurd h (by decide)

theorem authenticates_sampleKey :
    ((∃ p, (Attempt.verifyDecrypt [1] (.buffer [3]) [1]).run sampleKey (.buffers [[2]]) = .ok p) →
      ([1] : Bytes) = [1] ∧ (Data.buffers [[2]]).bytes = (Data.buffer [2]).bytes ∧
        ([3] : Bytes) = [3]) ↔
    ¬ (([1] : Bytes) = [1] ∧ (Data.buffers [[2]]).bytes ++ [3] = (Data.buffer [2]).bytes ++ [3] ∧
      (Data.buffers [[2]]).bytes.length ≠ (Data.buffer [2]).bytes.length ∧
        (Attempt.verifyDecrypt [1] (.buffer [3]) [1]).Opens sampleKey [1] [3]) :=
  have hcarries : (Attempt.verifyDecrypt [1] (.buffer [3]) [1]).Carries [1] [3] [1] :=
    ⟨rfl, rfl, rfl⟩
  authenticates_iff sampleKey_encrypted sampleKey_injective hcarries rfl

/-- A byte of the authenticated data becomes one of the ciphertext. -/
theorem boundary_moves : ¬ ∀ (key : EncryptMacKey) (authdata : Data) (iv ciphertext tag : Bytes)
    (authdata' : Data) (iv' ciphertext' : Bytes) (attempt : Attempt),
    Encrypted key authdata iv ciphertext tag →
    (∀ fed, (key.hash fed).take key.getTagSize =
      (key.hash (iv ++ authdata.bytes ++ ciphertext)).take key.getTagSize →
      fed = iv ++ authdata.bytes ++ ciphertext) →
    attempt.Carries iv' ciphertext' tag → iv'.length = key.ivSize →
    (∃ p, attempt.run key authdata' = .ok p) →
      iv' = iv ∧ authdata'.bytes = authdata.bytes ∧ ciphertext' = ciphertext := by
  intro h
  have hparts := h sampleKey (.buffer [2]) [1] [3] [1] (.buffer []) [1] [2, 3]
    (.decryptAndFinalize [1] (.buffer [2, 3]) [1]) sampleKey_encrypted sampleKey_injective
    ⟨rfl, rfl, rfl⟩ rfl ⟨[2, 3], rfl⟩
  exact absurd hparts.2.2 (by decide)

end EncryptMAC

end Hatn.Crypt
