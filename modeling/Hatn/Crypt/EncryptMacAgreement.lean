import Hatn.Crypt.EncryptMacPaths

/-!
# The two ways to decrypt

A pack is decrypted alike by the generic worker and by `verifyDecryptPack`.  `verifyDecrypt` feeds
the IV to the MAC as it is given, compares as much of the tag as it is given, and does not end the
input of the cipher where the ciphertext is one empty buffer.  `agree_iff` says for which IVs, tags
and ciphertexts it agrees with `decryptAndFinalize` under all keys.
-/

namespace Hatn.Crypt

open Pieces

namespace EncryptMAC

/-- The generic worker and `verifyDecrypt` give the same plaintext, or both none. -/
def Agree (key : EncryptMacKey) (iv : Bytes) (ciphertext authdata : Data) (tag : Bytes) : Prop :=
  ∀ p, verifyDecrypt key iv ciphertext authdata tag = .ok p ↔
    (do decryptAndFinalize key (← init key iv) ciphertext authdata tag []) = .ok p

/-- So do they for a pack. -/
theorem packs_agree (key : EncryptMacKey) (pack : Pack) (authdata : Data) (p : Bytes) :
    verifyDecryptPack key pack authdata = .ok p ↔ decryptPack key pack authdata [] = .ok p := by
  cases hextract : AeadArgTraits.extractIvAndTag key pack.front with
  | error e =>
    rw [verifyDecryptPack, decryptPack, hextract]
    exact Iff.rfl
  | ok q => rw [verifyDecryptPack_eq_ok key hextract, decryptPack_eq_ok key hextract]

/-- The IV has the size of the cipher, and the tag that of the algorithm, or more bytes that are
not compared; the ciphertext is not a single empty buffer.  A hash of no bytes is always met. -/
structure Fits (alg : EncryptMacAlg) (iv : Bytes) (ciphertext : Data) (tag : Bytes) : Prop where
  iv_length : alg.hashSize = 0 ∨ iv.length = alg.ivSize
  tag_length : alg.getTagSize ≤ tag.length
  compared : min alg.hashSize tag.length = min alg.hashSize alg.getTagSize
  not_empty : ciphertext ≠ .buffer []

/-! ### Agreement -/

theorem deciphered_eq (key : EncryptMacKey) (iv : Bytes) {ciphertext : Data}
    (h : ciphertext ≠ .buffer []) :
    deciphered key iv ciphertext = (key.decrypts iv).total ciphertext.bytes := by
  unfold deciphered
  split
  · exact absurd rfl h
  · rfl

/-- The bytes of a longer tag that are not compared. -/
theorem verifies_take {key : EncryptMacKey} {tag fed : Bytes}
    (htag : key.getTagSize ≤ tag.length)
    (h : min key.hashSize tag.length = min key.hashSize key.getTagSize) :
    MAC.verifies key.hash (tag.take key.getTagSize) fed = MAC.verifies key.hash tag fed := by
  simp only [MAC.verifies, key.length_hash, List.length_take, Nat.min_eq_left htag, List.take_take,
    h]
  rw [Nat.min_eq_left (Nat.min_le_right ..)]

theorem Fits.agree {key : EncryptMacKey} {iv tag : Bytes} {ciphertext authdata : Data}
    (h : Fits key.toEncryptMacAlg iv ciphertext tag) : Agree key iv ciphertext authdata tag := by
  intro p
  rw [verifyDecrypt_eq_ok, decryptAndFinalize_eq_ok, deciphered_eq key _ h.not_empty,
    verifies_take h.tag_length h.compared]
  rcases h.iv_length with hhash | hiv
  · have hverifies : ∀ fed, MAC.verifies key.hash tag fed = true := by
      intro fed
      simp only [MAC.verifies, key.length_hash, hhash, Nat.zero_min, List.take_zero, decide_true]
    simp only [hverifies, true_and, h.tag_length]
  · rw [initVector_of_length hiv]
    simp only [h.tag_length, true_and]

/-! ### Keys under which they do not agree -/

/-- A hash of a size that meets a tag. -/
def matching (size : Nat) (tag : Bytes) : Bytes :=
  tag.take size ++ List.replicate (size - tag.length) 0

theorem length_matching (size : Nat) (tag : Bytes) : (matching size tag).length = size := by
  rw [matching, List.length_append, List.length_take, List.length_replicate]
  omega

theorem take_matching {size n : Nat} {tag : Bytes} (h : n ≤ min size tag.length) :
    (matching size tag).take n = tag.take n := by
  rw [matching, List.take_append_of_le_length (by rwa [List.length_take]), List.take_take,
    Nat.min_eq_left (Nat.le_trans h (Nat.min_le_left ..))]

theorem map_succ_ne {bs : Bytes} (h : bs ≠ []) : bs.map (· + 1) ≠ bs := by
  cases bs with
  | nil => exact absurd rfl h
  | cons b bs =>
    intro heq
    have hb : b + 1 = b := (List.cons.inj heq).1
    simp at hb

/-- A key whose cipher changes nothing, but for the end of it. -/
def keyOf (alg : EncryptMacAlg) (last : Option Bytes) (hash : Bytes → Bytes)
    (h : ∀ fed, (hash fed).length = alg.hashSize) : EncryptMacKey :=
  { alg with
    encrypts := fun _ => .identity UInt8
    decrypts := fun _ => { Codec.identity UInt8 with last := fun _ => last }
    hash := hash
    length_hash := h }

section
variable {alg : EncryptMacAlg} {iv tag fed : Bytes} {ciphertext authdata : Data}
  {hash : Bytes → Bytes} {h : ∀ fed, (hash fed).length = alg.hashSize}

theorem total_keyOf (iv xs : Bytes) :
    ((keyOf alg (some []) hash h).decrypts iv).total xs = some xs := by
  change some (xs ++ []) = some xs
  rw [List.append_nil]

theorem deciphered_keyOf (iv : Bytes) (ciphertext : Data) :
    deciphered (keyOf alg (some []) hash h) iv ciphertext = some ciphertext.bytes := by
  unfold deciphered
  split
  · rw [Data.bytes_buffer]
  · rw [total_keyOf]

theorem verifies_keyOf {last : Option Bytes} :
    MAC.verifies (keyOf alg last hash h).hash tag fed = true ↔
      (hash fed).take (min alg.hashSize tag.length) = tag.take (min alg.hashSize tag.length) := by
  rw [MAC.verifies, decide_eq_true_eq, (keyOf alg last hash h).length_hash]
  exact Iff.rfl

theorem verifies_matching {last : Option Bytes} (hfed : hash fed = matching alg.hashSize tag) :
    MAC.verifies (keyOf alg last hash h).hash tag fed = true := by
  rw [verifies_keyOf, hfed, take_matching (Nat.le_refl _)]

variable (hagree : ∀ key : EncryptMacKey, key.toEncryptMacAlg = alg →
  Agree key iv ciphertext authdata tag)
include hagree

theorem tag_length_of_agree : alg.getTagSize ≤ tag.length := by
  have hkey := hagree (keyOf alg (some []) (fun _ => matching alg.hashSize tag)
    fun _ => length_matching _ _) rfl ciphertext.bytes
  rw [verifyDecrypt_eq_ok, decryptAndFinalize_eq_ok] at hkey
  exact (hkey.mp ⟨verifies_matching rfl, deciphered_keyOf _ _⟩).1

theorem not_empty_of_agree : ciphertext ≠ .buffer [] := by
  rintro rfl
  have hkey := hagree (keyOf alg none (fun _ => matching alg.hashSize tag)
    fun _ => length_matching _ _) rfl []
  rw [verifyDecrypt_eq_ok, decryptAndFinalize_eq_ok] at hkey
  cases (hkey.mp ⟨verifies_matching rfl, rfl⟩).2.2

theorem iv_length_of_agree : alg.hashSize = 0 ∨ iv.length = alg.ivSize := by
  by_contra hne
  obtain ⟨hhash, hiv⟩ := not_or.mp hne
  have htag := tag_length_of_agree hagree
  have hpos := alg.getTagSize_pos
  -- a hash that meets the tag for the bytes of the one path only
  have hlength : ∀ fed, (if fed = iv ++ authdata.bytes ++ ciphertext.bytes
      then matching alg.hashSize tag
      else (matching alg.hashSize tag).map (· + 1)).length = alg.hashSize := by
    intro fed
    split
    · exact length_matching _ _
    · rw [List.length_map, length_matching]
  have hkey := hagree (keyOf alg (some []) _ hlength) rfl ciphertext.bytes
  rw [verifyDecrypt_eq_ok, decryptAndFinalize_eq_ok] at hkey
  have hverifies := (hkey.mp ⟨verifies_matching (if_pos rfl), deciphered_keyOf _ _⟩).2.1
  have hsize : 0 < min alg.hashSize alg.getTagSize := by omega
  have htake : (tag.take alg.getTagSize).length = alg.getTagSize := by
    rw [List.length_take, Nat.min_eq_left htag]
  have hne : initVector alg.ivSize iv ++ authdata.bytes ++ ciphertext.bytes ≠
      iv ++ authdata.bytes ++ ciphertext.bytes := by
    intro heq
    have hlength := congrArg List.length heq
    simp only [List.length_append, length_initVector] at hlength
    omega
  change MAC.verifies _ (tag.take alg.getTagSize) (initVector alg.ivSize iv ++ _ ++ _) = true
    at hverifies
  rw [verifies_keyOf, if_neg hne, htake, List.take_take, Nat.min_eq_left (Nat.min_le_right ..),
    ← List.map_take, take_matching (by omega)] at hverifies
  refine map_succ_ne (fun hnil => ?_) hverifies
  have hlength := congrArg List.length hnil
  rw [List.length_take, List.length_nil] at hlength
  omega

theorem compared_of_agree :
    min alg.hashSize tag.length = min alg.hashSize alg.getTagSize := by
  by_contra hne
  have htag := tag_length_of_agree hagree
  -- a hash that meets the tag as far as the one path compares it
  have hlength : ∀ fed : Bytes, ((matching alg.hashSize tag).take alg.getTagSize ++
      ((matching alg.hashSize tag).drop alg.getTagSize).map (· + 1)).length = alg.hashSize := by
    intro fed
    rw [List.length_append, List.length_map, ← List.length_append, List.take_append_drop,
      length_matching]
  have hkey := hagree (keyOf alg (some []) _ hlength) rfl ciphertext.bytes
  rw [verifyDecrypt_eq_ok, decryptAndFinalize_eq_ok] at hkey
  have hsize : ((matching alg.hashSize tag).take alg.getTagSize).length = alg.getTagSize := by
    rw [List.length_take, length_matching]
    omega
  have htake : (tag.take alg.getTagSize).length = alg.getTagSize := by
    rw [List.length_take, Nat.min_eq_left htag]
  have hmin : min alg.hashSize alg.getTagSize = alg.getTagSize := by omega
  have hmet : MAC.verifies (keyOf alg (some []) _ hlength).hash (tag.take alg.getTagSize)
      (initVector alg.ivSize iv ++ authdata.bytes ++ ciphertext.bytes) = true := by
    rw [verifies_keyOf, htake, hmin, List.take_append_of_le_length (Nat.le_of_eq hsize.symm),
      List.take_take, Nat.min_self, List.take_take, Nat.min_self, take_matching (by omega)]
  have hverifies := (hkey.mpr ⟨htag, hmet, total_keyOf _ _⟩).1
  rw [verifies_keyOf, ← take_matching (Nat.le_refl _)] at hverifies
  have hdrop := congrArg (List.drop alg.getTagSize) hverifies
  rw [List.drop_take, List.drop_take, List.drop_append_of_le_length (Nat.le_of_eq hsize.symm),
    List.drop_of_length_le (Nat.le_of_eq hsize), List.nil_append, ← List.map_take] at hdrop
  refine map_succ_ne (fun hnil => ?_) hdrop
  have hlength := congrArg List.length hnil
  rw [List.length_take, List.length_drop, length_matching, List.length_nil] at hlength
  omega

end

/-- A pack is decrypted alike on both paths; an IV, a ciphertext, authenticated data and a tag are
so under all keys of an algorithm just when they fit it. -/
theorem agree_iff (alg : EncryptMacAlg) (iv : Bytes) (ciphertext authdata : Data) (tag : Bytes) :
    (∀ key pack authdata p, verifyDecryptPack key pack authdata = .ok p ↔
      decryptPack key pack authdata [] = .ok p) ∧
    ((∀ key : EncryptMacKey, key.toEncryptMacAlg = alg → Agree key iv ciphertext authdata tag) ↔
      Fits alg iv ciphertext tag) := by
  refine ⟨packs_agree, fun h => ?_, fun h key hkey => ?_⟩
  · exact ⟨iv_length_of_agree h, tag_length_of_agree h, compared_of_agree h, not_empty_of_agree h⟩
  · subst hkey
    exact h.agree

/-- An IV that is not given: the MAC is fed zeros on one path, and nothing on the other. -/
theorem short_iv_disagrees : ¬ ∀ (key : EncryptMacKey) (iv : Bytes) (ciphertext authdata : Data)
    (tag : Bytes), Agree key iv ciphertext authdata tag := by
  intro h
  have hagree := h (keyOf ⟨1, 1, 0⟩ (some []) (fun fed => [UInt8.ofNat fed.length]) fun _ => rfl)
    [] (.buffer [7]) (.buffer []) [1] [7]
  have hverified := hagree.mp rfl
  rw [decryptAndFinalize_eq_ok] at hverified
  exact absurd hverified.2.1 (by decide)

end EncryptMAC

end Hatn.Crypt
