import Hatn.Common.MachineInt
import Hatn.Crypt.CipherWorker

/-!
# Keys of encrypt-then-MAC

An `EncryptMacKey` has a key for the cipher and one for the MAC.  It is exported as the length of
the first in 16 bits, and both keys; `importFromKDF` divides a derived byte string.  A key is known
here by the bytes of its exported form, and what is read of a buffer is written down.
-/

namespace Hatn.Crypt

open Common

/-- A part of a buffer. -/
structure Window where
  offset : Nat
  size : Nat
  deriving DecidableEq

namespace Window

def of (w : Window) (buf : Bytes) : Bytes := (buf.drop w.offset).take w.size

def Inside (w : Window) (buf : Bytes) : Prop := w.offset + w.size ≤ buf.length

/-- No byte is in both. -/
def Disjoint (w w' : Window) : Prop :=
  ∀ i, w.offset ≤ i → i < w.offset + w.size → ¬(w'.offset ≤ i ∧ i < w'.offset + w'.size)

end Window

/-- Reading from a buffer, with the parts that were read. -/
abbrev KeyReader := ExceptT Error (StateM (List Window))

namespace KeyReader

def readAt (buf : Bytes) (offset size : Nat) : KeyReader Bytes := do
  modify (· ++ [⟨offset, size⟩])
  return Window.of ⟨offset, size⟩ buf

/-- The result, and the parts that were read. -/
def result {α : Type} (r : KeyReader α) : Except Error α × List Window := r.run.run []

end KeyReader

namespace EncryptMacKey

open KeyReader

/-- `doExportToBuf`, with what both keys export. -/
def doExportToBuf (cipherKey macKey : Except Error Bytes) : Except Error Bytes := do
  let tmpBuf1 ← cipherKey
  let tmpBuf2 ← macKey
  if tmpBuf1 = [] ∧ tmpBuf2 = [] then return []
  -- the size as a `uint16_t`
  return leBytes 2 tmpBuf1.length ++ tmpBuf1 ++ tmpBuf2

/-- `doImportFromBuf`: what both keys import. -/
def doImportFromBuf (buf : Bytes) : KeyReader (Bytes × Bytes) :=
  if buf.length = 0 then do
    let cipherKey ← readAt buf 0 0
    let macKey ← readAt buf 0 0
    return (cipherKey, macKey)
  else if buf.length < 2 then throw .invalidSize
  else do
    let cipherKeySize := leNumber (← readAt buf 0 2)
    if buf.length < cipherKeySize + 2 then throw .invalidSize
    else
      let cipherKey ← readAt buf 2 cipherKeySize
      let macKey ← readAt buf (2 + cipherKeySize) (buf.length - 2 - cipherKeySize)
      return (cipherKey, macKey)

/-- `importFromKDF`: both keys begin at the start of the buffer. -/
def importFromKDF (cipherKeySize : Nat) (buf : Bytes) : KeyReader (Bytes × Bytes) :=
  if buf.length < cipherKeySize then throw .invalidSize
  else do
    let cipherKey ← readAt buf 0 cipherKeySize
    let macKey ← readAt buf 0 (buf.length - cipherKeySize)
    return (cipherKey, macKey)

/-! ### What keys are for -/

/-- What is exported of two keys is not exported, or it is imported as the two keys. -/
def Restores (cipherKey macKey : Bytes) : Prop :=
  ∀ buf, doExportToBuf (.ok cipherKey) (.ok macKey) = .ok buf →
    (doImportFromBuf buf).result.1 = .ok (cipherKey, macKey)

/-- All that is read of a buffer lies in it. -/
def ReadsInside (buf : Bytes) : Prop := ∀ w ∈ (doImportFromBuf buf).result.2, w.Inside buf

/-- The cipher key is the first part of the derived bytes, and the MAC key is the rest: they are
taken from different bytes. -/
def Divides (cipherKeySize : Nat) (derived : Bytes) : Prop :=
  (importFromKDF cipherKeySize derived).result.1 =
      .ok (derived.take cipherKeySize, derived.drop cipherKeySize) ∧
    (importFromKDF cipherKeySize derived).result.2.Pairwise Window.Disjoint

variable {cipherKey macKey buf derived : Bytes} {cipherKeySize : Nat}

/-! ### Exporting and importing -/

theorem export_eq (cipherKey macKey : Bytes) : doExportToBuf (.ok cipherKey) (.ok macKey) =
    .ok (if cipherKey = [] ∧ macKey = [] then [] else
      leBytes 2 cipherKey.length ++ cipherKey ++ macKey) := by
  by_cases h : cipherKey = [] ∧ macKey = []
  · rw [if_pos h]
    exact if_pos h
  · rw [if_neg h]
    exact if_neg h

/-- The import of a buffer with a header. -/
theorem import_eq (hsize : ¬buf.length < 2) : (doImportFromBuf buf).result =
    if buf.length < leNumber (buf.take 2) + 2 then (.error .invalidSize, [⟨0, 2⟩])
    else (.ok ((buf.drop 2).take (leNumber (buf.take 2)),
      (buf.drop (2 + leNumber (buf.take 2))).take (buf.length - 2 - leNumber (buf.take 2))),
      [⟨0, 2⟩, ⟨2, leNumber (buf.take 2)⟩,
        ⟨2 + leNumber (buf.take 2), buf.length - 2 - leNumber (buf.take 2)⟩]) := by
  have hnil : buf.length ≠ 0 := by omega
  rw [doImportFromBuf, if_neg hnil, if_neg hsize]
  by_cases h : buf.length < leNumber (buf.take 2) + 2
  · rw [if_pos h]
    exact congrArg (fun r : KeyReader (Bytes × Bytes) => r.run.run [⟨0, 2⟩]) (if_pos h)
  · rw [if_neg h]
    exact congrArg (fun r : KeyReader (Bytes × Bytes) => r.run.run [⟨0, 2⟩]) (if_neg h)

theorem import_header (n : Nat) (keys : Bytes) (h : n % 2 ^ 16 ≤ keys.length) :
    (doImportFromBuf (leBytes 2 n ++ keys)).result.1 =
      .ok (keys.take (n % 2 ^ 16), keys.drop (n % 2 ^ 16)) := by
  have hheader : (leBytes 2 n).length = 2 := leBytes_length 2 n
  have htake : (leBytes 2 n ++ keys).take 2 = leBytes 2 n := List.take_left' hheader
  have hdrop : (leBytes 2 n ++ keys).drop 2 = keys := List.drop_left' hheader
  have hlength : (leBytes 2 n ++ keys).length = keys.length + 2 := by
    rw [List.length_append, hheader, Nat.add_comm]
  have hnumber : leNumber (leBytes 2 n) = n % 2 ^ 16 := leNumber_leBytes 2 n
  rw [import_eq (by omega), htake, hnumber, hlength, if_neg (by omega), ← List.drop_drop, hdrop,
    Nat.add_sub_cancel, ← List.length_drop, List.take_length]

/-- **Keys are restored** if and only if the size of the cipher key is a number of 16 bits. -/
theorem restores_iff (cipherKey macKey : Bytes) :
    Restores cipherKey macKey ↔ cipherKey.length < 2 ^ 16 := by
  rw [Restores, export_eq]
  simp only [Except.ok.injEq, forall_eq']
  by_cases hempty : cipherKey = [] ∧ macKey = []
  · rw [if_pos hempty, hempty.1, hempty.2]
    exact iff_of_true rfl (by decide)
  · have hmod := Nat.mod_le cipherKey.length (2 ^ 16)
    rw [if_neg hempty, List.append_assoc, import_header _ _ (by rw [List.length_append]; omega),
      Except.ok.injEq, Prod.mk.injEq]
    constructor
    · rintro ⟨htake, -⟩
      have hlength := congrArg List.length htake
      rw [List.length_take, List.length_append] at hlength
      have hlt := Nat.mod_lt cipherKey.length (show 0 < 2 ^ 16 by decide)
      omega
    · intro h
      rw [Nat.mod_eq_of_lt h]
      exact ⟨List.take_left, List.drop_left⟩

theorem reads_inside (buf : Bytes) : ReadsInside buf := by
  intro w hw
  by_cases hnil : buf.length = 0
  · rw [doImportFromBuf, if_pos hnil] at hw
    have hw : w ∈ [(⟨0, 0⟩ : Window), ⟨0, 0⟩] := hw
    simp only [List.mem_cons, List.not_mem_nil, or_false, or_self] at hw
    rw [hw]
    exact Nat.zero_le _
  by_cases hsize : buf.length < 2
  · rw [doImportFromBuf, if_neg hnil, if_pos hsize] at hw
    cases hw
  rw [import_eq hsize] at hw
  split at hw
  next h =>
    rw [List.mem_singleton.mp hw]
    exact Nat.le_of_not_lt hsize
  next h =>
    simp only [List.mem_cons, List.not_mem_nil, or_false] at hw
    rcases hw with rfl | rfl | rfl
    · exact Nat.le_of_not_lt hsize
    · show 2 + leNumber (buf.take 2) ≤ buf.length
      omega
    · show 2 + leNumber (buf.take 2) + (buf.length - 2 - leNumber (buf.take 2)) ≤ buf.length
      omega

/-! ### Derived keys -/

theorem kdf_eq (h : cipherKeySize ≤ derived.length) :
    (importFromKDF cipherKeySize derived).result =
      (.ok (derived.take cipherKeySize, derived.take (derived.length - cipherKeySize)),
        [⟨0, cipherKeySize⟩, ⟨0, derived.length - cipherKeySize⟩]) := by
  rw [importFromKDF, if_neg (Nat.not_lt.mpr h)]
  rfl

/-- **The derived bytes are divided** if and only if there is nothing to divide. -/
theorem divides_iff (h : cipherKeySize ≤ derived.length) :
    Divides cipherKeySize derived ↔ cipherKeySize = 0 ∨ cipherKeySize = derived.length := by
  rw [Divides, kdf_eq h]
  constructor
  · rintro ⟨-, hdisjoint⟩
    have hpair := List.rel_of_pairwise_cons hdisjoint (List.mem_singleton.mpr rfl)
    -- the first byte would be in both
    have hfirst : 0 < cipherKeySize → ¬0 < derived.length - cipherKeySize := fun hi hi' =>
      hpair 0 (Nat.le_refl 0) (by rwa [Nat.zero_add]) ⟨Nat.le_refl 0, by rwa [Nat.zero_add]⟩
    omega
  · intro hsize
    have hnone : ∀ i, i < 0 + cipherKeySize → ¬i < 0 + (derived.length - cipherKeySize) := by omega
    refine ⟨?_, List.pairwise_pair.mpr fun i _ hi hi' => hnone i hi hi'.2⟩
    rcases hsize with rfl | rfl
    · rw [Nat.sub_zero, List.take_length, List.drop_zero]
    · rw [Nat.sub_self, List.take_zero, List.drop_length]

/-- **Keys are exported, imported and derived** as they should be just when the size of the cipher
key is a number of 16 bits, and where one of the two derived keys is empty. -/
theorem keys_right_iff (cipherKey macKey buf : Bytes) (h : cipherKeySize ≤ derived.length) :
    (Restores cipherKey macKey ↔ cipherKey.length < 2 ^ 16) ∧ ReadsInside buf ∧
      (Divides cipherKeySize derived ↔ cipherKeySize = 0 ∨ cipherKeySize = derived.length) :=
  ⟨restores_iff cipherKey macKey, reads_inside buf, divides_iff h⟩

theorem keys_right_sample :
    (Restores [1, 2] [3] ↔ [(1 : UInt8), 2].length < 2 ^ 16) ∧ ReadsInside [5, 0, 1] ∧
      (Divides 1 [7, 8, 9] ↔ 1 = 0 ∨ 1 = [(7 : UInt8), 8, 9].length) :=
  keys_right_iff [1, 2] [3] [5, 0, 1] (by decide)

/-- From three derived bytes, the MAC key gets the byte of the cipher key. -/
theorem derived_keys_overlap : ¬ ∀ (cipherKeySize : Nat) (derived : Bytes),
    cipherKeySize ≤ derived.length → Divides cipherKeySize derived := fun h =>
  absurd ((divides_iff (by decide)).mp (h 1 [7, 8, 9] (by decide))) (by decide)

end EncryptMacKey

end Hatn.Crypt
