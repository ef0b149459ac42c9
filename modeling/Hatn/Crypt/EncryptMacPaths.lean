import Hatn.Crypt.EncryptMac

/-!
# The paths through encrypt-then-MAC

Each path through `EncryptMAC` is put down to three things: the IV that the cipher starts with, the
bytes that are fed to the MAC, and all that the cipher puts out for its input.  With that, a tag is
that of the IV, the authenticated data and the ciphertext one behind the other, so that it does
not tell where the ciphertext begins; and the two ways to decrypt differ only where they are
given an IV or a tag of another size, or a single empty buffer.
-/

namespace Hatn.Crypt

open Pieces

/-! ### Buffers -/

namespace CipherWorker.Absorbs

variable {σ : Type} {w : CipherWorker σ} {I : σ → Prop} {s : σ} {out : Bytes} (h : w.Absorbs I)
include h

theorem encrypt (hs : I s) (data : Data) : AeadArgTraits.encrypt w s data out =
    (w.doProcess s data.bytes false).map fun p => (p.1, out ++ p.2) := by
  unfold AeadArgTraits.encrypt
  split
  · rw [Data.bytes_buffer, h.nil hs]
    simp only [Except.map, List.append_nil]
  · rw [h.process hs (Nat.zero_le _) 0 (Or.inl rfl), List.drop_zero, Data.bytes_buffer]
  · rw [h.processAll _ hs, Data.bytes_buffers]

theorem decrypt (hs : I s) (data : Data) {offset : Nat}
    (hoffset : offset ≤ (data.toList.headD []).length) :
    AeadArgTraits.decrypt w s data out offset =
      (w.doProcess s (data.bytes.drop offset) false).map fun p => (p.1, out ++ p.2) := by
  have hempty : (Except.ok (s, out) : Except Error (σ × Bytes)) =
      (w.doProcess s [] false).map fun p => (p.1, out ++ p.2) := by
    rw [h.nil hs]
    simp only [Except.map, List.append_nil]
  unfold AeadArgTraits.decrypt
  split
  · rw [Data.bytes_buffer, List.drop_nil, ← hempty]
  · rw [Data.bytes_buffers, List.flatten_nil, List.drop_nil, ← hempty]
  · next b _ =>
    have hoffset : offset ≤ b.length := hoffset
    rw [h.process hs hoffset 0 (Or.inl rfl), Data.bytes_buffer]
  · next b bs =>
    have hoffset : offset ≤ b.length := hoffset
    rw [Data.bytes_buffers, List.flatten_cons, List.drop_append_of_le_length hoffset]
    split
    · next hb =>
      rw [h.processAll _ hs, List.drop_of_length_le (Nat.le_of_eq hb), List.nil_append]
    · rw [h.process hs hoffset 0 (Or.inl rfl)]
      cases hb : w.doProcess s (b.drop offset) false with
      | error e =>
        rw [h.error hs hb]
        rfl
      | ok p =>
        obtain ⟨t, more⟩ := p
        rw [h.append hs hb]
        refine (h.processAll bs (h.keeps hs hb)).trans ?_
        cases w.doProcess t bs.flatten false with
        | error e => rfl
        | ok p => simp only [Except.map, List.append_assoc]

/-- All of the input, and the end of it. -/
theorem processAndFinalize (hs : I s) {data : Data} (hdata : data ≠ .buffer []) :
    w.processAndFinalize s data =
      (w.doProcess s data.bytes false).bind fun q => w.finalize q.1 q.2 q.2.length := by
  unfold CipherWorker.processAndFinalize
  split
  · next b =>
    have hb : b ≠ [] := fun hb => hdata (congrArg Data.buffer hb)
    have hprocess : w.process s b [] b.length 0 0 false = _ :=
      h.process hs (Nat.zero_le _) b.length (Or.inr rfl)
    rw [if_neg hb, hprocess, List.drop_zero, Data.bytes_buffer]
    cases w.doProcess s b false <;> rfl
  · next bs =>
    rw [h.processAll bs hs, Data.bytes_buffers]
    cases w.doProcess s bs.flatten false <;> rfl

end CipherWorker.Absorbs

theorem Cipher.worker_absorbs (codec : Bytes → Codec UInt8 UInt8) :
    (worker codec).Absorbs fun c => c.initialized = true where
  initialized hs := hs
  nil {s} _ := by
    simp only [worker, doProcess, Bool.false_eq_true, if_false, Codec.Run.feed_nil]
    rfl
  keeps {s t xs out} hs hp := by
    simp only [worker, doProcess, Bool.false_eq_true, if_false] at hp
    cases hfeed : s.run.feed xs with
    | none =>
      rw [hfeed] at hp
      cases hp
    | some p =>
      rw [hfeed] at hp
      cases hp
      exact hs
  append {s t xs out} _ hp ys := by
    simp only [worker, doProcess, Bool.false_eq_true, if_false] at hp ⊢
    cases hfeed : s.run.feed xs with
    | none =>
      rw [hfeed] at hp
      cases hp
    | some p =>
      rw [hfeed] at hp
      cases hp
      rw [Codec.Run.feed_append hfeed]
      cases p.1.feed ys <;> rfl
  error {s xs e} _ hp ys := by
    simp only [worker, doProcess, Bool.false_eq_true, if_false] at hp ⊢
    cases hfeed : s.run.feed xs with
    | none =>
      rw [hfeed] at hp
      cases hp
      rw [Codec.Run.feed_append_of_none hfeed]
      rfl
    | some p =>
      rw [hfeed] at hp
      cases hp

namespace EncryptMAC

variable {codec : Bytes → Codec UInt8 UInt8} (key : EncryptMacKey)

/-- A worker behind `init`: the run of the cipher, and what the MAC was fed. -/
def opened (iv : Bytes) (run : Codec.Run (codec iv)) (fed : Bytes) (authMode : Bool) :
    EncryptMAC codec :=
  ⟨true, ⟨true, iv, run⟩, ⟨true, fed⟩, authMode, []⟩

/-- The states that `opened` gives, in one of the modes. -/
def Opened (authMode : Bool) (s : EncryptMAC codec) : Prop :=
  ∃ iv run fed, s = opened iv run fed authMode

theorem length_initVector (ivSize : Nat) (iv : Bytes) : (initVector ivSize iv).length = ivSize := by
  unfold initVector
  split
  · next h => rw [List.length_take, Nat.min_eq_left h]
  · next h =>
    rw [List.length_append, List.length_replicate]
    omega

theorem initVector_of_length {ivSize : Nat} {iv : Bytes} (h : iv.length = ivSize) :
    initVector ivSize iv = iv := by
  rw [initVector, if_pos (Nat.le_of_eq h.symm), ← h, List.take_length]

theorem init_eq (iv : Bytes) : init key iv = .ok (opened (initVector key.ivSize iv)
    (.start (codec (initVector key.ivSize iv))) (initVector key.ivSize iv) false) := by
  have hlength := length_initVector key.ivSize iv
  rw [init, MAC.init, MAC.process_initialized (Nat.zero_le _) 0 (Or.inl rfl)]
  simp only [Cipher.init, initVector_of_length hlength]
  rfl

theorem init_of_length {iv : Bytes} (h : iv.length = key.ivSize) :
    init key iv = .ok (opened iv (.start (codec iv)) iv false) := by
  rw [init_eq, initVector_of_length h]

/-! ### Authenticated data -/

section
variable {w : CipherWorker (EncryptMAC codec)} {iv fed : Bytes} {run : Codec.Run (codec iv)}

/-- A worker that only feeds the MAC, and puts nothing out, in the mode for authenticated data. -/
theorem absorbs_auth (hinitialized : ∀ s, w.initialized s = s.initialized)
    (hprocess : ∀ iv run fed xs, w.doProcess (opened iv run fed true) xs false =
      .ok (opened iv run (fed ++ xs) true, [])) : w.Absorbs (Opened true) where
  initialized := by
    rintro _ ⟨iv, run, fed, rfl⟩
    exact hinitialized _
  nil := by
    rintro _ ⟨iv, run, fed, rfl⟩
    rw [hprocess, List.append_nil]
  keeps := by
    rintro _ t xs out ⟨iv, run, fed, rfl⟩ ht
    rw [hprocess] at ht
    cases ht
    exact ⟨iv, run, fed ++ xs, rfl⟩
  append := by
    rintro _ t xs out ⟨iv, run, fed, rfl⟩ ht ys
    rw [hprocess] at ht
    cases ht
    rw [hprocess, hprocess, List.append_assoc]
    rfl
  error := by
    rintro _ xs e ⟨iv, run, fed, rfl⟩ he
    rw [hprocess] at he
    cases he

theorem auth_eq (hinitialized : ∀ s, w.initialized s = s.initialized)
    (hprocess : ∀ iv run fed xs, w.doProcess (opened iv run fed true) xs false =
      .ok (opened iv run (fed ++ xs) true, [])) (authdata : Data) (out : Bytes) :
    AeadArgTraits.auth w (opened iv run fed false) authdata out =
      .ok (opened iv run (fed ++ authdata.bytes) false, out) := by
  have habsorbs := absorbs_auth hinitialized hprocess
  have hopened : Opened true (opened iv run fed true) := ⟨iv, run, fed, rfl⟩
  have hbegin : (opened iv run fed false).beginNotEncrypted = opened iv run fed true := rfl
  unfold AeadArgTraits.auth
  split
  · rw [Data.bytes_buffer, List.append_nil]
  · rw [Data.bytes_buffers, List.flatten_nil, List.append_nil]
  · rw [hbegin, habsorbs.process hopened (Nat.zero_le _) 0 (Or.inl rfl), hprocess]
    simp only [Except.map, List.append_nil, List.drop_zero, Data.bytes_buffer]
    rfl
  · rw [hbegin, habsorbs.processAll _ hopened, hprocess]
    simp only [Except.map, List.append_nil, Data.bytes_buffers]
    rfl

end

/-! ### Encrypted data -/

section
variable {w : CipherWorker (EncryptMAC codec)} (heard : Bytes → Bytes → Bytes)

/-- A worker that feeds the MAC what `heard` makes of the input and the output of the cipher. -/
theorem absorbs_process (hinitialized : ∀ s, w.initialized s = s.initialized)
    (hnil : heard [] [] = [])
    (happend : ∀ xs out ys more, heard (xs ++ ys) (out ++ more) = heard xs out ++ heard ys more)
    (hprocess : ∀ iv run fed xs, w.doProcess (opened iv run fed false) xs false =
      (ofBackend (run.feed xs)).map fun p =>
        (opened iv p.1 (fed ++ heard xs p.2) false, p.2)) :
    w.Absorbs (Opened false) where
  initialized := by
    rintro _ ⟨iv, run, fed, rfl⟩
    exact hinitialized _
  nil := by
    rintro _ ⟨iv, run, fed, rfl⟩
    rw [hprocess, Codec.Run.feed_nil]
    simp only [ofBackend_some, Except.map, hnil, List.append_nil]
  keeps := by
    rintro _ t xs out ⟨iv, run, fed, rfl⟩ ht
    rw [hprocess] at ht
    cases hfeed : run.feed xs with
    | none =>
      rw [hfeed] at ht
      cases ht
    | some p =>
      rw [hfeed] at ht
      cases ht
      exact ⟨_, _, _, rfl⟩
  append := by
    rintro _ t xs out ⟨iv, run, fed, rfl⟩ ht ys
    rw [hprocess] at ht
    cases hfeed : run.feed xs with
    | none =>
      rw [hfeed] at ht
      cases ht
    | some p =>
      rw [hfeed] at ht
      cases ht
      rw [hprocess, hprocess, Codec.Run.feed_append hfeed]
      cases p.1.feed ys with
      | none => rfl
      | some q =>
        simp only [Option.map_some, ofBackend_some, happend, Except.map, List.append_assoc]
  error := by
    rintro _ xs e ⟨iv, run, fed, rfl⟩ he ys
    rw [hprocess] at he ⊢
    cases hfeed : run.feed xs with
    | none =>
      rw [hfeed] at he
      cases he
      rw [Codec.Run.feed_append_of_none hfeed]
      rfl
    | some p =>
      rw [hfeed] at he
      cases he

end

section
variable {iv fed : Bytes} {run : Codec.Run (codec iv)}

/-- The cipher of a worker that is open. -/
theorem process_cipher (xs : Bytes) :
    (Cipher.worker codec).process (opened iv run fed false).cipher xs [] 0 0 0 false =
      (ofBackend (run.feed xs)).map fun p => (⟨true, iv, p.1⟩, p.2) := by
  have hprocess : (Cipher.worker codec).process (opened iv run fed false).cipher xs [] 0 0 0 false =
      _ := (Cipher.worker_absorbs codec).process rfl (Nat.zero_le _) 0 (Or.inl rfl)
  rw [hprocess, List.drop_zero]
  simp only [Cipher.worker, Cipher.doProcess, opened, Bool.false_eq_true, if_false]
  cases run.feed xs <;> rfl

theorem process_mac (xs : Bytes) (authMode : Bool) :
    (opened iv run fed authMode).mac.process xs 0 0 = .ok ⟨true, fed ++ xs⟩ :=
  MAC.process_initialized (Nat.zero_le _) 0 (Or.inl rfl)

end

/-! ### Decryption -/

section
variable {iv fed : Bytes} {run : Codec.Run (key.decrypts iv)}

theorem decryptor_auth (authdata : Data) (out : Bytes) :
    AeadArgTraits.auth (decryptor key) (opened iv run fed false) authdata out =
      .ok (opened iv run (fed ++ authdata.bytes) false, out) := by
  refine auth_eq (fun _ => rfl) (fun iv run fed xs => ?_) authdata out
  change processDecrypt key (opened iv run fed true) xs false = _
  rw [processDecrypt, process_mac]
  rfl

theorem decryptor_process (xs : Bytes) :
    (decryptor key).doProcess (opened iv run fed false) xs false =
      (ofBackend (run.feed xs)).map fun p => (opened iv p.1 (fed ++ xs) false, p.2) := by
  change processDecrypt key (opened iv run fed false) xs false = _
  rw [processDecrypt, process_mac, process_cipher]
  cases run.feed xs <;> rfl

theorem decryptor_absorbs : (decryptor key).Absorbs (Opened false) :=
  absorbs_process (fun xs _ => xs) (fun _ => rfl) rfl (fun _ _ _ _ => rfl)
    fun _ _ _ => decryptor_process key

variable (fed run) in
/-- The end of the decryption: the end of the input of the cipher, then the tag. -/
theorem decryptor_finalize (tag out : Bytes) :
    ((decryptor key).finalize { opened iv run fed false with tag } out out.length).map Prod.snd =
      (ofBackend run.finish).bind fun last =>
        if MAC.verifies key.hash tag fed then .ok (out ++ last) else .error .macFailed := by
  have hmac : MAC.process ⟨true, fed⟩ [] 0 0 = .ok ⟨true, fed⟩ := by
    rw [MAC.process_initialized (Nat.zero_le _) 0 (Or.inl rfl), List.drop_nil, List.append_nil]
  have hcipher : (Cipher.worker key.decrypts).process ⟨true, iv, run⟩ [] [] 0 0 0 true =
      (ofBackend run.finish).map fun last => (⟨true, iv, run⟩, last) := by
    rw [CipherWorker.process_last rfl]
    rfl
  have hlast : (decryptor key).doProcess ((decryptor key).close
      { opened iv run fed false with tag }) [] true =
      processDecrypt key ⟨false, ⟨true, iv, run⟩, ⟨true, fed⟩, false, tag⟩ [] true := rfl
  rw [CipherWorker.finalize_append rfl, hlast, processDecrypt]
  simp only [hmac, hcipher, bind, Except.bind, Bool.false_eq_true, if_false, if_true]
  cases run.finish with
  | none => rfl
  | some last =>
    simp only [MAC.finalizeAndVerify_initialized, ofBackend_some, Except.map]
    by_cases hv : MAC.verifies key.hash tag fed = true
    · simp only [if_pos hv]
    · simp only [if_neg hv]

theorem setTag_eq (tag : Bytes) : setTag key (opened iv run fed false) tag =
    if tag.length < key.getTagSize then .error .invalidSize
    else .ok { opened iv run fed false with tag := tag.take key.getTagSize } := by
  have hsize : key.getTagSize ≠ 0 := Nat.ne_of_gt key.getTagSize_pos
  rw [setTag, checkInContainerSize, if_neg hsize, Nat.add_zero]
  by_cases h : tag.length < key.getTagSize
  · rw [if_pos h, if_pos h]
  · rw [if_neg h, if_neg h]

/-- The buffers of a ciphertext, and the tag, behind `init` and the authenticated data. -/
theorem decrypt_finalize_eq_ok {iv fed tag p : Bytes} (data : Data) {offset : Nat}
    (hoffset : offset ≤ (data.toList.headD []).length) :
    (do
      let (s, plaintext) ← AeadArgTraits.decrypt (decryptor key)
        (opened iv (.start (key.decrypts iv)) fed false) data [] offset
      let s ← s.setTag key tag
      let (_, plaintext) ← (decryptor key).finalize s plaintext plaintext.length
      .ok plaintext : Except Error Bytes) = .ok p ↔
    key.getTagSize ≤ tag.length ∧
      MAC.verifies key.hash (tag.take key.getTagSize) (fed ++ data.bytes.drop offset) = true ∧
        (key.decrypts iv).total (data.bytes.drop offset) = some p := by
  rw [(decryptor_absorbs key).decrypt ⟨iv, _, fed, rfl⟩ data hoffset, decryptor_process,
    Codec.Run.total_eq_feed]
  cases hfeed : (Codec.Run.start (key.decrypts iv)).feed (data.bytes.drop offset) with
  | none => simp [bind, Except.bind, Except.map]
  | some q =>
    obtain ⟨run, out⟩ := q
    simp only [ofBackend_some, Except.map, bind, Except.bind, List.nil_append, setTag_eq]
    by_cases htag : tag.length < key.getTagSize
    · simp [htag, Nat.not_le.mpr htag]
    · simp only [if_neg htag]
      have hfinalize := decryptor_finalize key (fed ++ data.bytes.drop offset) run
        (tag.take key.getTagSize) out
      generalize (decryptor key).finalize _ out out.length = result at hfinalize ⊢
      refine Iff.trans (b := result.map Prod.snd = .ok p) (by cases result <;> rfl) ?_
      rw [hfinalize]
      cases hfinish : run.finish with
      | none => simp [Except.bind, hfinish]
      | some last =>
        simp only [ofBackend_some, Except.bind, Option.bind_some, hfinish, Option.map_some,
          Option.some.injEq, Nat.not_lt.mp htag, true_and]
        split
        · next hverifies => simp [hverifies]
        · next hverifies => simp [hverifies]

end

/-! ### The paths -/

variable {iv tag p : Bytes} {ciphertext authdata : Data} {pack : Pack}

/-- Decryption by the generic worker, behind `init`. -/
theorem decryptAndFinalize_eq_ok :
    (do decryptAndFinalize key (← init key iv) ciphertext authdata tag []) = .ok p ↔
      key.getTagSize ≤ tag.length ∧
        MAC.verifies key.hash (tag.take key.getTagSize)
          (initVector key.ivSize iv ++ authdata.bytes ++ ciphertext.bytes) = true ∧
          (key.decrypts (initVector key.ivSize iv)).total ciphertext.bytes = some p := by
  rw [init_eq]
  change decryptAndFinalize key _ ciphertext authdata tag [] = _ ↔ _
  rw [decryptAndFinalize, decryptor_auth]
  exact decrypt_finalize_eq_ok key ciphertext (Nat.zero_le _)

/-- The parts of a pack whose first buffer has the tag and the IV. -/
theorem extractIvAndTag_eq_ok {view : Bytes} :
    AeadArgTraits.extractIvAndTag key view = .ok (iv, tag) ↔
      key.ivSize + key.getTagSize ≤ view.length ∧
      iv = (view.drop key.getTagSize).take key.ivSize ∧ tag = view.take key.getTagSize := by
  unfold AeadArgTraits.extractIvAndTag
  split
  · next h => simp [h, eq_comm]
  · next h => simp [h]

theorem length_of_extract (h : AeadArgTraits.extractIvAndTag key pack.front = .ok (iv, tag)) :
    iv.length = key.ivSize ∧ tag.length = key.getTagSize ∧
      iv.length + tag.length ≤ (pack.data.toList.headD []).length := by
  obtain ⟨hsize, rfl, rfl⟩ := (extractIvAndTag_eq_ok key).mp h
  have hfront : pack.data.toList.headD [] = pack.front := by cases pack <;> rfl
  rw [hfront]
  simp only [List.length_take, List.length_drop]
  omega

theorem decryptPack_eq_ok (h : AeadArgTraits.extractIvAndTag key pack.front = .ok (iv, tag)) :
    decryptPack key pack authdata [] = .ok p ↔
      MAC.verifies key.hash tag
        (iv ++ authdata.bytes ++ pack.data.bytes.drop (iv.length + tag.length)) = true ∧
        (key.decrypts iv).total (pack.data.bytes.drop (iv.length + tag.length)) = some p := by
  obtain ⟨hivLength, htagLength, hoffset⟩ := length_of_extract key h
  rw [decryptPack, h]
  simp only [init_of_length key hivLength, decryptor_auth, bind, Except.bind]
  refine (decrypt_finalize_eq_ok key pack.data hoffset).trans ?_
  rw [htagLength, List.take_of_length_le (Nat.le_of_eq htagLength)]
  simp only [Nat.le_refl, true_and]

/-- The cipher alone. -/
theorem cipher_eq_ok (xs : Bytes) :
    (((Cipher.worker codec).doProcess (.start codec iv) xs false).bind fun q =>
      (Cipher.worker codec).finalize q.1 q.2 q.2.length).map Prod.snd = .ok p ↔
      (codec iv).total xs = some p := by
  rw [Codec.Run.total_eq_feed]
  change Except.map _ (Except.bind (Except.map _ (ofBackend
    ((Codec.Run.start (codec iv)).feed xs))) _) = _ ↔ _
  cases (Codec.Run.start (codec iv)).feed xs with
  | none => simp [Except.bind, Except.map]
  | some q =>
    obtain ⟨run, out⟩ := q
    change Except.map _ ((Cipher.worker codec).finalize ⟨true, iv, run⟩ out out.length) = _ ↔ _
    have hlast : (Cipher.worker codec).doProcess ((Cipher.worker codec).close ⟨true, iv, run⟩) []
        true = (ofBackend run.finish).map fun last => (⟨false, iv, run⟩, last) := rfl
    rw [CipherWorker.finalize_append rfl, hlast]
    cases hfinish : run.finish with
    | none => simp [Except.map, hfinish]
    | some last => simp [Except.map, hfinish]

theorem init_cipher_of_length (h : iv.length = key.ivSize) :
    (Cipher.init key.ivSize iv : Cipher codec) = .start codec iv := by
  rw [Cipher.init, initVector_of_length h]

theorem verifyDecryptPack_eq_ok
    (h : AeadArgTraits.extractIvAndTag key pack.front = .ok (iv, tag)) :
    verifyDecryptPack key pack authdata = .ok p ↔
      MAC.verifies key.hash tag
        (iv ++ authdata.bytes ++ pack.data.bytes.drop (iv.length + tag.length)) = true ∧
        (key.decrypts iv).total (pack.data.bytes.drop (iv.length + tag.length)) = some p := by
  obtain ⟨hivLength, htagLength, hoffset⟩ := length_of_extract key h
  have hiv : MAC.init.process iv 0 0 = .ok ⟨true, iv⟩ :=
    MAC.process_initialized (Nat.zero_le _) 0 (Or.inl rfl)
  rw [verifyDecryptPack, h]
  simp only [bind, Except.bind, hiv, MAC.processData_initialized _ (Nat.zero_le _), List.drop_zero,
    MAC.processData_initialized _ hoffset, MAC.finalizeAndVerify_initialized,
    init_cipher_of_length key hivLength]
  by_cases hv : MAC.verifies key.hash tag
    (iv ++ authdata.bytes ++ pack.data.bytes.drop (iv.length + tag.length)) = true
  · simp only [hv, if_true, true_and]
    rw [← cipher_eq_ok, (Cipher.worker_absorbs key.decrypts).decrypt rfl pack.data hoffset]
    cases (Cipher.worker key.decrypts).doProcess (.start key.decrypts iv)
      (pack.data.bytes.drop (iv.length + tag.length)) false with
    | error e => rfl
    | ok q => simp only [Except.map, Except.bind, List.nil_append]
  · simp only [hv, Bool.false_eq_true, if_false, false_and, reduceCtorEq]

/-- What the cipher makes of a whole ciphertext: nothing is done with a single empty buffer. -/
def deciphered (iv : Bytes) : Data → Option Bytes
  | .buffer [] => some []
  | data => (key.decrypts iv).total data.bytes

theorem processAndFinalize_eq_ok :
    ((Cipher.worker key.decrypts).processAndFinalize (.start key.decrypts iv) ciphertext).map
      Prod.snd = .ok p ↔ deciphered key iv ciphertext = some p := by
  by_cases hdata : ciphertext = .buffer []
  · subst hdata
    simp [CipherWorker.processAndFinalize, deciphered, Except.map]
  · have hdeciphered : deciphered key iv ciphertext =
        (key.decrypts iv).total ciphertext.bytes := by
      unfold deciphered
      split
      · exact absurd rfl hdata
      · rfl
    rw [(Cipher.worker_absorbs key.decrypts).processAndFinalize rfl hdata, cipher_eq_ok,
      hdeciphered]

theorem verifyDecrypt_eq_ok :
    verifyDecrypt key iv ciphertext authdata tag = .ok p ↔
      MAC.verifies key.hash tag (iv ++ authdata.bytes ++ ciphertext.bytes) = true ∧
        deciphered key (initVector key.ivSize iv) ciphertext = some p := by
  rw [verifyDecrypt, MAC.runVerify, MAC.init]
  simp only [bind, Except.bind, MAC.processBuffers_initialized, MAC.finalizeAndVerify_initialized,
    List.cons_append, List.flatten_cons, List.flatten_append, List.nil_append, Cipher.init]
  rw [← List.append_assoc]
  have hbytes : ∀ data : Data, data.toList.flatten = data.bytes := fun _ => rfl
  simp only [hbytes]
  by_cases hv : MAC.verifies key.hash tag (iv ++ authdata.bytes ++ ciphertext.bytes) = true
  · simp only [hv, if_true, true_and]
    rw [← processAndFinalize_eq_ok]
    cases (Cipher.worker key.decrypts).processAndFinalize
      (.start key.decrypts (initVector key.ivSize iv)) ciphertext <;> rfl
  · simp only [hv, Bool.false_eq_true, if_false, false_and, reduceCtorEq]

end EncryptMAC

end Hatn.Crypt
