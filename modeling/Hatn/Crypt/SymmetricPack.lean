import Hatn.Crypt.EncryptMacPaths
import Hatn.Order.Folds

/-!
# Packs of a symmetric cipher

`SEncryptor::runPack` puts an IV and the ciphertext of a window of its input behind an offset in
the output, and `SDecryptor::runPack` takes them from a window of one buffer, or from several
buffers.  Sizes of zero stand for all that is left, and an empty window makes no pack
(`runPack_empty`).

The output buffer is kept as it is here, with the bytes behind the size that `process` returns.
-/

namespace Hatn.Crypt

/-- A `SymmetricWorker`, with what is left to the backend.  The algorithm that does nothing has no
IV, and `process` and `finalize` copy its input. -/
structure SymmetricWorker (σ : Type) extends CipherWorker σ where
  isNone : Bool
  ivSize : Nat
  doInit : (iv : Bytes) → Except Error σ
  none_ivSize : isNone = true → ivSize = 0
  none_process : isNone = true → ∀ s xs, toCipherWorker.doProcess s xs false = .ok (s, xs)
  none_finalize : isNone = true → ∀ s, toCipherWorker.doProcess s [] true = .ok (s, [])

namespace SymmetricWorker

variable {σ τ : Type} (w : SymmetricWorker σ)

/-- `init` -/
def init (iv : Bytes) : Except Error σ := w.doInit (initVector w.ivSize iv)

/-- `process` that is not for the last block: the output buffer, and the size that is returned.  The
buffer keeps what it has behind that size if nothing is processed, or if bytes are only copied. -/
def process (s : σ) (dataIn dataOut : Bytes) (sizeIn offsetIn offsetOut : Nat) :
    Except Error (σ × Bytes × Nat) :=
  if !w.initialized s then .error .invalidCipherState
  else
    match checkInContainerSize dataIn.length offsetIn sizeIn with
    | none => .error .invalidSize
    | some sizeIn =>
      if dataOut.length < offsetOut then .error .invalidSize
      else if sizeIn = 0 then .ok (s, dataOut, offsetOut)
      else
        match w.doProcess s ((dataIn.drop offsetIn).take sizeIn) false with
        | .error e => .error e
        | .ok (s, out) =>
          let sizeOut := offsetOut + out.length
          .ok (s, dataOut.take offsetOut ++ out ++ (if w.isNone then dataOut.drop sizeOut else []),
            sizeOut)

/-- `processAndFinalize` of a window of one buffer. -/
def processAndFinalize (s : σ) (dataIn dataOut : Bytes) (offsetIn sizeIn offsetOut : Nat) :
    Except Error Bytes :=
  match checkInContainerSize dataIn.length offsetIn sizeIn with
  | none => .error .invalidSize
  | some sizeIn =>
    if dataOut.length < offsetOut then .error .invalidSize
    else if sizeIn = 0 then .ok (dataOut.take offsetOut)
    else do
      let (s, dataOut, size) ← w.process s dataIn dataOut sizeIn offsetIn offsetOut
      let (_, dataOut) ← w.finalize s dataOut size
      return dataOut

/-- `generateIV` behind an offset: the buffer is only made longer. -/
def generateIV (buf : Bytes) (offset : Nat) (generated : Nat → UInt8) : Bytes :=
  if w.ivSize = 0 then buf
  else buf.take offset ++ (List.range w.ivSize).map generated ++ buf.drop (offset + w.ivSize)

/-- `SymmetricWorkerTraits<true>::runPack` -/
def encryptPack (dataIn dataOut : Bytes) (offsetIn sizeIn offsetOut : Nat)
    (generated : Nat → UInt8) : Except Error Bytes := do
  let dataOut := w.generateIV dataOut offsetOut generated
  let s ← w.init (dataOut.drop offsetOut)
  w.processAndFinalize s dataIn dataOut offsetIn sizeIn dataOut.length

/-- `SymmetricWorkerTraits<false>::runPack` of one buffer. -/
def decryptPack (dataIn dataOut : Bytes) (offsetIn sizeIn offsetOut : Nat) :
    Except Error Bytes :=
  if w.ivSize + offsetIn > sizeIn then .error .decryptionFailed
  else do
    let s ← w.init ((dataIn.drop offsetIn).take w.ivSize)
    w.processAndFinalize s dataIn dataOut (offsetIn + w.ivSize) (sizeIn - w.ivSize) offsetOut

/-- `runPack` of several buffers.  The size and the offset of the first call of `process` are in the
place of one another. -/
def decryptPacks (dataIn : List Bytes) (dataOut : Bytes) (offsetOut : Nat)
    (memory : Nat → UInt8) : Except Error Bytes :=
  match dataIn with
  | [] => .ok (resize dataOut offsetOut memory)
  | view :: views =>
    if w.ivSize > view.length then .error .decryptionFailed
    else do
      let s ← w.init (view.take w.ivSize)
      let (s, dataOut, _) ←
        w.process s view dataOut w.ivSize (view.length - w.ivSize) offsetOut
      let (s, dataOut) ← w.processAll s views dataOut
      let (_, dataOut) ← w.finalize s dataOut dataOut.length
      return dataOut

/-- `runPack` of a window of one buffer: with the checks of `SymmetricWorker`. -/
def runPack (pack : (dataIn dataOut : Bytes) → (offsetIn sizeIn offsetOut : Nat) →
    Except Error Bytes) (dataIn dataOut : Bytes) (offsetIn sizeIn offsetOut : Nat) :
    Except Error Bytes :=
  match checkInContainerSize dataIn.length offsetIn sizeIn with
  | none => .error .invalidSize
  | some sizeIn =>
    if dataOut.length < offsetOut then .error .invalidSize
    else if sizeIn = 0 then .ok (dataOut.take offsetOut)
    else pack dataIn dataOut offsetIn sizeIn offsetOut

/-- `SEncryptor::runPack` -/
def encrypt (dataIn dataOut : Bytes) (offsetIn sizeIn offsetOut : Nat)
    (generated : Nat → UInt8) : Except Error Bytes :=
  runPack (fun dataIn dataOut offsetIn sizeIn offsetOut =>
    w.encryptPack dataIn dataOut offsetIn sizeIn offsetOut generated)
    dataIn dataOut offsetIn sizeIn offsetOut

/-- `SDecryptor::runPack` -/
def decrypt (dataIn dataOut : Bytes) (offsetIn sizeIn offsetOut : Nat) : Except Error Bytes :=
  runPack w.decryptPack dataIn dataOut offsetIn sizeIn offsetOut

/-! ### A cipher of the backend -/

/-- All text is processed at once. -/
def atOnce (iv text : Bytes) : Except Error Bytes := do
  let s ← w.doInit iv
  let (s, out) ← w.doProcess s text false
  let (_, last) ← w.doProcess (w.close s) [] true
  return out ++ last

/-- How a worker goes on does not depend on how its input is cut. -/
structure Streams (P : σ → Prop) : Prop where
  opened : ∀ {iv s}, w.doInit iv = .ok s → P s
  processes : w.Absorbs P

/-- A correct cipher: what is encrypted at once with an IV of the size of an IV is decrypted at
once, and it is as long as the text, with some padding. -/
structure Correct (e : SymmetricWorker σ) (d : SymmetricWorker τ) (maxPadding : Nat) : Prop where
  encrypts : ∃ P, e.Streams P
  decrypts : ∃ P, d.Streams P
  ivSize : d.ivSize = e.ivSize
  inverse : ∀ iv plaintext, iv.length = e.ivSize → ∃ ciphertext,
    e.atOnce iv plaintext = .ok ciphertext ∧ plaintext.length ≤ ciphertext.length ∧
    ciphertext.length ≤ plaintext.length + maxPadding ∧ d.atOnce iv ciphertext = .ok plaintext

/-! ### What packs are for -/

/-- The part of a buffer that an offset and a size stand for. -/
def window (dataIn : Bytes) (offsetIn sizeIn : Nat) : Option Bytes :=
  (checkInContainerSize dataIn.length offsetIn sizeIn).map (dataIn.drop offsetIn).take

/-- The pack of a text behind the first bytes of the output: the IV, and the ciphertext. -/
def Appends (e : SymmetricWorker σ) (dataIn out : Bytes) (offsetIn sizeIn offsetOut : Nat)
    (generated : Nat → UInt8) (ciphertext : Bytes) : Prop :=
  e.encrypt dataIn out offsetIn sizeIn offsetOut generated =
    .ok (out.take offsetOut ++ ((List.range e.ivSize).map generated ++ ciphertext))

/-- A pack in one buffer gives the text, where its offset is not larger than the ciphertext. -/
def OpensWindow (d : SymmetricWorker τ) (iv ciphertext text : Bytes) : Prop :=
  ∀ (before after out : Bytes) (sizeIn offsetOut : Nat), before.length ≤ ciphertext.length →
    sizeIn = (iv ++ ciphertext).length ∨ sizeIn = 0 ∧ after = [] → offsetOut ≤ out.length →
    d.decrypt (before ++ (iv ++ ciphertext) ++ after) out before.length sizeIn offsetOut =
      .ok (out.take offsetOut ++ text)

/-- A pack in several buffers gives the text, where the first one has the IV and as many bytes
more. -/
def OpensBuffers (d : SymmetricWorker τ) (iv ciphertext text : Bytes) : Prop :=
  ∀ (first : Bytes) (rest : List Bytes) (out : Bytes) (offsetOut : Nat) (memory : Nat → UInt8),
    0 < d.ivSize → first.length = d.ivSize + d.ivSize →
    (first :: rest).flatten = iv ++ ciphertext → offsetOut ≤ out.length →
    d.decryptPacks (first :: rest) out offsetOut memory = .ok (out.take offsetOut ++ text)

/-- **The round trip**: an empty window makes no pack; one that is not empty does, and it gives the
window. -/
def RoundTrips (e : SymmetricWorker σ) (d : SymmetricWorker τ) (dataIn out : Bytes)
    (offsetIn sizeIn offsetOut : Nat) (generated : Nat → UInt8) (text : Bytes) : Prop :=
  if text = [] then
    e.encrypt dataIn out offsetIn sizeIn offsetOut generated = .ok (out.take offsetOut)
  else out.length ≤ offsetOut + e.ivSize → ∃ ciphertext,
    e.Appends dataIn out offsetIn sizeIn offsetOut generated ciphertext ∧
    d.OpensWindow ((List.range e.ivSize).map generated) ciphertext text ∧
    d.OpensBuffers ((List.range e.ivSize).map generated) ciphertext text

/-! ### A window of one buffer -/

variable {w} {P : σ → Prop} {s s' t : σ} {dataIn dataOut iv text out r : Bytes}
  {offsetIn sizeIn offsetOut n : Nat}

/-- What the worker does where it gets all at once. -/
theorem atOnce_eq_ok (h : w.atOnce iv text = .ok r) :
    ∃ s t out u last, w.doInit iv = .ok s ∧ w.doProcess s text false = .ok (t, out) ∧
      w.doProcess (w.close t) [] true = .ok (u, last) ∧ r = out ++ last := by
  obtain ⟨s, hinit, h⟩ := Order.bind_eq_ok h
  obtain ⟨⟨t, out⟩, hprocess, h⟩ := Order.bind_eq_ok h
  obtain ⟨⟨u, last⟩, hlast, h⟩ := Order.bind_eq_ok h
  exact ⟨s, t, out, u, last, hinit, hprocess, hlast, (Except.ok.inj h).symm⟩

theorem checkInContainerSize_again {containerSize offset size : Nat}
    (h : checkInContainerSize containerSize offset size = some n) (hn : n ≠ 0) :
    checkInContainerSize containerSize offset n = some n := by
  rw [checkInContainerSize] at h
  rw [checkInContainerSize, if_neg hn]
  split at h
  · split at h
    · cases h
    · obtain rfl := Option.some.inj h
      rw [if_neg (by omega)]
  · split at h
    · cases h
    · obtain rfl := Option.some.inj h
      rw [if_neg (by assumption)]

theorem process_eq_ok (hs : w.initialized s = true)
    (hcheck : checkInContainerSize dataIn.length offsetIn sizeIn = some n) (hn : n ≠ 0)
    (hout : offsetOut ≤ dataOut.length)
    (hprocess : w.doProcess s ((dataIn.drop offsetIn).take n) false = .ok (t, out)) :
    w.process s dataIn dataOut sizeIn offsetIn offsetOut =
      .ok (t, dataOut.take offsetOut ++ out ++
        (if w.isNone then dataOut.drop (offsetOut + out.length) else []),
        offsetOut + out.length) := by
  rw [process, hs, hcheck]
  simp only [Bool.not_true, Bool.false_eq_true, if_false, if_neg (Nat.not_lt.mpr hout), if_neg hn,
    hprocess]

theorem length_window
    (hcheck : checkInContainerSize dataIn.length offsetIn sizeIn = some n) :
    ((dataIn.drop offsetIn).take n).length = n := by
  rw [List.length_take, List.length_drop]
  rw [checkInContainerSize] at hcheck
  split at hcheck <;> split at hcheck <;> cases hcheck <;> omega

/-- What the worker does at once, it does for a window behind an offset. -/
theorem Streams.processAndFinalize (h : w.Streams P) (hinit : w.doInit iv = .ok s)
    (hcheck : checkInContainerSize dataIn.length offsetIn sizeIn = some n) (hn : n ≠ 0)
    (hout : offsetOut ≤ dataOut.length)
    (hrun : w.atOnce iv ((dataIn.drop offsetIn).take n) = .ok r) :
    w.processAndFinalize s dataIn dataOut offsetIn sizeIn offsetOut =
      .ok (dataOut.take offsetOut ++ r) := by
  obtain ⟨s₀, t, out, u, last, hs₀, hprocess, hlast, rfl⟩ := atOnce_eq_ok hrun
  obtain rfl := Except.ok.inj (hinit.symm.trans hs₀)
  have hopened := h.opened hinit
  have hlength : offsetOut + out.length = (dataOut.take offsetOut ++ out).length := by
    rw [List.length_append, List.length_take, Nat.min_eq_left hout]
  have hfinal : w.finalize t (dataOut.take offsetOut ++ out ++
      (if w.isNone then dataOut.drop (offsetOut + out.length) else []))
      (offsetOut + out.length) = .ok (u, dataOut.take offsetOut ++ (out ++ last)) := by
    rw [CipherWorker.finalize, h.processes.initialized (h.processes.keeps hopened hprocess), hlast,
      hlength, List.take_left]
    exact congrArg (fun buf => Except.ok (u, buf)) (List.append_assoc ..)
  rw [SymmetricWorker.processAndFinalize, hcheck]
  simp only [if_neg (Nat.not_lt.mpr hout), if_neg hn]
  rw [process_eq_ok (h.processes.initialized hopened) (checkInContainerSize_again hcheck hn) hn hout
    hprocess]
  simp only [bind, Except.bind, hfinal]
  rfl

theorem runPack_eq {pack : Bytes → Bytes → Nat → Nat → Nat → Except Error Bytes}
    (hcheck : checkInContainerSize dataIn.length offsetIn sizeIn = some n) (hn : n ≠ 0)
    (hout : offsetOut ≤ dataOut.length) :
    runPack pack dataIn dataOut offsetIn sizeIn offsetOut =
      pack dataIn dataOut offsetIn n offsetOut := by
  rw [runPack, hcheck]
  simp only [if_neg (Nat.not_lt.mpr hout), if_neg hn]

/-- An empty window makes no pack. -/
theorem runPack_empty {pack : Bytes → Bytes → Nat → Nat → Nat → Except Error Bytes}
    (hcheck : checkInContainerSize dataIn.length offsetIn sizeIn = some 0)
    (hout : offsetOut ≤ dataOut.length) :
    runPack pack dataIn dataOut offsetIn sizeIn offsetOut = .ok (dataOut.take offsetOut) := by
  rw [runPack, hcheck]
  simp only [if_neg (Nat.not_lt.mpr hout), if_true]

/-- The IV comes behind the offset in an output that has no more. -/
theorem generateIV_eq (generated : Nat → UInt8) (hle : dataOut.length ≤ offsetOut + w.ivSize) :
    w.generateIV dataOut offsetOut generated =
      dataOut.take offsetOut ++ (List.range w.ivSize).map generated := by
  rw [generateIV]
  split
  next hzero =>
    rw [hzero, List.range_zero, List.map_nil, List.append_nil, List.take_of_length_le (by omega)]
  next =>
    rw [List.drop_of_length_le hle, List.append_nil]

theorem init_of_length (h : iv.length = w.ivSize) : w.init iv = w.doInit iv := by
  rw [init, EncryptMAC.initVector_of_length h]

theorem doInit_of_atOnce (h : w.atOnce iv text = .ok r) : ∃ s, w.doInit iv = .ok s := by
  obtain ⟨s, -, -, -, -, hinit, -⟩ := atOnce_eq_ok h
  exact ⟨s, hinit⟩

/-! ### Packs -/

theorem Streams.appends (h : w.Streams P) {generated : Nat → UInt8} {ciphertext : Bytes}
    (hcheck : checkInContainerSize dataIn.length offsetIn sizeIn = some n) (hn : n ≠ 0)
    (hout : offsetOut ≤ dataOut.length) (hle : dataOut.length ≤ offsetOut + w.ivSize)
    (hrun : w.atOnce ((List.range w.ivSize).map generated) ((dataIn.drop offsetIn).take n) =
      .ok ciphertext) :
    w.Appends dataIn dataOut offsetIn sizeIn offsetOut generated ciphertext := by
  obtain ⟨s, hinit⟩ := doInit_of_atOnce hrun
  have hiv : ((List.range w.ivSize).map generated).length = w.ivSize := by
    rw [List.length_map, List.length_range]
  have hdrop : (dataOut.take offsetOut ++ (List.range w.ivSize).map generated).drop offsetOut =
      (List.range w.ivSize).map generated := List.drop_left' (List.length_take_of_le hout)
  rw [Appends, encrypt, runPack_eq hcheck hn hout, encryptPack, generateIV_eq generated hle]
  rw [hdrop, init_of_length hiv, hinit]
  refine (h.processAndFinalize hinit (checkInContainerSize_again hcheck hn) hn (Nat.le_refl _)
    hrun).trans ?_
  rw [List.take_length, List.append_assoc]

theorem Streams.opensWindow (h : w.Streams P) {ciphertext : Bytes} (hiv : iv.length = w.ivSize)
    (hpos : 0 < ciphertext.length) (hrun : w.atOnce iv ciphertext = .ok text) :
    w.OpensWindow iv ciphertext text := by
  intro before after out sizeIn offsetOut hbefore hsize hout
  obtain ⟨s, hinit⟩ := doInit_of_atOnce hrun
  have hlength : (before ++ (iv ++ ciphertext) ++ after).length =
      before.length + (w.ivSize + ciphertext.length) + after.length := by
    simp only [List.length_append, hiv]
  have hcheck : checkInContainerSize (before ++ (iv ++ ciphertext) ++ after).length before.length
      sizeIn = some (w.ivSize + ciphertext.length) := by
    rw [checkInContainerSize, hlength]
    obtain hsize | ⟨rfl, rfl⟩ := hsize
    · rw [List.length_append, hiv] at hsize
      rw [if_neg (by omega), if_neg (by omega), hsize]
    · rw [if_pos rfl, List.length_nil, if_neg (by omega), Nat.add_zero, Nat.add_sub_cancel_left]
  have hdrop : (before ++ (iv ++ ciphertext) ++ after).drop before.length =
      iv ++ (ciphertext ++ after) := by
    rw [List.append_assoc, List.drop_left, List.append_assoc]
  have htake : ((before ++ (iv ++ ciphertext) ++ after).drop before.length).take w.ivSize = iv := by
    rw [hdrop, ← hiv, List.take_left]
  have hrest : checkInContainerSize (before ++ (iv ++ ciphertext) ++ after).length
      (before.length + w.ivSize) ciphertext.length = some ciphertext.length := by
    rw [checkInContainerSize, hlength, if_neg (by omega), if_neg (by omega)]
  have htext : ((before ++ (iv ++ ciphertext) ++ after).drop (before.length + w.ivSize)).take
      ciphertext.length = ciphertext := by
    rw [← List.drop_drop, hdrop, ← hiv, List.drop_left, List.take_left]
  rw [decrypt, runPack_eq hcheck (by omega) hout, decryptPack, if_neg (by omega), htake,
    init_of_length hiv, hinit, Nat.add_sub_cancel_left]
  exact h.processAndFinalize hinit hrest (by omega) hout (by rwa [htext])

theorem Streams.opensBuffers (h : w.Streams P) {ciphertext : Bytes} (hiv : iv.length = w.ivSize)
    (hrun : w.atOnce iv ciphertext = .ok text) : w.OpensBuffers iv ciphertext text := by
  intro first rest out offsetOut memory hpos hfirst hbytes hout
  obtain ⟨s, u, p, v, last, hinit, hprocess, hlast, rfl⟩ := atOnce_eq_ok hrun
  rw [List.flatten_cons] at hbytes
  -- the offset of the first call is the rest behind the IV, and so is its size
  have htake : first.take w.ivSize = iv := by
    have hfront : (first ++ rest.flatten).take w.ivSize = first.take w.ivSize :=
      List.take_append_of_le_length (by omega)
    rw [← hfront, hbytes, ← hiv, List.take_left]
  have hdrop : first.drop w.ivSize ++ rest.flatten = ciphertext := by
    rw [← List.drop_append_of_le_length (by omega), hbytes, ← hiv, List.drop_left]
  have hopened := h.opened hinit
  rw [← hdrop] at hprocess
  obtain ⟨t, a, b, hhead, htail, rfl⟩ := h.processes.split hopened hprocess
  have hkept := h.processes.keeps hopened hhead
  have hsome : ¬w.isNone := fun hnone => by
    have := w.none_ivSize hnone
    omega
  have hcheck : checkInContainerSize first.length w.ivSize w.ivSize = some w.ivSize := by
    rw [checkInContainerSize, if_neg (by omega), if_neg (by omega)]
  have hwindow : (first.drop w.ivSize).take w.ivSize = first.drop w.ivSize :=
    List.take_of_length_le (by rw [List.length_drop]; omega)
  have hcall := process_eq_ok (h.processes.initialized hopened) hcheck (by omega) hout
    (by rw [hwindow]; exact hhead)
  rw [if_neg hsome, List.append_nil] at hcall
  rw [decryptPacks, if_neg (by omega), htake, init_of_length hiv, hinit,
    show first.length - w.ivSize = w.ivSize by omega]
  simp only [bind, Except.bind, hcall]
  rw [h.processes.processAll rest hkept, htail]
  simp only [Except.map]
  rw [CipherWorker.finalize_append (h.processes.initialized (h.processes.keeps hkept htail)), hlast]
  simp only [List.append_assoc]
  rfl

/-- **Packs make a round trip**, for a correct cipher. -/
theorem round_trips {e : SymmetricWorker σ} {d : SymmetricWorker τ} {maxPadding : Nat}
    (h : Correct e d maxPadding) (dataIn out : Bytes) (offsetIn sizeIn offsetOut : Nat)
    (generated : Nat → UInt8) {text : Bytes} (hwindow : window dataIn offsetIn sizeIn = some text)
    (hout : offsetOut ≤ out.length) :
    RoundTrips e d dataIn out offsetIn sizeIn offsetOut generated text := by
  obtain ⟨n, hcheck, rfl⟩ := Option.map_eq_some_iff.mp hwindow
  have hlength : ((dataIn.drop offsetIn).take n).length = n := length_window hcheck
  unfold RoundTrips
  split
  next hempty =>
    rw [hempty, List.length_nil] at hlength
    exact runPack_empty (hlength ▸ hcheck) hout
  next hne =>
    intro hle
    have hn : n ≠ 0 := fun hn => hne (List.length_eq_zero_iff.mp (hlength.trans hn))
    obtain ⟨P, hencrypts⟩ := h.encrypts
    obtain ⟨Q, hdecrypts⟩ := h.decrypts
    have hiv : ((List.range e.ivSize).map generated).length = e.ivSize := by
      rw [List.length_map, List.length_range]
    obtain ⟨ciphertext, hencrypt, hmin, -, hdecrypt⟩ :=
      h.inverse _ ((dataIn.drop offsetIn).take n) hiv
    exact ⟨ciphertext, hencrypts.appends hcheck hn hout hle hencrypt,
      hdecrypts.opensWindow (hiv.trans h.ivSize.symm) (by omega) hdecrypt,
      hdecrypts.opensBuffers (hiv.trans h.ivSize.symm) hdecrypt⟩

end SymmetricWorker

/-! ### A cipher for samples -/

/-- A cipher that leaves the text as it is; the state is whether there was an IV. -/
def plainWorker : SymmetricWorker Bool where
  initialized s := s
  close _ := false
  doProcess s bufIn _ := .ok (s, bufIn)
  isNone := false
  ivSize := 2
  doInit _ := .ok true
  none_ivSize h := nomatch h
  none_process h := nomatch h
  none_finalize h := nomatch h

theorem plainWorker_streams : plainWorker.Streams (· = true) where
  opened h := (Except.ok.inj h).symm
  processes := {
    initialized := id
    nil := fun _ => rfl
    keeps := by
      rintro s t xs out hs h
      obtain ⟨rfl, rfl⟩ := Prod.mk.inj (Except.ok.inj h)
      exact hs
    append := by
      rintro s t xs out hs h ys
      obtain ⟨rfl, rfl⟩ := Prod.mk.inj (Except.ok.inj h)
      rfl
    error := by
      rintro s xs e hs h
      cases h }

namespace SymmetricWorker

theorem plainWorker_correct : Correct plainWorker plainWorker 0 where
  encrypts := ⟨_, plainWorker_streams⟩
  decrypts := ⟨_, plainWorker_streams⟩
  ivSize := rfl
  inverse iv plaintext _ := by
    have hplain : plainWorker.atOnce iv plaintext = .ok plaintext :=
      congrArg Except.ok (List.append_nil plaintext)
    exact ⟨plaintext, hplain, Nat.le_refl _, Nat.le_refl _, hplain⟩

theorem round_trips_sample : RoundTrips plainWorker plainWorker [1, 2, 3] [4] 1 2 1 (fun _ => 0)
    [2, 3] :=
  round_trips plainWorker_correct [1, 2, 3] [4] 1 2 1 (fun _ => 0) rfl (by decide)

/-- An empty plaintext makes no pack: there is no IV in the output. -/
theorem empty_without_pack : Correct plainWorker plainWorker 0 ∧ window [] 0 0 = some [] ∧
    ¬∃ ciphertext, plainWorker.Appends [] [4] 0 0 1 (fun _ => 0) ciphertext := by
  refine ⟨plainWorker_correct, rfl, ?_⟩
  rintro ⟨ciphertext, hpack⟩
  cases hpack

end SymmetricWorker

end Hatn.Crypt
