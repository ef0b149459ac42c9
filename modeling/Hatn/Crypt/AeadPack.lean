import Hatn.Crypt.EncryptMacPaths
import Hatn.Order.Folds

/-!
# Packs of an AEAD cipher

`encryptPack` puts the tag and the IV in front of the ciphertext, behind an offset in the output
buffer.  The places of both are computed from the sizes that the cipher has, and the given IV is
copied as it is: one that is longer is written over the end of the buffer (`packs_iff`).

The worker of the backend is a parameter.  What it does for a whole input is compared with what
the template does, which hands it over in pieces.
-/

namespace Hatn.Crypt

/-- What ends a call: an error, or a write outside of a buffer. -/
inductive Fault
  | outside
  | error (e : Error)
  deriving DecidableEq

/-- The result of a worker. -/
def ofWorker {α : Type} (r : Except Error α) : Except Fault α := r.mapError .error

/-- Bytes are written to a buffer. -/
def put (buf : Bytes) (offset : Nat) (bytes : Bytes) : Except Fault Bytes :=
  if offset + bytes.length ≤ buf.length then
    .ok (buf.take offset ++ bytes ++ buf.drop (offset + bytes.length))
  else .error .outside

/-- An `AeadWorker`, with what is left to the backend. -/
structure AeadWorker (σ : Type) extends CipherWorker σ where
  ivSize : Nat
  tagSize : Nat
  doInit : (iv : Bytes) → Except Error σ
  beginNotEncrypted : σ → σ
  endNotEncrypted : σ → σ
  doSetTag : σ → (tag : Bytes) → Except Error σ
  doGetTag : σ → Except Error Bytes

/-- The IV that is given to `encryptPack`: an empty buffer, one with a span outside of it, or one
with a view. -/
inductive IvArg
  | empty
  | invalid
  | view (b : Bytes)

namespace AeadWorker

variable {σ τ : Type} (w : AeadWorker σ)

/-- `init` -/
def init (iv : Bytes) : Except Error σ := w.doInit (initVector w.ivSize iv)

/-- `setTag` -/
def setTag (s : σ) (buf : Bytes) : Except Error σ :=
  match checkInContainerSize buf.length 0 w.tagSize with
  | none => .error .invalidSize
  | some _ => w.doSetTag s (buf.take w.tagSize)

/-- `getTag` -/
def getTag (s : σ) (tag : Bytes) (offset : Nat) (memory : Nat → UInt8) : Except Fault Bytes := do
  let tag :=
    if tag.length < offset + w.tagSize then resize tag (offset + w.tagSize) memory else tag
  put tag offset (← ofWorker (w.doGetTag s))

/-- `auth` -/
def auth (s : σ) (authdata : Data) (out : Bytes) : Except Error (σ × Bytes) :=
  match authdata with
  | .buffer [] | .buffers [] => .ok (s, out)
  | .buffer b => do
    let (s, out) ← w.process (w.beginNotEncrypted s) b out 0 0 out.length false
    return (w.endNotEncrypted s, out)
  | .buffers bs => do
    let (s, out) ← w.processAll (w.beginNotEncrypted s) bs out
    return (w.endNotEncrypted s, out)

/-- `extractIvAndTag` from the first buffer of a pack. -/
def extractIvAndTag (view : Bytes) : Except Error (Bytes × Bytes) :=
  if w.ivSize + w.tagSize ≤ view.length then
    .ok ((view.drop w.tagSize).take w.ivSize, view.take w.tagSize)
  else .error .decryptionFailed

/-- The IV in `encryptPack`; one of the backend is generated for an empty buffer. -/
def writeIv (ciphertext : Bytes) (ivOffset : Nat) (generated : Nat → UInt8) :
    IvArg → Except Fault Bytes
  | .empty => put ciphertext ivOffset ((List.range w.ivSize).map generated)
  | .invalid => .error (.error .invalidSize)
  | .view b => put ciphertext ivOffset b

/-- `encryptPack` -/
def encryptPack (plaintext authdata : Data) (ciphertext : Bytes) (iv : IvArg) (offsetOut : Nat)
    (generated memory : Nat → UInt8) : Except Fault Bytes := do
  let ivOffset := w.tagSize + offsetOut
  let ciphertext := resize ciphertext (ivOffset + w.ivSize) memory
  -- `fill(0,offsetOut)`
  let ciphertext := ciphertext.take offsetOut ++ List.replicate (w.tagSize + w.ivSize) 0
  let ciphertext ← w.writeIv ciphertext ivOffset generated iv
  let ivBuf := (ciphertext.drop ivOffset).take w.ivSize
  let s ← ofWorker (w.init ivBuf)
  let (s, ciphertext) ← ofWorker (w.auth s authdata ciphertext)
  let (s, ciphertext) ←
    ofWorker (AeadArgTraits.encrypt w.toCipherWorker s plaintext ciphertext)
  let (s, ciphertext) ← ofWorker (w.finalize s ciphertext ciphertext.length)
  w.getTag s ciphertext offsetOut memory

/-- `decryptPack` -/
def decryptPack (ciphertext : Pack) (authdata : Data) (plaintext : Bytes) :
    Except Error Bytes := do
  let (iv, tag) ← w.extractIvAndTag ciphertext.front
  let s ← w.init iv
  let (s, plaintext) ← w.auth s authdata plaintext
  let (s, plaintext) ← AeadArgTraits.decrypt w.toCipherWorker s ciphertext.data plaintext
    (iv.length + tag.length)
  let s ← w.setTag s tag
  let (_, plaintext) ← w.finalize s plaintext plaintext.length
  return plaintext

/-! ### A cipher of the backend -/

/-- All data is authenticated at once, and all text is processed at once. -/
def atOnce (prepare : σ → Except Error σ) (iv authdata text : Bytes) :
    Except Error (σ × Bytes) := do
  let s ← w.doInit iv
  let (s, _) ← w.doProcess (w.beginNotEncrypted s) authdata false
  let (s, out) ← w.doProcess (w.endNotEncrypted s) text false
  let s ← prepare s
  let (s, last) ← w.doProcess (w.close s) [] true
  return (s, out ++ last)

/-- The ciphertext, and the tag. -/
def encryptAtOnce (iv authdata plaintext : Bytes) : Except Error (Bytes × Bytes) := do
  let (s, ciphertext) ← w.atOnce .ok iv authdata plaintext
  return (ciphertext, ← w.doGetTag s)

def decryptAtOnce (iv authdata ciphertext tag : Bytes) : Except Error Bytes := do
  let (_, plaintext) ← w.atOnce (w.doSetTag · tag) iv authdata ciphertext
  return plaintext

/-- How a worker goes on does not depend on how its input is cut.  Its states are those after
`init` (`O`), those where data is authenticated (`A`), which gives no output, and those where text
is processed (`P`). -/
structure Streams (O A P : σ → Prop) : Prop where
  opened : ∀ {iv s}, w.doInit iv = .ok s → O s
  resumes : ∀ {s}, O s → w.endNotEncrypted (w.beginNotEncrypted s) = s
  begins : ∀ {s}, O s → A (w.beginNotEncrypted s)
  ends : ∀ {s}, A s → P (w.endNotEncrypted s)
  authenticates : w.Absorbs A
  silent : ∀ {s t xs out}, A s → w.doProcess s xs false = .ok (t, out) → out = []
  processes : w.Absorbs P
  keeps : ∀ {s t tag}, P s → w.doSetTag s tag = .ok t → P t

def IsStream : Prop := ∃ O A P, w.Streams O A P

/-- A correct cipher: tags have their size, and what is encrypted at once with an IV of the size of
an IV is decrypted at once. -/
structure Correct (e : AeadWorker σ) (d : AeadWorker τ) : Prop where
  encrypts : e.IsStream
  decrypts : d.IsStream
  ivSize : d.ivSize = e.ivSize
  tagSize : d.tagSize = e.tagSize
  inverse : ∀ iv authdata plaintext, iv.length = e.ivSize →
    ∃ ciphertext tag, e.encryptAtOnce iv authdata plaintext = .ok (ciphertext, tag) ∧
      tag.length = e.tagSize ∧ d.decryptAtOnce iv authdata ciphertext tag = .ok plaintext

/-! ### What packs are for -/

/-- The IV of a pack: one that is too short is filled with zeros. -/
def ivOf (generated : Nat → UInt8) : IvArg → Bytes
  | .empty => (List.range w.ivSize).map generated
  | .invalid => []
  | .view b => (b ++ List.replicate (w.ivSize - b.length) 0).take w.ivSize

/-- The IV is one that the cipher has a place for. -/
def Fits : IvArg → Prop
  | .empty => True
  | .invalid => False
  | .view b => b.length ≤ w.ivSize

/-- The pack is put behind the first bytes of the output, within the buffer; it has the tag, the
IV and the ciphertext of all plaintext and data, and it is decrypted to all plaintext, in
whatever buffers it comes. -/
def Packs (e : AeadWorker σ) (d : AeadWorker τ) (plaintext authdata : Data) (out : Bytes)
    (iv : IvArg) (offsetOut : Nat) (generated memory : Nat → UInt8) : Prop :=
  ∃ first ciphertext tag, first.length = offsetOut ∧ out.take offsetOut <+: first ∧
    e.encryptAtOnce (e.ivOf generated iv) authdata.bytes plaintext.bytes = .ok (ciphertext, tag) ∧
    e.encryptPack plaintext authdata out iv offsetOut generated memory =
      .ok (first ++ (tag ++ e.ivOf generated iv ++ ciphertext)) ∧
    ∀ (pack : Pack) (authdata' : Data) (before : Bytes),
      pack.data.bytes = tag ++ e.ivOf generated iv ++ ciphertext →
      e.ivSize + e.tagSize ≤ pack.front.length → authdata'.bytes = authdata.bytes →
      d.decryptPack pack authdata' before = .ok (before ++ plaintext.bytes)

/-! ### Workers that are streams -/

variable {w} {O A P : σ → Prop} {s t : σ} {out iv tag : Bytes} {xs authdata text plaintext : Bytes}

theorem Streams.auth (h : w.Streams O A P) (hs : O s) (data : Data) (out : Bytes) :
    w.auth s data out = (w.doProcess (w.beginNotEncrypted s) data.bytes false).map
      fun p => (w.endNotEncrypted p.1, out) := by
  have hbegins := h.begins hs
  have hnil : (Except.ok (s, out) : Except Error (σ × Bytes)) =
      (w.doProcess (w.beginNotEncrypted s) [] false).map
        fun p => (w.endNotEncrypted p.1, out) := by
    rw [h.authenticates.nil hbegins]
    exact congrArg (fun s => Except.ok (s, out)) (h.resumes hs).symm
  have hcall : ∀ xs, ((w.doProcess (w.beginNotEncrypted s) xs false).map
      fun p => (p.1, out ++ p.2)).bind (fun p => .ok (w.endNotEncrypted p.1, p.2)) =
      (w.doProcess (w.beginNotEncrypted s) xs false).map
        fun p => (w.endNotEncrypted p.1, out) := by
    intro xs
    cases hxs : w.doProcess (w.beginNotEncrypted s) xs false with
    | error e => rfl
    | ok p =>
      have hsilent := h.silent hbegins hxs
      simp only [Except.map, Except.bind, hsilent, List.append_nil]
  unfold AeadWorker.auth
  split
  · rwa [Data.bytes_buffer]
  · rwa [Data.bytes_buffers, List.flatten_nil]
  · rw [h.authenticates.process hbegins (Nat.zero_le _) 0 (Or.inl rfl), List.drop_zero,
      Data.bytes_buffer]
    exact hcall _
  · rw [h.authenticates.processAll _ hbegins, Data.bytes_buffers]
    exact hcall _

/-- What the template does, step by step, where the worker gets all at once. -/
theorem atOnce_eq_ok {prepare : σ → Except Error σ}
    (h : w.atOnce prepare iv authdata text = .ok (t, out)) :
    ∃ s s₁ a s₂ c s₃ last, w.doInit iv = .ok s ∧
      w.doProcess (w.beginNotEncrypted s) authdata false = .ok (s₁, a) ∧
      w.doProcess (w.endNotEncrypted s₁) text false = .ok (s₂, c) ∧ prepare s₂ = .ok s₃ ∧
      w.doProcess (w.close s₃) [] true = .ok (t, last) ∧ out = c ++ last := by
  obtain ⟨s, hinit, h⟩ := Order.bind_eq_ok h
  obtain ⟨⟨s₁, a⟩, hauth, h⟩ := Order.bind_eq_ok h
  obtain ⟨⟨s₂, c⟩, htext, h⟩ := Order.bind_eq_ok h
  obtain ⟨s₃, hprepare, h⟩ := Order.bind_eq_ok h
  obtain ⟨⟨t', last⟩, hlast, h⟩ := Order.bind_eq_ok h
  obtain ⟨rfl, rfl⟩ := Prod.mk.inj (Except.ok.inj h)
  exact ⟨s, s₁, a, s₂, c, s₃, last, hinit, hauth, htext, hprepare, hlast, rfl⟩

/-- All that the template does, with the text in one piece, behind what is in the buffer. -/
theorem Streams.run (h : w.Streams O A P) {prepare : σ → Except Error σ} {data : Data}
    (hprepare : ∀ {s t}, P s → prepare s = .ok t → P t)
    (hrun : w.atOnce prepare iv data.bytes text = .ok (t, out)) (before : Bytes) :
    ∃ s s₁ s₂ c s₃, w.doInit iv = .ok s ∧ w.auth s data before = .ok (s₁, before) ∧ P s₁ ∧
      w.doProcess s₁ text false = .ok (s₂, c) ∧ prepare s₂ = .ok s₃ ∧
      w.finalize s₃ (before ++ c) (before ++ c).length = .ok (t, before ++ out) := by
  obtain ⟨s, s₁, a, s₂, c, s₃, last, hinit, hauth, htext, hs₃, hlast, rfl⟩ := atOnce_eq_ok hrun
  have hopened := h.opened hinit
  have hbegins := h.begins hopened
  have hends := h.ends (h.authenticates.keeps hbegins hauth)
  have hkept := hprepare (h.processes.keeps hends htext) hs₃
  refine ⟨s, w.endNotEncrypted s₁, s₂, c, s₃, hinit, ?_, hends, htext, hs₃, ?_⟩
  · rw [h.auth hopened, hauth]
    rfl
  · rw [CipherWorker.finalize_append (h.processes.initialized hkept), hlast, ← List.append_assoc]

/-! ### Buffers -/

theorem put_middle (front : Bytes) {old new : Bytes} (h : new.length = old.length) (rest : Bytes) :
    put (front ++ old ++ rest) front.length new = .ok (front ++ new ++ rest) := by
  have hdrop : (front ++ old ++ rest).drop (front.length + new.length) = rest :=
    List.drop_left' (by rw [List.length_append, h])
  rw [put, if_pos (by simp only [List.length_append]; omega), hdrop, List.append_assoc front old,
    List.take_left]

theorem put_outside {front old new : Bytes} (h : old.length < new.length) :
    put (front ++ old) front.length new = .error .outside :=
  if_neg (by rw [List.length_append]; omega)

/-- A short IV is followed by zeros. -/
theorem put_short (front : Bytes) {new : Bytes} {size : Nat} (h : new.length ≤ size) :
    put (front ++ List.replicate size 0) front.length new =
      .ok (front ++ (new ++ List.replicate (size - new.length) 0)) := by
  have hzeros : List.replicate size (0 : UInt8) =
      List.replicate new.length 0 ++ List.replicate (size - new.length) 0 := by
    rw [← List.replicate_add, Nat.add_sub_cancel' h]
  rw [hzeros, ← List.append_assoc, put_middle front List.length_replicate.symm, List.append_assoc]

theorem length_ivOf (generated : Nat → UInt8) {iv : IvArg} (h : w.Fits iv) :
    (w.ivOf generated iv).length = w.ivSize := by
  cases iv with
  | empty => rw [ivOf, List.length_map, List.length_range]
  | invalid => exact h.elim
  | view b =>
    have h : b.length ≤ w.ivSize := h
    rw [ivOf, List.length_take, List.length_append, List.length_replicate]
    omega

theorem writeIv_eq (generated : Nat → UInt8) {iv : IvArg} (h : w.Fits iv) (front : Bytes) :
    w.writeIv (front ++ List.replicate w.ivSize 0) front.length generated iv =
      .ok (front ++ w.ivOf generated iv) := by
  cases iv with
  | empty =>
    have hlength : ((List.range w.ivSize).map generated).length = w.ivSize := by
      rw [List.length_map, List.length_range]
    rw [writeIv, put_short front (Nat.le_of_eq hlength), hlength, Nat.sub_self,
      List.replicate_zero, List.append_nil]
    rfl
  | invalid => exact h.elim
  | view b =>
    have h : b.length ≤ w.ivSize := h
    rw [writeIv, put_short front h, ivOf, List.take_of_length_le]
    rw [List.length_append, List.length_replicate]
    omega

/-- An IV that does not fit is written over the end, or it is refused. -/
theorem writeIv_error (generated : Nat → UInt8) {iv : IvArg} (h : ¬w.Fits iv) (front : Bytes) :
    ∃ e, w.writeIv (front ++ List.replicate w.ivSize 0) front.length generated iv = .error e := by
  cases iv with
  | empty => exact absurd trivial h
  | invalid => exact ⟨_, rfl⟩
  | view b =>
    refine ⟨_, put_outside ?_⟩
    rw [List.length_replicate]
    exact Nat.lt_of_not_le h

/-! ### Packs -/

variable {e : AeadWorker σ} {d : AeadWorker τ} {generated memory : Nat → UInt8} {ivArg : IvArg}

/-- The buffer that `encryptPack` writes the IV to. -/
theorem filled_eq (out : Bytes) (offsetOut : Nat) (memory : Nat → UInt8) :
    ∃ first, first.length = offsetOut ∧ out.take offsetOut <+: first ∧
      (resize out (e.tagSize + offsetOut + e.ivSize) memory).take offsetOut ++
        List.replicate (e.tagSize + e.ivSize) 0 =
      first ++ List.replicate e.tagSize 0 ++ List.replicate e.ivSize 0 ∧
      (first ++ List.replicate e.tagSize 0).length = e.tagSize + offsetOut := by
  refine ⟨(resize out (e.tagSize + offsetOut + e.ivSize) memory).take offsetOut, ?_,
    take_prefix_resize out (by omega) memory, ?_, ?_⟩
  · rw [List.length_take, length_resize]
    omega
  · rw [List.replicate_add, List.append_assoc]
  · rw [List.length_append, List.length_take, length_resize, List.length_replicate]
    omega

theorem init_of_length (h : iv.length = w.ivSize) : w.init iv = w.doInit iv := by
  rw [init, EncryptMAC.initVector_of_length h]

/-- The pack of an IV that fits. -/
theorem encryptPack_eq (h : e.Streams O A P) (hfits : e.Fits ivArg) {ciphertext : Bytes}
    {plaintext authdata : Data} (hwhole : e.encryptAtOnce (e.ivOf generated ivArg) authdata.bytes
      plaintext.bytes = .ok (ciphertext, tag)) (htag : tag.length = e.tagSize) (out : Bytes)
    (offsetOut : Nat) (memory : Nat → UInt8) :
    ∃ first, first.length = offsetOut ∧ out.take offsetOut <+: first ∧
      e.encryptPack plaintext authdata out ivArg offsetOut generated memory =
        .ok (first ++ (tag ++ e.ivOf generated ivArg ++ ciphertext)) := by
  obtain ⟨first, hfirst, hkept, hfilled, hoffset⟩ := filled_eq (e := e) out offsetOut memory
  obtain ⟨⟨t, c⟩, hrun, hget⟩ := Order.bind_eq_ok hwhole
  obtain ⟨tag', htag', heq⟩ := Order.bind_eq_ok hget
  obtain ⟨rfl, rfl⟩ := Prod.mk.inj (Except.ok.inj heq)
  have hiv := length_ivOf generated hfits
  have hwrite := writeIv_eq generated hfits (first ++ List.replicate e.tagSize 0)
  have hbuf : ((first ++ List.replicate e.tagSize 0 ++ e.ivOf generated ivArg).drop
      (e.tagSize + offsetOut)).take e.ivSize = e.ivOf generated ivArg := by
    rw [← hoffset, List.drop_left, ← hiv, List.take_length]
  obtain ⟨s, s₁, s₂, c', s₃, hinit, hauth, hends, htext, hs₃, hfinal⟩ := h.run
    (fun hs heq => Except.ok.inj heq ▸ hs) hrun
    (first ++ List.replicate e.tagSize 0 ++ e.ivOf generated ivArg)
  obtain rfl := Except.ok.inj hs₃
  have hencrypt : AeadArgTraits.encrypt e.toCipherWorker s₁ plaintext
      (first ++ List.replicate e.tagSize 0 ++ e.ivOf generated ivArg) = _ :=
    h.processes.encrypt hends plaintext
  rw [htext] at hencrypt
  refine ⟨first, hfirst, hkept, ?_⟩
  have hput : put (first ++ List.replicate e.tagSize 0 ++ (e.ivOf generated ivArg ++ c))
      first.length tag' = .ok (first ++ tag' ++ (e.ivOf generated ivArg ++ c)) :=
    put_middle first (htag.trans List.length_replicate.symm) _
  rw [hfirst, ← List.append_assoc] at hput
  have hlt : ¬(first ++ List.replicate e.tagSize 0 ++ e.ivOf generated ivArg ++ c).length <
      offsetOut + e.tagSize := by
    rw [List.length_append, List.length_append, hoffset]
    omega
  rw [encryptPack]
  dsimp only
  rw [hfilled, ← hoffset, hwrite]
  simp only [bind, Except.bind]
  rw [hoffset, hbuf, init_of_length hiv, hinit]
  simp only [ofWorker, Except.mapError, hauth, hencrypt, Except.map, hfinal, getTag, if_neg hlt,
    htag', bind, Except.bind]
  refine hput.trans ?_
  simp only [List.append_assoc]

theorem front_isPrefix (pack : Pack) : pack.front <+: pack.data.bytes := by
  cases pack with
  | one b =>
    rw [Pack.data, Data.bytes_buffer]
    exact List.prefix_rfl
  | many b bs => exact ⟨bs.flatten, rfl⟩

/-- The tag and the IV of a pack whose first buffer has both. -/
theorem extractIvAndTag_eq {pack : Pack} {rest : Bytes}
    (hbytes : pack.data.bytes = tag ++ iv ++ rest) (htag : tag.length = w.tagSize)
    (hiv : iv.length = w.ivSize) (hfront : w.ivSize + w.tagSize ≤ pack.front.length) :
    w.extractIvAndTag pack.front = .ok (iv, tag) := by
  obtain ⟨more, hmore⟩ := front_isPrefix pack
  rw [hbytes, List.append_assoc] at hmore
  have htake : pack.front.take w.tagSize = tag := by
    rw [← List.take_append_of_le_length (by omega), hmore, ← htag, List.take_left]
  have hdrop : (pack.front.drop w.tagSize).take w.ivSize = iv := by
    have hle : w.ivSize ≤ (pack.front.drop w.tagSize).length := by
      rw [List.length_drop]
      omega
    rw [← List.take_append_of_le_length hle,
      ← List.drop_append_of_le_length (by omega), hmore, ← htag, List.drop_left, ← hiv,
      List.take_left]
  rw [extractIvAndTag, if_pos hfront, htake, hdrop]

theorem setTag_of_length (s : σ) (h : tag.length = w.tagSize) :
    w.setTag s tag = w.doSetTag s tag := by
  have hcheck : checkInContainerSize tag.length 0 w.tagSize = some tag.length := by
    have hrest : checkInContainerSize tag.length 0 w.tagSize = some (tag.length - 0) :=
      checkInContainerSize_rest (Nat.zero_le _) (.inr h.symm)
    rwa [Nat.sub_zero] at hrest
  rw [setTag, hcheck, ← h, List.take_length]

/-- A pack of what was encrypted at once is decrypted as if at once. -/
theorem decryptPack_eq (h : w.Streams O A P) {pack : Pack} {authdata : Data} {ciphertext : Bytes}
    (hbytes : pack.data.bytes = tag ++ iv ++ ciphertext) (htag : tag.length = w.tagSize)
    (hiv : iv.length = w.ivSize) (hfront : w.ivSize + w.tagSize ≤ pack.front.length)
    (hwhole : w.decryptAtOnce iv authdata.bytes ciphertext tag = .ok plaintext) (before : Bytes) :
    w.decryptPack pack authdata before = .ok (before ++ plaintext) := by
  obtain ⟨⟨t, p⟩, hrun, hp⟩ := Order.bind_eq_ok hwhole
  obtain rfl := Except.ok.inj hp
  obtain ⟨s, s₁, s₂, c, s₃, hinit, hauth, hends, htext, hs₃, hfinal⟩ :=
    h.run (fun hs heq => h.keeps hs heq) hrun before
  have hhead : pack.data.toList.headD [] = pack.front := by cases pack <;> rfl
  have hoffset : iv.length + tag.length ≤ (pack.data.toList.headD []).length := by
    rw [hhead, hiv, htag]
    exact hfront
  have hdrop : pack.data.bytes.drop (iv.length + tag.length) = ciphertext := by
    rw [hbytes]
    exact List.drop_left' (by rw [List.length_append, Nat.add_comm])
  have hdecrypt : AeadArgTraits.decrypt w.toCipherWorker s₁ pack.data before
      (iv.length + tag.length) = _ := h.processes.decrypt hends pack.data hoffset
  rw [hdrop, htext] at hdecrypt
  rw [decryptPack, extractIvAndTag_eq hbytes htag hiv hfront]
  simp only [bind, Except.bind]
  rw [init_of_length hiv, hinit]
  simp only [hauth, hdecrypt, Except.map]
  rw [setTag_of_length s₂ htag, hs₃]
  simp only [hfinal]
  rfl

/-- **Packs are right** if and only if the IV has a place. -/
theorem packs_iff (h : Correct e d) (plaintext authdata : Data) (out : Bytes) (iv : IvArg)
    (offsetOut : Nat) (generated memory : Nat → UInt8) :
    Packs e d plaintext authdata out iv offsetOut generated memory ↔ e.Fits iv := by
  constructor
  · rintro ⟨first, ciphertext, tag, -, -, -, hpack, -⟩
    by_contra hfits
    obtain ⟨first', -, -, hfilled, hoffset⟩ := filled_eq (e := e) out offsetOut memory
    obtain ⟨fault, hwrite⟩ := writeIv_error generated hfits (first' ++ List.replicate e.tagSize 0)
    rw [encryptPack] at hpack
    dsimp only at hpack
    rw [hfilled, ← hoffset, hwrite] at hpack
    cases hpack
  · intro hfits
    obtain ⟨O, A, P, hencrypts⟩ := h.encrypts
    obtain ⟨O', A', P', hdecrypts⟩ := h.decrypts
    have hiv := length_ivOf generated hfits
    obtain ⟨ciphertext, tag, hwhole, htag, hinverse⟩ :=
      h.inverse (e.ivOf generated iv) authdata.bytes plaintext.bytes hiv
    obtain ⟨first, hfirst, hkept, hpack⟩ :=
      encryptPack_eq hencrypts hfits hwhole htag out offsetOut memory
    refine ⟨first, ciphertext, tag, hfirst, hkept, hwhole, hpack, ?_⟩
    intro pack authdata' before hbytes hfront hauth
    exact decryptPack_eq hdecrypts hbytes (htag.trans h.tagSize.symm) (hiv.trans h.ivSize.symm)
      (by rw [h.ivSize, h.tagSize]; exact hfront) (by rw [hauth]; exact hinverse) before

end AeadWorker

/-! ### A cipher for samples -/

/-- A cipher that leaves the text as it is, with the sum of all bytes as the tag. -/
structure SumCipher where
  initialized : Bool
  authMode : Bool
  fed : Bytes
  tag : Bytes

namespace SumCipher

open AeadWorker

/-- The encryptor, and the decryptor, which verifies the tag. -/
def worker (verifies : Bool) : AeadWorker SumCipher where
  initialized s := s.initialized
  close s := { s with initialized := false }
  doProcess s bufIn lastBlock :=
    if lastBlock then
      if verifies ∧ s.tag ≠ [s.fed.sum] then .error .macFailed
      else .ok ({ s with tag := [s.fed.sum] }, [])
    else .ok ({ s with fed := s.fed ++ bufIn }, if s.authMode then [] else bufIn)
  ivSize := 2
  tagSize := 1
  doInit iv := .ok ⟨true, false, iv, []⟩
  beginNotEncrypted s := { s with authMode := true }
  endNotEncrypted s := { s with authMode := false }
  doSetTag s tag := .ok { s with tag }
  doGetTag s := .ok s.tag

theorem absorbs (verifies authMode : Bool) : (worker verifies).Absorbs
    fun s => s.initialized = true ∧ s.authMode = authMode where
  initialized h := h.1
  nil := by
    rintro ⟨_, _, fed, tag⟩ ⟨rfl, rfl⟩
    simp only [worker, Bool.false_eq_true, if_false, List.append_nil, ite_self]
  keeps := by
    rintro s t xs out hs h
    obtain ⟨rfl, rfl⟩ := Prod.mk.inj (Except.ok.inj h)
    exact hs
  append := by
    rintro s t xs out hs h ys
    obtain ⟨rfl, rfl⟩ := Prod.mk.inj (Except.ok.inj h)
    simp only [worker, Bool.false_eq_true, if_false, Except.map, List.append_assoc]
    cases s.authMode <;> rfl
  error := by
    rintro s xs e hs h
    cases h

theorem isStream (verifies : Bool) : (worker verifies).IsStream := by
  refine ⟨fun s => s.initialized = true ∧ s.authMode = false, _, _, ⟨?_, ?_, ?_, ?_,
    absorbs verifies true, ?_, absorbs verifies false, ?_⟩⟩
  · rintro iv s h
    obtain rfl := Except.ok.inj h
    exact ⟨rfl, rfl⟩
  · rintro ⟨_, _, fed, tag⟩ ⟨rfl, rfl⟩
    rfl
  · exact fun hs => ⟨hs.1, rfl⟩
  · exact fun hs => ⟨hs.1, rfl⟩
  · rintro s t xs out hs h
    obtain ⟨rfl, rfl⟩ := Prod.mk.inj (Except.ok.inj h)
    exact if_pos hs.2
  · rintro s t tag hs h
    obtain rfl := Except.ok.inj h
    exact hs

theorem correct : Correct (worker false) (worker true) where
  encrypts := isStream false
  decrypts := isStream true
  ivSize := rfl
  tagSize := rfl
  inverse iv authdata plaintext _ := by
    refine ⟨plaintext, [(iv ++ authdata ++ plaintext).sum], ?_, rfl, ?_⟩
    · simp [encryptAtOnce, atOnce, worker, bind, Except.bind, pure, Except.pure]
    · simp [decryptAtOnce, atOnce, worker, bind, Except.bind, pure, Except.pure]

end SumCipher

namespace AeadWorker

theorem packs_sample :
    Packs (SumCipher.worker false) (SumCipher.worker true) (.buffers [[1], [], [2]]) (.buffer [3])
        [4, 5] (.view [6]) 1 (fun _ => 0) (fun _ => 0) ↔
      (SumCipher.worker false).Fits (.view [6]) :=
  packs_iff SumCipher.correct (.buffers [[1], [], [2]]) (.buffer [3]) [4, 5] (.view [6]) 1
    (fun _ => 0) (fun _ => 0)

/-- Three bytes are copied to the place of an IV of two bytes. -/
theorem long_iv_outside : Correct (SumCipher.worker false) (SumCipher.worker true) ∧
    (SumCipher.worker false).encryptPack (.buffer [1]) (.buffer []) [] (.view [6, 7, 8]) 0
      (fun _ => 0) (fun _ => 0) = .error .outside ∧
    ¬Packs (SumCipher.worker false) (SumCipher.worker true) (.buffer [1]) (.buffer []) []
      (.view [6, 7, 8]) 0 (fun _ => 0) (fun _ => 0) := by
  refine ⟨SumCipher.correct, by decide, ?_⟩
  rintro ⟨first, ciphertext, tag, -, -, -, hpack, -⟩
  cases hpack

end AeadWorker

end Hatn.Crypt
