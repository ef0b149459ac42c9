import Mathlib.Data.List.Basic
import Mathlib.Tactic.Ring

/-!
# Base64

`encode` runs through three steps, A, B and C, one for each byte of a group; `decode` takes
the characters of the table in fours and skips all others.  Bits that do not overlap are
added here where the code joins them with `|`.

* `encode_length`: `encode` fills what `encodeReserverLen` has reserved.
* `fromEncoded_encode`: what is encoded is decoded again.
-/

namespace Hatn.Common.Base64

/-! ### Encoding -/

/-- `base64_table` -/
def table : List UInt8 :=
  "ABCDEFGHIJKLMNOPQRSTUVWXYZabcdefghijklmnopqrstuvwxyz0123456789+/".toList.map
    fun c => UInt8.ofNat c.toNat

/-- The character `=`. -/
def padding : UInt8 := 0x3d

/-- `base64_encode_value` -/
def encodeValue (value : Nat) : UInt8 := if 63 < value then padding else table.getD value 0

/-- `encodeReserverLen` -/
def encodeReserverLen (size : Nat) : Nat := if 0 < size then (size + 2) / 3 * 4 else 0

/-- `base64_encodestep` -/
inductive EncodeStep
  | A
  | B
  | C
  deriving DecidableEq

/-- `base64_encode_block`: the characters, with the step and the bits that are left over. -/
def encodeBlock (step : EncodeStep) (result : Nat) : List UInt8 → List UInt8 × EncodeStep × Nat
  | [] => ([], step, result)
  | fragment :: plain =>
    let n := fragment.toNat
    match step with
    | .A =>
      let (code, state) := encodeBlock .B (n % 4 * 16) plain
      (encodeValue (n / 4) :: code, state)
    | .B =>
      let (code, state) := encodeBlock .C (n % 16 * 4) plain
      (encodeValue (result + n / 16) :: code, state)
    | .C =>
      let (code, state) := encodeBlock .A (n % 64) plain
      (encodeValue (result + n / 64) :: encodeValue (n % 64) :: code, state)

/-- `base64_encode_blockend` -/
def encodeBlockend (step : EncodeStep) (result : Nat) : List UInt8 :=
  match step with
  | .A => []
  | .B => [encodeValue result, padding, padding]
  | .C => [encodeValue result, padding]

def encode (src : List UInt8) : List UInt8 :=
  let (code, step, result) := encodeBlock .A 0 src
  code ++ encodeBlockend step result

/-! ### Decoding -/

/-- `decodeReserverLen` -/
def decodeReserverLen (size : Nat) : Nat := if 0 < size ∧ size % 4 = 0 then size / 4 * 3 else 0

/-- `dtable`: `none` is the mark of characters that are not in the table. -/
def decodeValue (c : UInt8) : Option Nat :=
  if c = padding then some 0 else table.findIdx? (· == c)

/-- The second loop of `decode`, with the block that it collects; `none` is a result of 0. -/
def decodeLoop (block : List Nat) (pad : Nat) : List UInt8 → Option (List UInt8)
  | [] => some []
  | c :: src =>
    match decodeValue c with
    | none => decodeLoop block pad src
    | some v =>
      let pad := if c = padding then pad + 1 else pad
      match block with
      | [b₀, b₁, b₂] =>
        let x := UInt8.ofNat (b₀ * 4 + b₁ / 16)
        let y := UInt8.ofNat (b₁ % 16 * 16 + b₂ / 4)
        let z := UInt8.ofNat (b₂ % 4 * 64 + v)
        if pad = 0 then (decodeLoop [] pad src).map fun out => x :: y :: z :: out
        else if pad = 1 then some [x, y]
        else if pad = 2 then some [x]
        else none
      | block => decodeLoop (block ++ [v]) pad src

def decode (src : List UInt8) : Option (List UInt8) :=
  let count := src.countP fun c => (decodeValue c).isSome
  if count = 0 ∨ count % 4 ≠ 0 then none else decodeLoop [] 0 src

/-- `from`: the buffer stays as it is where there is nothing to decode, or where the size is
that of no text in base64. -/
def fromEncoded (src buf : List UInt8) : List UInt8 :=
  if decodeReserverLen src.length = 0 then buf else (decode src).getD []

/-! ### Values and characters -/

theorem decodeValue_encodeValue : ∀ v < 64, decodeValue (encodeValue v) = some v := by
  decide +kernel

theorem encodeValue_ne_padding : ∀ v < 64, encodeValue v ≠ padding := by
  decide +kernel

theorem decodeValue_padding : decodeValue padding = some 0 := if_pos rfl

/-- A full group of four characters. -/
theorem decodeLoop_group (v₀ v₁ v₂ v₃ : Nat) (h₀ : v₀ < 64) (h₁ : v₁ < 64) (h₂ : v₂ < 64)
    (h₃ : v₃ < 64) (src : List UInt8) :
    decodeLoop [] 0 (encodeValue v₀ :: encodeValue v₁ :: encodeValue v₂ :: encodeValue v₃ :: src) =
      (decodeLoop [] 0 src).map fun out => UInt8.ofNat (v₀ * 4 + v₁ / 16) ::
        UInt8.ofNat (v₁ % 16 * 16 + v₂ / 4) :: UInt8.ofNat (v₂ % 4 * 64 + v₃) :: out := by
  simp [decodeLoop, decodeValue_encodeValue, encodeValue_ne_padding, h₀, h₁, h₂, h₃]

/-! ### Groups of three bytes -/

/-- The characters of a full group. -/
def encodeGroup (a b c : UInt8) : List UInt8 :=
  [encodeValue (a.toNat / 4), encodeValue (a.toNat % 4 * 16 + b.toNat / 16),
    encodeValue (b.toNat % 16 * 4 + c.toNat / 64), encodeValue (c.toNat % 64)]

theorem encodeBlock_group (a b c : UInt8) (src : List UInt8) (r : Nat) :
    encodeBlock .A r (a :: b :: c :: src) =
      (encodeGroup a b c ++ (encodeBlock .A (c.toNat % 64) src).1,
        (encodeBlock .A (c.toNat % 64) src).2) := rfl

/-- The bits left over from a full group are not used. -/
theorem encodeBlock_A (src : List UInt8) (r r' : Nat) :
    (encodeBlock .A r src).1 ++ encodeBlockend (encodeBlock .A r src).2.1 (encodeBlock .A r src).2.2 =
      (encodeBlock .A r' src).1 ++
        encodeBlockend (encodeBlock .A r' src).2.1 (encodeBlock .A r' src).2.2 := by
  cases src <;> rfl

theorem encode_group (a b c : UInt8) (src : List UInt8) :
    encode (a :: b :: c :: src) = encodeGroup a b c ++ encode src := by
  simp only [encode, encodeBlock_group, List.append_assoc]
  rw [encodeBlock_A src (c.toNat % 64) 0]

theorem encode_one (a : UInt8) : encode [a] =
    [encodeValue (a.toNat / 4), encodeValue (a.toNat % 4 * 16), padding, padding] := rfl

theorem encode_two (a b : UInt8) : encode [a, b] =
    [encodeValue (a.toNat / 4), encodeValue (a.toNat % 4 * 16 + b.toNat / 16),
      encodeValue (b.toNat % 16 * 4), padding] := rfl

theorem ofNat_toNat_eq {a : UInt8} {n : Nat} (h : n = a.toNat) : UInt8.ofNat n = a := by
  rw [h, UInt8.ofNat_toNat]

theorem decodeLoop_encodeGroup (a b c : UInt8) (src : List UInt8) :
    decodeLoop [] 0 (encodeGroup a b c ++ src) =
      (decodeLoop [] 0 src).map fun out => a :: b :: c :: out := by
  have ha := a.toNat_lt
  have hb := b.toNat_lt
  have hc := c.toNat_lt
  have e := decodeLoop_group (a.toNat / 4) (a.toNat % 4 * 16 + b.toNat / 16)
    (b.toNat % 16 * 4 + c.toNat / 64) (c.toNat % 64) (by omega) (by omega) (by omega) (by omega) src
  rw [ofNat_toNat_eq (a := a) (by omega), ofNat_toNat_eq (a := b) (by omega),
    ofNat_toNat_eq (a := c) (by omega)] at e
  exact e

/-! ### The round trip -/

/-- **The characters are as many as are reserved for them.** -/
theorem encode_length : ∀ src : List UInt8, (encode src).length = encodeReserverLen src.length
  | [] => rfl
  | [a] => by simp [encode_one, encodeReserverLen]
  | [a, b] => by simp [encode_two, encodeReserverLen]
  | a :: b :: c :: src => by
    rw [encode_group, List.length_append, encode_length src]
    simp only [encodeGroup, encodeReserverLen, List.length_cons, List.length_nil]
    split <;> split <;> omega

/-- Characters of the table, with `=`. -/
theorem decodeValue_isSome_of_mem_encode : ∀ {src : List UInt8} {c : UInt8}, c ∈ encode src →
    (decodeValue c).isSome = true
  | [], _, h => nomatch h
  | [a], c, h => by
    have ha := a.toNat_lt
    rw [encode_one] at h
    simp only [List.mem_cons, List.not_mem_nil, or_false] at h
    rcases h with rfl | rfl | rfl | rfl
    · rw [decodeValue_encodeValue _ (by omega)]; rfl
    · rw [decodeValue_encodeValue _ (by omega)]; rfl
    · rfl
    · rfl
  | [a, b], c, h => by
    have ha := a.toNat_lt
    have hb := b.toNat_lt
    rw [encode_two] at h
    simp only [List.mem_cons, List.not_mem_nil, or_false] at h
    rcases h with rfl | rfl | rfl | rfl
    · rw [decodeValue_encodeValue _ (by omega)]; rfl
    · rw [decodeValue_encodeValue _ (by omega)]; rfl
    · rw [decodeValue_encodeValue _ (by omega)]; rfl
    · rfl
  | a :: b :: c' :: src, c, h => by
    have ha := a.toNat_lt
    have hb := b.toNat_lt
    have hc := c'.toNat_lt
    rw [encode_group, List.mem_append] at h
    rcases h with h | h
    · simp only [encodeGroup, List.mem_cons, List.not_mem_nil, or_false] at h
      rcases h with rfl | rfl | rfl | rfl
      all_goals rw [decodeValue_encodeValue _ (by omega)]; rfl
    · exact decodeValue_isSome_of_mem_encode h

theorem decodeLoop_encode : ∀ src : List UInt8, decodeLoop [] 0 (encode src) = some src
  | [] => rfl
  | [a] => by
    have ha := a.toNat_lt
    rw [encode_one]
    simp only [decodeLoop, decodeValue_encodeValue (a.toNat / 4) (by omega),
      decodeValue_encodeValue (a.toNat % 4 * 16) (by omega), decodeValue_padding,
      encodeValue_ne_padding (a.toNat / 4) (by omega),
      encodeValue_ne_padding (a.toNat % 4 * 16) (by omega), if_false, if_true, List.nil_append,
      List.cons_append]
    rw [ofNat_toNat_eq (a := a) (by omega)]
    rfl
  | [a, b] => by
    have ha := a.toNat_lt
    have hb := b.toNat_lt
    rw [encode_two]
    simp only [decodeLoop, decodeValue_encodeValue (a.toNat / 4) (by omega),
      decodeValue_encodeValue (a.toNat % 4 * 16 + b.toNat / 16) (by omega),
      decodeValue_encodeValue (b.toNat % 16 * 4) (by omega), decodeValue_padding,
      encodeValue_ne_padding (a.toNat / 4) (by omega),
      encodeValue_ne_padding (a.toNat % 4 * 16 + b.toNat / 16) (by omega),
      encodeValue_ne_padding (b.toNat % 16 * 4) (by omega), if_false, if_true, List.nil_append,
      List.cons_append]
    rw [ofNat_toNat_eq (a := a) (by omega), ofNat_toNat_eq (a := b) (by omega)]
    rfl
  | a :: b :: c :: src => by
    rw [encode_group, decodeLoop_encodeGroup, decodeLoop_encode src]
    rfl

/-- **What is encoded is decoded again**, into an empty buffer; without bytes there is nothing
to decode. -/
theorem fromEncoded_encode (src : List UInt8) : fromEncoded (encode src) [] = src := by
  cases src with
  | nil => rfl
  | cons a src =>
    have hlen : (encode (a :: src)).length = (src.length + 3) / 3 * 4 := by
      rw [encode_length, encodeReserverLen, if_pos (by simp)]
      rfl
    have hcount : (encode (a :: src)).countP (fun c => (decodeValue c).isSome) =
        (src.length + 3) / 3 * 4 := by
      rw [List.countP_eq_length.mpr fun c hc => decodeValue_isSome_of_mem_encode hc, hlen]
    rw [fromEncoded, if_neg, decode, hcount, if_neg, decodeLoop_encode]
    · rfl
    · omega
    · rw [hlen, decodeReserverLen, if_pos (by omega)]
      omega

end Hatn.Common.Base64
