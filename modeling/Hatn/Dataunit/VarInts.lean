import Hatn.Dataunit.Reading

/-!
# Varint streams

`Stream<Type,Signed>` packs an integer of any width and reads it back.  The two packing
functions are unrolled in the source, and here as well: `packVarInt32` writes byte by byte
and takes the high bit back from the last one, `packVarInt64` finds the size first and then
falls through the bytes from the last to the first.  Both write the bytes of the recursive
form (`packVarInt32_bytes`, `packVarInt64_bytes`), which the reading loop is known to read.

`codec_iff` says for which trailing bytes a number is read back: for all those that leave the
size of the buffer, as the `int` that the reading loop makes of it, above the bytes of the number.
-/

namespace Hatn.Dataunit

open Hatn.Common

/-! ### Packing -/

namespace StreamBase

/-- A byte in front of others. -/
def more (part : Nat) : UInt8 := UInt8.ofNat (part ||| 0x80)

/-- `packVarInt32`: the bytes that are appended and the number that is returned. -/
def packVarInt32 (value : Nat) : List UInt8 × Nat :=
  if 1 <<< 7 ≤ value then
    if 1 <<< 14 ≤ value then
      if 1 <<< 21 ≤ value then
        if 1 <<< 28 ≤ value then
          ([more value, more (value >>> 7), more (value >>> 14), more (value >>> 21),
            UInt8.ofNat (value >>> 28)], 5)
        else
          ([more value, more (value >>> 7), more (value >>> 14),
            more (value >>> 21) &&& 0x7F], 4)
      else ([more value, more (value >>> 7), more (value >>> 14) &&& 0x7F], 3)
    else ([more value, more (value >>> 7) &&& 0x7F], 2)
  else ([more value &&& 0x7F], 1)

/-- The `size` of `packVarInt64`. -/
def size64 (part0 part1 part2 : Nat) : Nat :=
  if part2 = 0 then
    if part1 = 0 then
      if part0 < 1 <<< 14 then
        if part0 < 1 <<< 7 then 1 else 2
      else
        if part0 < 1 <<< 21 then 3 else 4
    else
      if part1 < 1 <<< 14 then
        if part1 < 1 <<< 7 then 5 else 6
      else
        if part1 < 1 <<< 21 then 7 else 8
  else
    if part2 < 1 <<< 7 then 9 else 10

/-- `packVarInt64`: the labels fall through from `target[size-1]` to `target[0]`. -/
def packVarInt64 (value : Nat) : List UInt8 × Nat :=
  let part0 := value % 2 ^ 32
  let part1 := (value >>> 28) % 2 ^ 32
  let part2 := (value >>> 56) % 2 ^ 32
  let size := size64 part0 part1 part2
  let target := [more part0, more (part0 >>> 7), more (part0 >>> 14), more (part0 >>> 21),
    more part1, more (part1 >>> 7), more (part1 >>> 14), more (part1 >>> 21),
    more part2, more (part2 >>> 7)].take size
  (target.modify (size - 1) (· &&& 0x7F), size)

theorem more_eq {m n : Nat} (h : m % 128 = n % 128) : more m = more n := by
  rw [more, more, ofNat_or_128, ofNat_or_128, h]

/-- The high bit is taken back. -/
theorem more_and (n : Nat) : more n &&& 0x7F = UInt8.ofNat (n % 128) := by
  have hn : n % 128 < 128 := Nat.mod_lt n (by decide)
  apply UInt8.toNat_inj.mp
  rw [more, ofNat_or_128, UInt8.toNat_and, UInt8.toNat_ofNat', UInt8.toNat_ofNat',
    show (0x7F : UInt8).toNat = 2 ^ 7 - 1 by rfl, Nat.and_two_pow_sub_one_eq_mod]
  omega

end StreamBase

open StreamBase (more more_eq more_and size64)

/-- **The bytes of a number** of `k + 1` digits. -/
theorem packVarInt_bytes : ∀ {k j n : Nat}, n < 128 ^ (k + 1) → (k = 0 ∨ 128 ^ k ≤ n) →
    packVarInt (k + 1 + j) n =
      (List.range k).map (fun i => more (n >>> (7 * i))) ++ [UInt8.ofNat (n >>> (7 * k))] := by
  intro k
  induction k with
  | zero =>
    intro j n h _
    rw [Nat.zero_add, Nat.add_comm, packVarInt, if_pos (by simpa using h)]
    rfl
  | succ k ih =>
    intro j n h hn
    have hn : 128 ^ (k + 1) ≤ n := hn.resolve_left (by omega)
    have hbig : 128 ≤ n := le_trans (Nat.le_self_pow (by omega) 128) hn
    have hs : n >>> 7 = n / 128 := Nat.shiftRight_eq_div_pow n 7
    have hlt : n >>> 7 < 128 ^ (k + 1) := by
      rw [hs]
      exact Nat.div_lt_of_lt_mul (by rwa [Nat.pow_succ'] at h)
    have hge : 128 ^ k ≤ n >>> 7 := by
      rw [hs, Nat.le_div_iff_mul_le (by decide), ← Nat.pow_succ]
      exact hn
    rw [show k + 1 + 1 + j = (k + 1 + j) + 1 by omega, packVarInt,
      if_neg (show ¬ n < 1 <<< 7 by rw [show (1 : Nat) <<< 7 = 128 by rfl]; omega),
      ih hlt (.inr hge), List.range_succ_eq_map, List.map_cons, List.map_map, List.cons_append]
    simp only [← Nat.shiftRight_add]
    congr 1
    congr 1
    · exact List.map_congr_left fun i _ => by
        simp only [Function.comp_apply, Nat.mul_succ, Nat.add_comm]
    · rw [Nat.mul_succ, Nat.add_comm]

/-- The byte of the last digit. -/
theorem more_last {k n : Nat} (h : n < 128 ^ (k + 1)) :
    more (n >>> (7 * k)) &&& 0x7F = UInt8.ofNat (n >>> (7 * k)) := by
  have hlt : n >>> (7 * k) < 128 := by
    rw [Nat.shiftRight_eq_div_pow, Nat.pow_mul, Nat.div_lt_iff_lt_mul (Nat.pow_pos (by decide)),
      ← Nat.pow_succ']
    exact h
  rw [more_and, Nat.mod_eq_of_lt hlt]

/-- **`packVarInt32` is the recursive form.** -/
theorem packVarInt32_bytes {n : Nat} (h : n < 2 ^ 32) :
    StreamBase.packVarInt32 n = (packVarInt32 n, (packVarInt32 n).length) := by
  rw [StreamBase.packVarInt32, packVarInt32]
  simp only [show (1 : Nat) <<< 7 = 128 by rfl, show (1 : Nat) <<< 14 = 16384 by rfl,
    show (1 : Nat) <<< 21 = 2097152 by rfl, show (1 : Nat) <<< 28 = 268435456 by rfl]
  split_ifs with h1 h2 h3 h4
  · rw [packVarInt_bytes (k := 4) (j := 0) (by omega) (.inr (by omega))]
    rfl
  · rw [packVarInt_bytes (k := 3) (j := 1) (by omega) (.inr (by omega)),
      more_last (k := 3) (by omega)]
    rfl
  · rw [packVarInt_bytes (k := 2) (j := 2) (by omega) (.inr (by omega)),
      more_last (k := 2) (by omega)]
    rfl
  · rw [packVarInt_bytes (k := 1) (j := 3) (by omega) (.inr (by omega)),
      more_last (k := 1) (by omega)]
    rfl
  · rw [packVarInt_bytes (k := 0) (j := 4) (by omega) (.inl rfl), more_and,
      Nat.mod_eq_of_lt (by omega)]
    rfl

/-- The size is the number of digits. -/
theorem size64_spec {n : Nat} (h : n < 2 ^ 64) :
    ∃ k, size64 (n % 2 ^ 32) ((n >>> 28) % 2 ^ 32) ((n >>> 56) % 2 ^ 32) = k + 1 ∧ k < 10 ∧
      n < 128 ^ (k + 1) ∧ (k = 0 ∨ 128 ^ k ≤ n) := by
  have h28 : n >>> 28 = n / 2 ^ 28 := Nat.shiftRight_eq_div_pow n 28
  have h56 : n >>> 56 = n / 2 ^ 56 := Nat.shiftRight_eq_div_pow n 56
  rw [size64, h28, h56]
  simp only [show (1 : Nat) <<< 7 = 128 by rfl, show (1 : Nat) <<< 14 = 16384 by rfl,
    show (1 : Nat) <<< 21 = 2097152 by rfl]
  split_ifs
  · exact ⟨0, rfl, by decide, by omega, .inl rfl⟩
  · exact ⟨1, rfl, by decide, by omega, .inr (by omega)⟩
  · exact ⟨2, rfl, by decide, by omega, .inr (by omega)⟩
  · exact ⟨3, rfl, by decide, by omega, .inr (by omega)⟩
  · exact ⟨4, rfl, by decide, by omega, .inr (by omega)⟩
  · exact ⟨5, rfl, by decide, by omega, .inr (by omega)⟩
  · exact ⟨6, rfl, by decide, by omega, .inr (by omega)⟩
  · exact ⟨7, rfl, by decide, by omega, .inr (by omega)⟩
  · exact ⟨8, rfl, by decide, by omega, .inr (by omega)⟩
  · exact ⟨9, rfl, by decide, by omega, .inr (by omega)⟩

/-- A part of 32 bits holds the digits up to its bit 25. -/
theorem more_part (n i : Nat) {j : Nat} (hj : j ≤ 3) :
    more (((n >>> i) % 2 ^ 32) >>> (7 * j)) = more (n >>> (i + 7 * j)) := by
  apply more_eq
  show _ % 2 ^ 7 = _ % 2 ^ 7
  apply Nat.eq_of_testBit_eq
  intro k
  rw [Nat.testBit_mod_two_pow, Nat.testBit_mod_two_pow, Nat.testBit_shiftRight,
    Nat.testBit_mod_two_pow, Nat.testBit_shiftRight, Nat.testBit_shiftRight, Nat.add_assoc]
  by_cases hk : k < 7
  · have : 7 * j + k < 32 := by omega
    simp [this]
  · simp [hk]

/-- The parts hold the digits of the number. -/
theorem parts_eq (n : Nat) :
    [more (n % 2 ^ 32), more ((n % 2 ^ 32) >>> 7), more ((n % 2 ^ 32) >>> 14),
      more ((n % 2 ^ 32) >>> 21), more ((n >>> 28) % 2 ^ 32),
      more (((n >>> 28) % 2 ^ 32) >>> 7), more (((n >>> 28) % 2 ^ 32) >>> 14),
      more (((n >>> 28) % 2 ^ 32) >>> 21), more ((n >>> 56) % 2 ^ 32),
      more (((n >>> 56) % 2 ^ 32) >>> 7)] =
    (List.range 10).map fun i => more (n >>> (7 * i)) := by
  have h0 := more_part n 0 (by decide : 0 ≤ 3)
  have h1 := more_part n 0 (by decide : 1 ≤ 3)
  have h2 := more_part n 0 (by decide : 2 ≤ 3)
  have h3 := more_part n 0 (by decide : 3 ≤ 3)
  have h4 := more_part n 28 (by decide : 0 ≤ 3)
  have h5 := more_part n 28 (by decide : 1 ≤ 3)
  have h6 := more_part n 28 (by decide : 2 ≤ 3)
  have h7 := more_part n 28 (by decide : 3 ≤ 3)
  have h8 := more_part n 56 (by decide : 0 ≤ 3)
  have h9 := more_part n 56 (by decide : 1 ≤ 3)
  simp only [Nat.mul_zero, Nat.mul_one, Nat.shiftRight_zero, Nat.zero_add, Nat.add_zero,
    Nat.reduceMul, Nat.reduceAdd] at h0 h1 h2 h3 h4 h5 h6 h7 h8 h9
  rw [h0, h1, h2, h3, h4, h5, h6, h7, h8, h9]
  rfl

/-- **`packVarInt64` is the recursive form.** -/
theorem packVarInt64_bytes {n : Nat} (h : n < 2 ^ 64) :
    StreamBase.packVarInt64 n = (packVarInt64 n, (packVarInt64 n).length) := by
  obtain ⟨k, hs, hk, hlt, hle⟩ := size64_spec h
  have hb : packVarInt64 n = (List.range k).map (fun i => more (n >>> (7 * i))) ++
      [UInt8.ofNat (n >>> (7 * k))] := by
    rw [packVarInt64, show 10 = k + 1 + (9 - k) by omega, packVarInt_bytes hlt hle]
  have ht : ((List.range 10).map fun i => more (n >>> (7 * i))).take (k + 1) =
      (List.range k).map (fun i => more (n >>> (7 * i))) ++ [more (n >>> (7 * k))] := by
    rw [← List.map_take, List.take_range, Nat.min_eq_left (by omega), List.range_succ,
      List.map_append]
    rfl
  have hm : (((List.range k).map (fun i => more (n >>> (7 * i))) ++
      [more (n >>> (7 * k))]).modify k (· &&& 0x7F)) = packVarInt64 n := by
    rw [hb, List.modify_eq_take_cons_drop (by simp), List.take_left' (by simp),
      List.drop_eq_nil_of_le (by simp)]
    simp [more_last hlt]
  have hl : (packVarInt64 n).length = k + 1 := by rw [hb]; simp
  show ((_ : List UInt8).modify (size64 _ _ _ - 1) _, size64 _ _ _) = _
  rw [parts_eq, hs, ht, Nat.add_sub_cancel, hm, hl]

/-- The bytes that a number takes. -/
def varIntSize (n : Nat) : Nat := Nat.log 128 n + 1

theorem packVarInt_length {k n : Nat} (hk : 0 < k) (h : n < 128 ^ k) :
    (packVarInt k n).length = varIntSize n := by
  have hle : Nat.log 128 n < k := Nat.log_lt_of_lt_pow' (by omega) h
  have hlog : Nat.log 128 n = 0 ∨ 128 ^ Nat.log 128 n ≤ n := by
    by_cases h0 : n = 0
    · exact .inl (by simp [h0])
    · exact .inr (Nat.pow_log_le_self 128 h0)
  have hb := packVarInt_bytes (j := k - (Nat.log 128 n + 1))
    (Nat.lt_pow_succ_log_self (by decide) n) hlog
  rw [show Nat.log 128 n + 1 + (k - (Nat.log 128 n + 1)) = k by omega] at hb
  rw [hb, varIntSize]
  simp

/-! ### Reading -/

/-- **Bytes in front of others** are not enough. -/
theorem unpackLoop_short (modulus maxShift : Nat) (a : Int) (rest : List UInt8) :
    ∀ (l : List UInt8) (s : VarInt), (∀ b ∈ l, 128 ≤ b.toNat) → a ≤ s.processedSize + l.length →
      (unpackLoop modulus maxShift a (l ++ rest) s).broken = true := by
  intro l
  induction l with
  | nil =>
    intro s _ ha
    have ha' : a ≤ s.processedSize := by simpa using ha
    cases rest with
    | nil => simp [unpackLoop, VarInt.broken]
    | cons b rest => simp [unpackLoop, VarInt.broken, ha']
  | cons b l ih =>
    intro s hl ha
    have hb : (s.addByte modulus b).moreBytesLeft = true := by
      rw [addByte_more]
      simpa using hl b (by simp)
    rw [List.cons_append, unpackLoop]
    split_ifs with h1 h2 h3
    · simp [VarInt.broken]
    · rw [hb] at h2
      cases h2
    · rw [VarInt.broken, hb, Bool.or_true]
    · refine ih _ (fun c hc => hl c (List.mem_cons_of_mem b hc)) ?_
      rw [List.length_cons] at ha
      rw [next_processedSize, addByte_processedSize]
      omega

namespace VarForm

variable {k n : Nat} {l : List UInt8}

/-- All bytes of a form but the last one are in front of others. -/
theorem split (h : VarForm k n l) :
    ∃ ini b, l = ini ++ [b] ∧ ∀ c ∈ ini, 128 ≤ c.toNat := by
  obtain ⟨ds, hne, hd, -, -, rfl⟩ := h
  obtain ⟨ini, d, rfl⟩ : ∃ ini d, ds = ini ++ [d] :=
    ⟨ds.dropLast, ds.getLast hne, (List.dropLast_concat_getLast hne).symm⟩
  refine ⟨_, _, varBytes_append_singleton d ini, ?_⟩
  intro c hc
  obtain ⟨e, he, rfl⟩ := List.mem_map.mp hc
  have : e < 128 := hd e (by simp [he])
  rw [UInt8.toNat_ofNat']
  omega

/-- **A beginning of a form is broken.** -/
theorem broken_of_prefix (h : VarForm k n l) (modulus maxShift : Nat) (a : Int) {l' : List UInt8}
    (hp : l' <+: l) (hne : l' ≠ l) (ha : a ≤ l'.length) :
    (unpackLoop modulus maxShift a l' .start).broken = true := by
  obtain ⟨ini, b, rfl, hini⟩ := h.split
  have hpre : l' <+: ini := by
    rcases List.prefix_concat_iff.mp hp with h | h
    · exact absurd h hne
    · exact h
  have hs := unpackLoop_short modulus maxShift a [] l' .start
    (fun c hc => hini c (hpre.subset hc)) (by simpa [VarInt.start] using ha)
  rwa [List.append_nil] at hs

/-- **A form is whole** where so many bytes are available. -/
theorem broken_iff (h : VarForm k n l) {modulus maxShift : Nat} (hs : 7 * k ≤ maxShift + 14)
    (a : Int) (rest : List UInt8) :
    (unpackLoop modulus maxShift a (l ++ rest) .start).broken = false ↔ (l.length : Int) ≤ a := by
  constructor
  · intro hb
    by_contra ha
    obtain ⟨ini, b, rfl, hini⟩ := h.split
    have hshort := unpackLoop_short modulus maxShift a ([b] ++ rest) ini .start hini (by
      rw [List.length_append, List.length_singleton] at ha
      simp only [VarInt.start]
      omega)
    rw [← List.append_assoc, hb] at hshort
    cases hshort
  · intro ha
    exact (h.unpackLoop_ends modulus hs ha rest).1

end VarForm

theorem varValue_lt : ∀ {ds : List Nat}, (∀ d ∈ ds, d < 128) → varValue ds < 128 ^ ds.length := by
  intro ds
  induction ds with
  | nil => intro _; decide
  | cons d ds ih =>
    intro h
    have hd := h d List.mem_cons_self
    have hds := ih fun e he => h e (List.mem_cons_of_mem d he)
    rw [varValue, List.length_cons, Nat.pow_succ']
    omega

/-- Every form has at least the bytes that the number takes. -/
theorem VarForm.varIntSize_le {k n : Nat} {l : List UInt8} (h : VarForm k n l) :
    varIntSize n ≤ l.length := by
  have hpos := h.length_pos
  obtain ⟨ds, -, hd, -, rfl, rfl⟩ := h
  rw [varBytes_length] at hpos ⊢
  exact Nat.log_lt_of_lt_pow' (by omega) (varValue_lt hd)

/-- A form stands for one number. -/
theorem VarForm.value_unique {k j m n : Nat} {l : List UInt8} (h : VarForm k m l)
    (g : VarForm j n l) : m = n := by
  have hs : 7 * (k + j) ≤ 7 * (k + j) + 14 := Nat.le_add_right _ _
  have hm := (h.mono (Nat.le_add_right k j)).unpackLoop_eq hs (by omega : m < m + n + 1)
    (le_refl (l.length : Int)) []
  have hn := (g.mono (Nat.le_add_left j k)).unpackLoop_eq hs (by omega : n < m + n + 1)
    (le_refl (l.length : Int)) []
  exact congrArg VarInt.value (hm.symm.trans hn)

/-- The size of a buffer as the `int` of the reading loop. -/
theorem le_toInt_iff {k r : Nat} (hk : 0 < k) (hk' : k < 2 ^ 31) :
    (k : Int) ≤ toInt ((k + r : Nat) : Int) ↔ r % 2 ^ 32 + k < 2 ^ 31 := by
  rw [toInt, Int.bmod_def]
  push_cast
  split_ifs <;> omega

/-! ### Streams -/

namespace Stream

/-- The `value` that `packVarInt` makes of a field. -/
def value (signed : Bool) (w : Width) (field : Int) : Nat :=
  if signed then
    if w = .w64 then (zigZagEncode (BitVec.ofInt 64 field)).toNat
    else (zigZagEncode (BitVec.ofInt 32 field)).toNat
  else (field % 2 ^ 64).toNat

/-- `packVarInt` -/
def packVarInt (signed : Bool) (w : Width) (field : Int) : List UInt8 × Nat :=
  if signed = true ∧ w ≠ .w64 then StreamBase.packVarInt32 (value signed w field)
  else StreamBase.packVarInt64 (value signed w field)

/-- What is returned of a loop, with `none` for -1. -/
def processed (field : Nat → Int) (v : VarInt) : Option (Int × Nat) :=
  if v.broken then none else some (field v.value, v.processedSize)

/-- `unpackVarInt` -/
def unpackVarInt (signed : Bool) (w : Width) (buf : List UInt8) (availableSize : Int) :
    Option (Int × Nat) :=
  if signed then
    if w = .w64 then
      processed (fun v => (zigZagDecode (BitVec.ofNat 64 v)).toInt)
        (unpackVarInt64 buf availableSize)
    else
      processed (fun v => castTo true w (zigZagDecode (BitVec.ofNat 32 v)).toInt)
        (unpackVarInt32 buf availableSize)
  else processed (fun v => castTo false w v) (unpackVarInt64 buf availableSize)

section
variable {k n modulus maxShift : Nat} {l : List UInt8}

/-- **A form is returned** where the size of the buffer leaves room for it. -/
theorem processed_eq_some_iff (h : VarForm k n l) (hk : k ≤ 10) (hs : 7 * k ≤ maxShift + 14)
    (hn : n < modulus) (field : Nat → Int) (rest : List UInt8) :
    processed field
        (unpackLoop modulus maxShift (toInt ((l ++ rest).length : Nat)) (l ++ rest) .start) =
        some (field n, l.length) ↔
      rest.length % 2 ^ 32 + l.length < 2 ^ 31 := by
  have hlen : l.length ≤ 10 := le_trans h.length_le hk
  have hbroken : (unpackLoop modulus maxShift (toInt ((l ++ rest).length : Nat)) (l ++ rest)
      .start).broken = false ↔ (l.length : Int) ≤ toInt ((l ++ rest).length : Nat) :=
    h.broken_iff hs _ rest
  rw [← le_toInt_iff h.length_pos (by omega), ← List.length_append, ← hbroken]
  constructor
  · intro hp
    by_contra hb
    rw [Bool.not_eq_false] at hb
    rw [processed, if_pos hb] at hp
    cases hp
  · intro hb
    have ha := (h.broken_iff hs _ rest).mp hb
    rw [h.unpackLoop_eq hs hn ha rest]
    rfl

/-- **A beginning of a form is refused.** -/
theorem processed_prefix (h : VarForm k n l) (field : Nat → Int) {l' : List UInt8}
    (hp : l' <+: l) (hne : l' ≠ l) :
    processed field (unpackLoop modulus maxShift (toInt (l'.length : Nat)) l' .start) = none := by
  have hle : toInt (l'.length : Nat) ≤ l'.length := toInt_le (by omega)
  rw [processed, if_pos (h.broken_of_prefix modulus maxShift _ hp hne hle)]

end

/-- How a number travels: the form of its value, and the loop that reads it. -/
structure Coded (signed : Bool) (w : Width) (field : Int) (k modulus maxShift : Nat)
    (read : Nat → Int) : Prop where
  room : k ≤ 10
  shift : 7 * k ≤ maxShift + 14
  form : VarForm k (value signed w field) (packVarInt signed w field).1
  returned : (packVarInt signed w field).2 = (packVarInt signed w field).1.length
  size : (packVarInt signed w field).1.length = varIntSize (value signed w field)
  lt : value signed w field < modulus
  read_value : read (value signed w field) = field
  unpack : ∀ buf availableSize, unpackVarInt signed w buf availableSize =
    processed read (unpackLoop modulus maxShift (toInt availableSize) buf .start)

/-- **Each type has its code.** -/
theorem coded {signed : Bool} {w : Width} {field : Int} (h : InRange signed w field) :
    ∃ k modulus maxShift read, Coded signed w field k modulus maxShift read := by
  cases signed with
  | false =>
    have hlt : field % 2 ^ 64 < 2 ^ 64 := Int.emod_lt_of_pos field (by norm_num)
    have hpos : 0 ≤ field % 2 ^ 64 := Int.emod_nonneg field (by norm_num)
    have hv : value false w field = (field % 2 ^ 64).toNat := rfl
    have hn : value false w field < 2 ^ 64 := by rw [hv]; omega
    have hp : packVarInt false w field = _ := packVarInt64_bytes hn
    refine ⟨10, 2 ^ 64, 56, fun v => castTo false w v, le_rfl, by norm_num, ?_, ?_, ?_, hn, ?_,
      fun _ _ => rfl⟩
    · rw [hp]
      exact .packVarInt64 hn
    · rw [hp]
    · rw [hp]
      exact packVarInt_length (by norm_num) (lt_trans hn (by norm_num))
    · rw [hv, Int.toNat_of_nonneg hpos]
      exact castTo_emod h
  | true =>
    by_cases hw : w = .w64
    · subst hw
      have hv : value true .w64 field = (zigZagEncode (BitVec.ofInt 64 field)).toNat := rfl
      have hn : value true .w64 field < 2 ^ 64 := (zigZagEncode (BitVec.ofInt 64 field)).isLt
      have hp : packVarInt true .w64 field = _ := packVarInt64_bytes hn
      refine ⟨10, 2 ^ 64, 56, fun v => (zigZagDecode (BitVec.ofNat 64 v)).toInt, le_rfl,
        by norm_num, ?_, ?_, ?_, hn, ?_, fun _ _ => rfl⟩
      · rw [hp]
        exact .packVarInt64 hn
      · rw [hp]
      · rw [hp]
        exact packVarInt_length (by norm_num) (lt_trans hn (by norm_num))
      · rw [hv, ofNat_toNat, zigZagDecode_encode]
        exact toInt_ofInt h le_rfl
    · have hv : value true w field = (zigZagEncode (BitVec.ofInt 32 field)).toNat := by
        rw [value, if_pos rfl, if_neg hw]
      have hn : value true w field < 2 ^ 32 := by
        rw [hv]
        exact (zigZagEncode (BitVec.ofInt 32 field)).isLt
      have hp : packVarInt true w field = (Dataunit.packVarInt32 (value true w field),
          (Dataunit.packVarInt32 (value true w field)).length) := by
        rw [packVarInt, if_pos ⟨rfl, hw⟩]
        exact packVarInt32_bytes hn
      have hbits : w.bits ≤ 32 := by cases w <;> first | decide | exact absurd rfl hw
      refine ⟨5, 2 ^ 32, 28, fun v => castTo true w (zigZagDecode (BitVec.ofNat 32 v)).toInt,
        by norm_num, by norm_num, ?_, ?_, ?_, hn, ?_, ?_⟩
      · rw [hp]
        exact .packVarInt32 hn
      · rw [hp]
      · rw [hp]
        exact packVarInt_length (by norm_num) (lt_trans hn (by norm_num))
      · rw [hv, ofNat_toNat, zigZagDecode_encode, toInt_ofInt h hbits, castTo_of_inRange h]
      · intro buf availableSize
        rw [unpackVarInt, if_pos rfl, if_neg hw]
        rfl

/-- **The codec keeps a number** that other bytes follow, and the size of a subunit. -/
structure Codec (signed : Bool) (w : Width) (field : Int) (size : Nat) (rest : List UInt8) :
    Prop where
  unpacked : unpackVarInt signed w ((packVarInt signed w field).1 ++ rest)
    (((packVarInt signed w field).1 ++ rest).length : Nat) =
      some (field, (packVarInt signed w field).2)
  truncated : ∀ l, l <+: (packVarInt signed w field).1 → l ≠ (packVarInt signed w field).1 →
    unpackVarInt signed w l (l.length : Nat) = none
  padded : unpackVarInt false .w32 (packSize size ++ rest) ((packSize size ++ rest).length : Nat) =
    some ((size : Int), 5)

theorem unpacked_iff {signed : Bool} {w : Width} {field : Int} (h : InRange signed w field)
    (rest : List UInt8) :
    unpackVarInt signed w ((packVarInt signed w field).1 ++ rest)
        (((packVarInt signed w field).1 ++ rest).length : Nat) =
        some (field, (packVarInt signed w field).2) ↔
      rest.length % 2 ^ 32 + varIntSize (value signed w field) < 2 ^ 31 := by
  obtain ⟨k, modulus, maxShift, read, c⟩ := coded h
  have hi := processed_eq_some_iff c.form c.room c.shift c.lt read rest
  rw [c.read_value, ← c.unpack, c.size] at hi
  rwa [c.returned, c.size]

theorem padded_iff {size : Nat} (h : size < 2 ^ 32) (rest : List UInt8) :
    unpackVarInt false .w32 (packSize size ++ rest) ((packSize size ++ rest).length : Nat) =
        some ((size : Int), 5) ↔
      rest.length % 2 ^ 32 + 5 < 2 ^ 31 := by
  have hi := processed_eq_some_iff (VarForm.packSize h) (by norm_num)
    (by norm_num : 7 * 5 ≤ 56 + 14) (lt_trans h (by norm_num) : size < 2 ^ 64)
    (fun v => castTo false .w32 v) rest
  have hc : castTo false .w32 size = size := castTo_of_inRange ⟨by omega, by simp [Width.bits]; omega⟩
  rwa [hc, packSize_length] at hi

/-- **The codec fails behind the limit of an `int`.**  It keeps a number and a size for just
those trailing bytes whose size, without the bits from 32 on, leaves the bytes of the number
and of the size below `2^31`. -/
theorem codec_iff {signed : Bool} {w : Width} {field : Int} {size : Nat}
    (hf : InRange signed w field) (hs : size < 2 ^ 32) (rest : List UInt8) :
    Codec signed w field size rest ↔
      rest.length % 2 ^ 32 + varIntSize (value signed w field) < 2 ^ 31 ∧
        rest.length % 2 ^ 32 + 5 < 2 ^ 31 := by
  constructor
  · intro h
    exact ⟨(unpacked_iff hf rest).mp h.unpacked, (padded_iff hs rest).mp h.padded⟩
  · rintro ⟨h1, h2⟩
    refine ⟨(unpacked_iff hf rest).mpr h1, ?_, (padded_iff hs rest).mpr h2⟩
    intro l hp hne
    obtain ⟨k, modulus, maxShift, read, c⟩ := coded hf
    rw [c.unpack]
    exact processed_prefix c.form read hp hne

/-- A number in front of a buffer of 300 bytes. -/
theorem codec_trailing : Codec true .w16 (-300) 128 (List.replicate 300 7) :=
  (codec_iff (by decide) (by decide) _).mpr (by
    rw [List.length_replicate, show value true .w16 (-300) = 599 by decide,
      show varIntSize 599 = 2 by decide]
    decide)

/-- A number of one byte in front of `2^31 - 1` bytes is not read. -/
theorem not_codec : ¬ Codec false .w8 1 0 (List.replicate (2 ^ 31 - 1) 0) := by
  intro h
  have hlt := (unpacked_iff (by decide) _).mp h.unpacked
  rw [List.length_replicate] at hlt
  have hpos : 1 ≤ varIntSize (value false .w8 1) := Nat.le_add_left 1 _
  omega

end Stream

end Hatn.Dataunit
