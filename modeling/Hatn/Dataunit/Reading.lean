import Hatn.Dataunit.Forms
import Hatn.Dataunit.Values
import Hatn.Dataunit.Runs

/-!
# Reading what was written

The readers of elements over the bytes that the writers produce, from numbers up to the
readers of units, over which the round trip is an induction.
-/

namespace Hatn.Dataunit

open Hatn.Common Hatn.Wire Hatn.Wire.Parser

/-- Buffers whose size is an `int` and below the fuel of the loops. -/
def Within (fuel : Nat) (buf : List UInt8) : Prop := buf.length < 2 ^ 31 ∧ buf.length < fuel

variable {fuel k n : Nat} {l : List UInt8} {env : Env}

/-! ### Numbers -/

theorem outcome_incCurrentOffset {o n : Nat} (ho : o < 2 ^ 63) (hn : n < 2 ^ 31) :
    (incCurrentOffset n).outcome o = .ok ((), o + n) := by
  rw [incCurrentOffset, outcome_seek, step_forward ho hn]

theorem outcome_readVarInt {unpack : List UInt8 → Int → VarInt} {buf : List UInt8} {o : Nat}
    (hb : (unpack (buf.drop o) ((buf.length : Int) - o)).broken = false) (ho : o < 2 ^ 63)
    (hn : (unpack (buf.drop o) ((buf.length : Int) - o)).processedSize < 2 ^ 31) :
    (readVarInt unpack buf).outcome o =
      .ok (unpack (buf.drop o) ((buf.length : Int) - o),
        o + (unpack (buf.drop o) ((buf.length : Int) - o)).processedSize) := by
  rw [readVarInt, outcome_bind_ok (outcome_offset o)]
  dsimp only
  rw [outcome_bind_ok (outcome_log _ o), hb, if_neg Bool.false_ne_true,
    outcome_bind_ok (outcome_incCurrentOffset ho hn)]
  rfl

/-- The bytes that are left behind an offset, as the readers count them. -/
theorem available {buf rest : List UInt8} {o : Nat} (hB : Within fuel buf) (ho : o ≤ buf.length)
    (h : buf.drop o = l ++ rest) : (l.length : Int) ≤ toInt ((buf.length : Int) - o) := by
  have hlt : buf.length < 2 ^ 31 := hB.1
  have hle := add_length_le_of_drop ho h
  rw [toInt_of_lt (by omega) (by omega)]
  omega

/-- **Varints.**  A reader that goes on with the number alone reads any of its forms. -/
theorem reads_form (fuel : Nat) {modulus maxShift : Nat} (h : VarForm k n l) (hs : 7 * k ≤ maxShift + 14)
    (hn : n < modulus) :
    Reads (Within fuel)
      (fun buf => readVarInt (fun l a => unpackLoop modulus maxShift (toInt a) l .start) buf) l
      (.ok ⟨n, l.length, 7 * (l.length - 1), false, false⟩) := by
  intro buf o rest hB ho hd
  have hlt : buf.length < 2 ^ 31 := hB.1
  have hle := add_length_le_of_drop ho hd
  have hv := h.unpackLoop_eq hs hn (available hB ho hd) rest
  have hr := @outcome_readVarInt (fun l a => unpackLoop modulus maxShift (toInt a) l .start) buf o
    (by rw [hd, hv]; rfl) (by omega) (by rw [hd, hv]; dsimp only; omega)
  rw [hd, hv] at hr
  exact hr

theorem reads_uint32 (h : VarForm 5 n l) (hn : n < 2 ^ 32) :
    Reads (Within fuel) (fun buf => readUint32 buf) l (.ok n) := by
  have hr := Reads.map (fun v : VarInt => v.value % 2 ^ 32)
    (reads_form fuel (h.mono (by norm_num : 5 ≤ 10)) (by norm_num : 7 * 10 ≤ 56 + 14)
      (lt_trans hn (by norm_num) : n < 2 ^ 64))
  have he : n % 2 ^ 32 = n := Nat.mod_eq_of_lt hn
  simp only [Except.map, he] at hr
  exact hr

theorem packUint32_form (n : Nat) : VarForm 5 (n % 2 ^ 32) (packUint32 n) :=
  VarForm.packVarInt (by norm_num) (lt_trans (Nat.mod_lt n (by norm_num)) (by norm_num)) 5

theorem reads_packUint32 (hn : n < 2 ^ 32) :
    Reads (Within fuel) (fun buf => readUint32 buf) (packUint32 n) (.ok n) := by
  have h := packUint32_form n
  rw [Nat.mod_eq_of_lt hn] at h
  exact reads_uint32 h hn

/-- `readVariable` of a number that was cut to 64 bits. -/
theorem reads_variable {signed : Bool} {w : Width} {z : Int} (hz : InRange signed w z)
    (h : VarForm k (z % 2 ^ 64).toNat l) (hk : k ≤ 10) :
    Reads (Within fuel) (fun buf => readVariable signed w buf) l (.ok z) := by
  have hpos : 0 ≤ z % 2 ^ 64 := Int.emod_nonneg z (by norm_num)
  have hlt : z % 2 ^ 64 < 2 ^ 64 := Int.emod_lt_of_pos z (by norm_num)
  have hr := Reads.map (fun v : VarInt => castTo signed w v.value)
    (reads_form fuel (h.mono hk) (by norm_num : 7 * 10 ≤ 56 + 14)
      (by omega : (z % 2 ^ 64).toNat < 2 ^ 64))
  have he : castTo signed w (((z % 2 ^ 64).toNat : Nat) : Int) = z := by
    rw [Int.toNat_of_nonneg hpos]
    exact castTo_emod hz
  simp only [Except.map, he] at hr
  exact hr

theorem reads_varInt64 {signed : Bool} {w : Width} {z : Int} (hz : InRange signed w z) :
    Reads (Within fuel) (fun buf => readVariable signed w buf)
      (packVarInt64 (z % 2 ^ 64).toNat) (.ok z) := by
  have hlt : z % 2 ^ 64 < 2 ^ 64 := Int.emod_lt_of_pos z (by norm_num)
  exact reads_variable hz (.packVarInt64 (by omega)) le_rfl

theorem ofNat_toNat {w : Nat} (x : BitVec w) : BitVec.ofNat w x.toNat = x := by
  rw [BitVec.ofNat_toNat, BitVec.setWidth_eq]

theorem toInt_ofInt {w : Width} {z : Int} (hz : InRange true w z) {m : Nat} (hw : w.bits ≤ m) :
    (BitVec.ofInt m z).toInt = z := by
  rw [BitVec.toInt_ofInt]
  have hpos := w.bits_pos
  have hle : (2 : Int) ^ (w.bits - 1) ≤ 2 ^ (m - 1) := pow_le_pow_right₀ (by norm_num) (by omega)
  have htwo : (2 : Int) ^ m = 2 * 2 ^ (m - 1) := by
    rw [← pow_succ', show m - 1 + 1 = m by omega]
  simp only [InRange, if_true] at hz
  apply Int.bmod_eq_of_le <;> push_cast <;> omega

theorem reads_zigZag {w : Width} {z : Int} (hz : InRange true w z) :
    Reads (Within fuel) (fun buf => readZigZag w buf) (scalarBytes (.zigZag w) z) (.ok z) := by
  by_cases hw : w = .w64
  · subst hw
    have hr := Reads.map (fun v : VarInt => (zigZagDecode (BitVec.ofNat 64 v.value)).toInt)
      (reads_form fuel
        (VarForm.packVarInt64 (zigZagEncode (BitVec.ofInt 64 z)).isLt)
        (by norm_num : 7 * 10 ≤ 56 + 14) (zigZagEncode (BitVec.ofInt 64 z)).isLt)
    have he : (BitVec.ofInt 64 z).toInt = z := toInt_ofInt hz le_rfl
    simp only [Except.map, ofNat_toNat, zigZagDecode_encode, he] at hr
    exact hr
  · have hr := Reads.map
      (fun v : VarInt => castTo true w (zigZagDecode (BitVec.ofNat 32 v.value)).toInt)
      (reads_form fuel
        (VarForm.packVarInt32 (zigZagEncode (BitVec.ofInt 32 z)).isLt)
        (by norm_num : 7 * 5 ≤ 28 + 14) (zigZagEncode (BitVec.ofInt 32 z)).isLt)
    have hbits : w.bits ≤ 32 := by cases w <;> first | decide | exact absurd rfl hw
    simp only [Except.map, ofNat_toNat, zigZagDecode_encode, toInt_ofInt hz hbits,
      castTo_of_inRange hz] at hr
    rw [scalarBytes, if_neg hw]
    simp only [readZigZag, if_neg hw]
    exact hr

theorem castTo_emod_bits {signed : Bool} {w : Width} {z : Int} (hz : InRange signed w z) :
    castTo signed w (z % 2 ^ w.bits) = z := by
  cases signed with
  | false =>
    simp only [castTo, InRange, Bool.false_eq_true, if_false] at hz ⊢
    rw [Int.emod_emod_of_dvd z dvd_rfl]
    exact Int.emod_eq_of_lt hz.1 hz.2
  | true =>
    have hc := castTo_of_inRange hz
    have hm := Int.emod_bmod (x := z) (n := 2 ^ w.bits)
    push_cast at hm
    rw [castTo, if_pos rfl] at hc ⊢
    rw [hm, hc]

theorem reads_fixed {signed : Bool} {w : Width} {z : Int} (hz : InRange signed w z) :
    Reads (Within fuel) (fun buf => readFixed signed w buf)
      (leBytes (w.bits / 8) (z % 2 ^ w.bits).toNat) (.ok z) := by
  intro buf o rest hB ho h
  have hlt : buf.length < 2 ^ 31 := hB.1
  have hle := add_length_le_of_drop ho h
  rw [leBytes_length] at hle
  have hbits : 256 ^ (w.bits / 8) = 2 ^ w.bits := by cases w <;> rfl
  have hpos : 0 ≤ z % 2 ^ w.bits := Int.emod_nonneg z (pow_ne_zero _ (by norm_num))
  have hnum : leNumber ((buf.drop o).take (w.bits / 8)) = (z % 2 ^ w.bits).toNat := by
    rw [h, List.take_left' (leBytes_length _ _), leNumber_leBytes, hbits]
    have hm : z % 2 ^ w.bits < 2 ^ w.bits := Int.emod_lt_of_pos z (by positivity)
    apply Nat.mod_eq_of_lt
    zify
    omega
  show (readFixed signed w buf).outcome o = _
  rw [readFixed, outcome_bind_ok (outcome_offset o),
    outcome_bind_ok (outcome_incCurrentOffset (by omega) (by omega)),
    outcome_bind_ok (outcome_offset _), if_neg (by omega), outcome_bind_ok (outcome_log _ _),
    hnum, Int.toNat_of_nonneg hpos, castTo_emod_bits hz, leBytes_length]
  rfl

theorem packUint32_toNat {z : Int} (hz : InRange false .w32 z) :
    VarForm 5 (z % 2 ^ 64).toNat (packUint32 z.toNat) := by
  simp only [InRange, Bool.false_eq_true, if_false] at hz
  have hlt : z < 2 ^ 32 := hz.2
  have h := packUint32_form z.toNat
  rw [Nat.mod_eq_of_lt (by omega)] at h
  rwa [Int.emod_eq_of_lt hz.1 (by omega)]

/-- **Scalars** are read as they were written. -/
theorem reads_scalar {t : ScalarType} {z : Int} (hz : t.Holds env z) :
    Reads (Within fuel) (fun buf => readScalar env buf t) (scalarBytes t z) (.ok z) := by
  cases t with
  | varInt signed w => exact reads_varInt64 hz
  | zigZag w => exact reads_zigZag hz
  | fixed32 signed => exact reads_fixed (w := .w32) hz
  | fixed64 signed => exact reads_fixed (w := .w64) hz
  | date =>
    exact (reads_variable hz.1 (packUint32_toNat hz.1) (by norm_num)).bind_nil fun n hn => by
      cases hn
      simpa only [if_pos hz.2] using Reads.pure z
  | time =>
    exact (reads_varInt64 hz.1).bind_nil fun n hn => by
      cases hn
      simpa only [if_pos hz.2] using Reads.pure z
  | dateTime =>
    exact (reads_varInt64 hz.1).bind_nil fun n hn => by
      cases hn
      simpa only [if_pos hz.2] using Reads.pure z
  | dateRange => exact reads_variable hz (packUint32_toNat hz) (by norm_num)

/-! ### Byte arrays and object ids -/

theorem reads_loadBytes {view : Bool} {l : List UInt8} (hl : l.length < 2 ^ 31) (buf : List UInt8)
    (o : Nat) (rest : List UInt8) (h : buf.drop o = l ++ rest) (o' : Nat) :
    (loadBytes view buf o (toInt l.length)).outcome o' = .ok (l, o') := by
  rw [loadBytes, outcome_bind_ok (outcome_log _ o'), toInt_of_lt (by omega) (by omega),
    if_pos (by omega), Int.toNat_natCast, h, List.take_left' rfl]
  rfl

theorem reads_takeBytes {view : Bool} {maxSize : Nat} {l : List UInt8}
    (hm : 0 < maxSize → l.length ≤ maxSize) (hl : l.length < 2 ^ 31) :
    Reads (Within fuel) (fun buf => takeBytes view maxSize buf l.length) l (.ok l) := by
  intro buf o rest hB ho h
  have hlt : buf.length < 2 ^ 31 := hB.1
  have hle := add_length_le_of_drop ho h
  have hcast : toInt (l.length : Nat) = l.length := toInt_of_lt (by omega) (by omega)
  show (takeBytes view maxSize buf l.length).outcome o = _
  rw [takeBytes, outcome_bind_ok (outcome_offset o), outcome_bind_ok (outcome_log _ o), hcast,
    if_neg (by rintro ⟨h0, h1⟩; have := hm h0; omega)]
  by_cases h0 : l.length = 0
  · rw [if_pos h0, List.eq_nil_of_length_eq_zero h0]
    rfl
  · rw [if_neg h0, outcome_bind_ok (outcome_incCurrentOffset (by omega) (by omega)),
      outcome_bind_ok (outcome_offset _), if_neg (by omega), ← hcast,
      reads_loadBytes hl buf o rest h]
    rfl

/-- **Byte arrays** are read as they were written. -/
theorem reads_bytes {view : Bool} {maxSize : Nat} {l : List UInt8}
    (hm : 0 < maxSize → l.length ≤ maxSize) (hl : l.length < 2 ^ 31) :
    Reads (Within fuel) (fun buf => readBytes view maxSize buf) (packUint32 l.length ++ l) (.ok l) :=
  (reads_packUint32 (by omega)).bind_ok (reads_takeBytes hm hl)

/-- **Object ids** whose parts fit are read as they were written. -/
theorem reads_objectId {x : ObjectId} (hx : x.Fits) :
    Reads (Within fuel) (fun buf => readObjectId buf)
      (packUint32 ObjectId.length ++ x.serialize) (.ok x) := by
  refine (reads_packUint32 (by decide)).bind_ok ?_
  intro buf o rest hB ho h
  have hlt : buf.length < 2 ^ 31 := hB.1
  have hlen := ObjectId.serialize_length x
  have hle := add_length_le_of_drop ho h
  rw [hlen] at hle
  show (takeObjectId buf ObjectId.length).outcome o = _
  rw [takeObjectId, outcome_bind_ok (outcome_offset o), outcome_bind_ok (outcome_log _ o),
    if_neg (by decide), if_neg (by decide),
    outcome_bind_ok (outcome_incCurrentOffset (by omega) (by decide)), loadObjectId,
    outcome_bind_ok (outcome_log _ _), if_neg (by decide), if_neg (by omega), h,
    List.take_left' hlen, ObjectId.parse_serialize hx, hlen]
  rfl

/-! ### Units -/

/-- The loop over the fields of a unit runs through their rounds. -/
theorem outcome_deserializeFields {α : Type} {find : List UInt8 → Nat → Option (UnitFieldParser α)}
    {fresh : α} {r : Except Failure α} {l : List UInt8}
    (h : Rounds (Within fuel) (fun x buf => fieldRound (find buf) buf x) l fresh r)
    (complete : α → Bool) {buf rest : List UInt8} {o : Nat} (hB : Within fuel buf)
    (ho : o ≤ buf.length) (hd : buf.drop o = l ++ rest) :
    (deserializeFields (find buf) complete buf fuel fresh (o + l.length)).outcome o =
      (r >>= fun x => if complete x then .ok x else .error .rejected).map
        (fun x => (x, o + l.length)) := by
  have hle := add_length_le_of_drop ho hd
  have hf : buf.length < fuel := hB.2
  have hloop : (untilOffset .exhausted (o + l.length) (fieldRound (find buf) buf) fuel fresh).outcome o =
      r.map (fun x => (x, o + l.length)) :=
    h.outcome_untilOffset buf o rest fuel hB ho hd (by omega)
  rw [deserializeFields]
  cases r with
  | error e =>
    rw [outcome_bind_error hloop]
    rfl
  | ok x =>
    rw [outcome_bind_ok hloop]
    show _ = Except.map _ (if complete x = true then _ else _)
    by_cases hc : complete x = true
    · rw [if_pos hc, if_pos hc]
      rfl
    · rw [if_neg hc, if_neg hc]
      rfl

/-- A unit is read through the rounds of its fields. -/
theorem reads_unit {α : Type} {find : List UInt8 → Nat → Option (UnitFieldParser α)}
    (complete : α → Bool) {fresh : α} {r : Except Failure α} {l : List UInt8}
    (h : Rounds (Within fuel) (fun x buf => fieldRound (find buf) buf x) l fresh r)
    (hl : l.length < 2 ^ 31) :
    Reads (Within fuel)
      (fun buf => readUnit (deserializeFields (find buf) complete buf fuel fresh) complete buf fresh)
      (unitBytes l) (r >>= fun x => if complete x then .ok x else .error .rejected) := by
  refine (reads_uint32 (.packSize (by omega)) (by omega)).bind_ok ?_
  intro buf o rest hB ho hd
  have hle := add_length_le_of_drop ho hd
  show (takeUnit _ complete buf fresh l.length).outcome o = _
  rw [takeUnit, outcome_bind_ok (outcome_offset o), outcome_bind_ok (outcome_log _ o)]
  by_cases h0 : l.length = 0
  · obtain rfl : l = [] := List.eq_nil_of_length_eq_zero h0
    rw [if_pos h0, h.eq_ok_of_nil]
    show _ = Except.map _ (if complete fresh = true then _ else _)
    by_cases hc : complete fresh = true
    · rw [if_pos hc, if_pos hc]
      rfl
    · rw [if_neg hc, if_neg hc]
      rfl
  · rw [if_neg h0, if_neg (by omega)]
    exact outcome_deserializeFields h complete hB ho hd

/-! ### Rounds of the field loop -/

/-- The tag of a field has 32 bits and is not 0, which no tag may be. -/
def TagFits (id : Nat) (type : WireType) : Prop := id < 2 ^ 29 ∧ (id ≠ 0 ∨ type ≠ .varInt)

theorem tag_eq (id : Nat) (type : WireType) : id <<< 3 ||| type.num = 8 * id + type.num := by
  have h8 : type.num < 2 ^ 3 := by cases type <;> decide
  rw [Nat.shiftLeft_eq, Nat.mul_comm, ← Nat.two_pow_add_eq_or_of_lt h8]

theorem reads_tag {id : Nat} {type : WireType} (h : TagFits id type) :
    Reads (Within fuel) (fun buf => readUint32 buf) (tagBytes id type) (.ok (8 * id + type.num)) := by
  have h8 : type.num < 8 := by cases type <;> decide
  have hid : id < 2 ^ 29 := h.1
  rw [tagBytes, tag_eq]
  exact reads_packUint32 (by omega)

section
variable {α : Type} {find : List UInt8 → Nat → Option (UnitFieldParser α)} {id : Nat}
  {type : WireType} {x : α} {r : Except Failure α}

/-- What a step of the loop does behind the tag. -/
theorem reads_round (ht : TagFits id type)
    (h : ∀ start, Reads (Within fuel) (fun buf =>
      match find buf id with
      | some parser => if parser.wireType.num ≠ type.num then reject else parser.fn x
      | none => do
        skipField start type.num buf
        return x) l r) :
    Reads (Within fuel) (fun buf => fieldRound (find buf) buf x) (tagBytes id type ++ l) r := by
  have h8 : type.num < 8 := by cases type <;> decide
  have hshift : (8 * id + type.num) >>> 3 = id := by
    rw [Nat.shiftRight_eq_div_pow]
    omega
  have hand : (8 * id + type.num) &&& 7 = type.num := by
    rw [show 7 = 2 ^ 3 - 1 by rfl, Nat.and_two_pow_sub_one_eq_mod]
    omega
  have hne : 8 * id + type.num ≠ 0 := by
    rcases ht.2 with hid | htype
    · omega
    · cases type <;> simp [WireType.num] at htype ⊢
  have hstep : Reads (Within fuel) (fun buf => fieldStep (find buf) buf x) (tagBytes id type ++ l) r := by
    refine Reads.offset_bind fun start => (reads_tag ht).bind_ok ?_
    simp only [if_neg hne, hshift, hand]
    exact h start
  refine Reads.offset_bind fun start => ?_
  have hr : Reads (Within fuel)
      (fun buf => do
        let y ← fieldStep (find buf) buf x
        let stop ← offset
        log (.iteration start stop)
        return y) (tagBytes id type ++ l) (r >>= .ok) :=
    hstep.bind_nil fun y _ =>
      Reads.offset_bind fun stop => Reads.log_bind (.iteration start stop) (Reads.pure y)
  cases r <;> exact hr

/-- **A round over a field that the unit has.** -/
theorem reads_known {parser : List UInt8 → UnitFieldParser α} (ht : TagFits id type)
    (hf : ∀ buf, find buf id = some (parser buf)) (hw : ∀ buf, (parser buf).wireType = type)
    (h : Reads (Within fuel) (fun buf => (parser buf).fn x) l r) :
    Reads (Within fuel) (fun buf => fieldRound (find buf) buf x) (tagBytes id type ++ l) r := by
  refine reads_round ht fun start => ?_
  simp only [hf, hw, ne_eq, not_true, if_false]
  exact h

/-- **A round over a field that the unit does not have.** -/
theorem reads_unknown (ht : TagFits id type) (hf : ∀ buf, find buf id = none)
    (h : ∀ start, Reads (Within fuel) (fun buf => skipField start type.num buf) l (.ok ())) :
    Reads (Within fuel) (fun buf => fieldRound (find buf) buf x) (tagBytes id type ++ l) (.ok x) := by
  refine reads_round ht fun start => ?_
  simp only [hf]
  exact Reads.map (fun _ => x) (h start)

end

theorem tagBytes_append_ne_nil (id : Nat) (type : WireType) (l : List UInt8) :
    tagBytes id type ++ l ≠ [] :=
  List.append_ne_nil_of_left_ne_nil (List.length_pos_iff.mp (packUint32_form _).length_pos) l

/-! ### Map items -/

theorem reads_mapDatum {t : MapType} {d : Datum} (hd : t.Holds d) (he : mapDatumBytes t d = some l)
    (hl : l.length < 2 ^ 31) :
    Reads (Within fuel) (fun buf => readMapDatum buf t) l (.ok d) := by
  match t, d with
  | .int signed w, .num n =>
    cases he
    exact Reads.map Datum.num (reads_varInt64 hd)
  | .string, .bytes x =>
    cases he
    rw [List.length_append] at hl
    exact Reads.map Datum.bytes (reads_bytes (fun h => absurd h (lt_irrefl 0)) (by omega))
  | .int _ _, .bytes _ | .int _ _, .oid _ | .string, .num _ | .string, .oid _ | .other, _ =>
    exact hd.elim

/-- **Map items** are read as they were written. -/
theorem reads_mapItem {key value : MapType} {e : Datum × Datum} (hk : key.Holds e.1)
    (hv : value.Holds e.2) (he : mapItemBytes key value e = some l) (hl : l.length < 2 ^ 31) :
    Reads (Within fuel)
      (fun buf => readUnit (deserializeFields (mapItemParser key value buf) (fun _ => true) buf fuel
        (key.fresh, value.fresh)) (fun _ => true) buf (key.fresh, value.fresh)) l (.ok e) := by
  obtain ⟨k, hke, he⟩ := Option.bind_eq_some_iff.mp he
  obtain ⟨v, hve, he⟩ := Option.bind_eq_some_iff.mp he
  cases he
  simp only [unitBytes, List.length_append] at hl
  have h1 : Reads (Within fuel)
      (fun buf => fieldRound (mapItemParser key value buf) buf (key.fresh, value.fresh))
      (tagBytes 1 key.wireType ++ k) (.ok (e.1, value.fresh)) :=
    reads_known ⟨by norm_num, .inl (by norm_num)⟩ (fun _ => rfl) (fun _ => rfl)
      (Reads.map (fun k => (k, value.fresh)) (reads_mapDatum hk hke (by omega)))
  have h2 : Reads (Within fuel)
      (fun buf => fieldRound (mapItemParser key value buf) buf (e.1, value.fresh))
      (tagBytes 2 value.wireType ++ v) (.ok e) :=
    reads_known ⟨by norm_num, .inl (by norm_num)⟩ (fun _ => rfl) (fun _ => rfl)
      (Reads.map (fun v => (e.1, v)) (reads_mapDatum hv hve (by omega)))
  have hr : Rounds (Within fuel) (fun x buf => fieldRound (mapItemParser key value buf) buf x)
      (tagBytes 1 key.wireType ++ k ++ (tagBytes 2 value.wireType ++ v)) (key.fresh, value.fresh)
      (.ok e) :=
    .cons (tagBytes_append_ne_nil _ _ _) h1
      (.single (tagBytes_append_ne_nil _ _ _) h2)
  exact reads_unit (fun _ => true) hr (by simp only [List.length_append]; omega)

/-! ### Repeated elements -/

/-- The forms of an item have some bytes at least, which a reader sees as `seen`. -/
def ReadsItem {α β : Type} (fuel : Nat) (element : List UInt8 → Reader β)
    (form : α → List UInt8 → Prop) (seen : α → Except Failure β) (a : α) : Prop :=
  ∀ l, form a l → l.length < 2 ^ 31 → l ≠ [] ∧ Reads (Within fuel) element l (seen a)

theorem encodeAll_cons {α : Type} {encode : α → Option (List UInt8)} {a : α} {as : List α}
    (h : encodeAll encode (a :: as) = some l) :
    ∃ x y, encode a = some x ∧ encodeAll encode as = some y ∧ l = x ++ y := by
  obtain ⟨x, hx, h⟩ := Option.bind_eq_some_iff.mp h
  obtain ⟨y, hy, h⟩ := Option.bind_eq_some_iff.mp h
  exact ⟨x, y, hx, hy, (Option.some.inj h).symm⟩

section
variable {element : List UInt8 → Reader Value} {form : Value → List UInt8 → Prop}
  {elementSeen : Value → Except Failure Value}

theorem reads_elements : ∀ {vs : List (Option Value)} {l : List UInt8},
    (∀ v, some v ∈ vs → ReadsItem fuel element form elementSeen v) → none ∉ vs →
    AllForm (fun (v : Option Value) x =>
      match v with
      | some v => form v x
      | none => x = []) vs l → l.length < 2 ^ 31 →
    vs.length ≤ l.length ∧
      Reads (Within fuel) (fun buf => times (element buf) vs.length) l
        (elementsSeen elementSeen vs) := by
  intro vs
  induction vs with
  | nil =>
    intro l _ _ h _
    cases h
    exact ⟨le_rfl, Reads.pure []⟩
  | cons v vs ih =>
    intro l hv hn h hl
    obtain ⟨x, y, hx, hy, rfl⟩ := h
    rw [List.length_append] at hl
    cases v with
    | none => exact absurd (by simp) hn
    | some v =>
      obtain ⟨hne, hr⟩ := hv v (by simp) x hx (by omega)
      obtain ⟨hlen, hrs⟩ := ih (fun w hw => hv w (List.mem_cons_of_mem _ hw))
        (fun h => hn (List.mem_cons_of_mem _ h)) hy (by omega)
      have hpos : 0 < x.length := List.length_pos_iff.mpr hne
      refine ⟨?_, Reads.times_succ hr hrs⟩
      rw [List.length_append, List.length_cons]
      omega

/-- **Counted elements** are read as they are seen. -/
theorem reads_counted {vs : List (Option Value)}
    (hv : ∀ v, some v ∈ vs → ReadsItem fuel element form elementSeen v) (hn : none ∉ vs)
    (h : AllForm (fun (v : Option Value) x =>
      match v with
      | some v => form v x
      | none => x = []) vs l) (hl : l.length < 2 ^ 31) :
    Reads (Within fuel)
      (fun buf => do
        let count ← readUint32 buf
        takeCounted (element buf) buf count)
      (packUint32 vs.length ++ l)
      (do let us ← elementsSeen elementSeen vs; return .repeated (us.map some)) := by
  obtain ⟨hlen, hr⟩ := reads_elements hv hn h hl
  refine (reads_packUint32 (by omega)).bind_ok ?_
  intro buf o rest hB ho hd
  have hle := add_length_le_of_drop ho hd
  have hm := Reads.map (fun us : List Value => FieldValue.repeated (us.map some)) hr
  show (takeCounted (element buf) buf vs.length).outcome o = _
  rw [takeCounted, outcome_bind_ok (outcome_offset o), if_neg (by omega), if_neg (by omega)]
  have ho := hm buf o rest hB ho hd
  cases hs : elementsSeen elementSeen vs <;> rw [hs] at ho <;> exact ho

end

theorem scalarBytes_ne_nil (t : ScalarType) (n : Int) : scalarBytes t n ≠ [] := by
  have h : ∀ k m, packVarInt (k + 1) m ≠ [] := by
    intro k m
    rw [packVarInt]
    split <;> simp
  cases t with
  | zigZag w =>
    rw [scalarBytes]
    split
    · exact h 9 _
    · exact h 4 _
  | fixed32 | fixed64 => exact List.ne_nil_of_length_pos (by simp [scalarBytes])
  | varInt | date | time | dateTime | dateRange => exact h 9 _

theorem rounds_packed {t : ScalarType} : ∀ {vs done : List (Option Value)} {l : List UInt8},
    (∀ v ∈ vs, ∃ n, v = some (.datum (.num n)) ∧ t.Holds env n) →
    encodeAll (packedItem t) vs = some l →
    Rounds (Within fuel) (fun x buf => packedRound (readScalar env buf t) x) l done
      (.ok (done ++ vs)) := by
  intro vs
  induction vs with
  | nil =>
    intro done l _ h
    cases h
    rw [List.append_nil]
    exact .nil
  | cons v vs ih =>
    intro done l hv h
    obtain ⟨x, y, hx, hy, rfl⟩ := encodeAll_cons h
    obtain ⟨n, rfl, hn⟩ := hv v (by simp)
    cases hx
    refine .cons (scalarBytes_ne_nil t n)
      (Reads.map (fun n => done ++ [some (.datum (.num n))]) (reads_scalar hn)) ?_
    rw [List.append_cons]
    exact ih (fun w hw => hv w (List.mem_cons_of_mem _ hw)) hy

theorem packedItem_ne_nil {t : ScalarType} {v : Option Value} (h : packedItem t v = some l) :
    l ≠ [] := by
  match v with
  | some (.datum (.num n)) =>
    cases h
    exact scalarBytes_ne_nil t n
  | some (.datum (.bytes _)) | some (.datum (.oid _)) | some (.unit _) | none => cases h

/-- Packed scalars have a length in front if there are any. -/
theorem packedBytes_eq {t : ScalarType} {vs : List (Option Value)} (hne : vs ≠ [])
    (h : encodeAll (packedItem t) vs = some l) : packedBytes l = packVarInt32 l.length ++ l := by
  obtain ⟨v, vs, rfl⟩ := List.exists_cons_of_ne_nil hne
  obtain ⟨x, y, hx, -, rfl⟩ := encodeAll_cons h
  have hpos : 0 < x.length := List.length_pos_iff.mpr (packedItem_ne_nil hx)
  rw [packedBytes, if_neg (by rw [List.length_append]; omega)]

/-- **Packed scalars** are read as they were written, if there are any. -/
theorem reads_packed {t : ScalarType} {vs : List (Option Value)} (hne : vs ≠ [])
    (hv : ∀ v ∈ vs, ∃ n, v = some (.datum (.num n)) ∧ t.Holds env n)
    (h : encodeAll (packedItem t) vs = some l) (hl : l.length < 2 ^ 31) :
    Reads (Within fuel)
      (fun buf => do
        let length ← readUint32 buf
        takePacked (readScalar env buf t) buf fuel length)
      (packedBytes l) (.ok (.repeated vs)) := by
  rw [packedBytes_eq hne h]
  refine (reads_uint32 (.packVarInt32 (by omega)) (by omega)).bind_ok ?_
  intro buf o rest hB ho hd
  have hle := add_length_le_of_drop ho hd
  have hf : buf.length < fuel := hB.2
  have hrounds : Rounds (Within fuel) (fun x buf => packedRound (readScalar env buf t) x) l []
      (.ok vs) := rounds_packed hv h
  show (takePacked (readScalar env buf t) buf fuel l.length).outcome o = _
  rw [takePacked, outcome_bind_ok (outcome_offset o), outcome_bind_ok (outcome_log _ o),
    if_neg (by omega), outcome_bind_ok (hrounds.outcome_untilOffset buf o rest fuel hB ho hd
      (by omega))]
  rfl

/-! ### Fields -/

/-- The unit has a field `id` of the kind `k`; `set v` is the unit with `v` in its place. -/
def Slot {α : Type} (env : Env) (fuel : Nat) (find : List UInt8 → Nat → Option (UnitFieldParser α))
    (id : Nat) (k : FieldKind) (set : FieldValue → α) : Prop :=
  ∀ buf, ∃ p, find buf id = some p ∧ p.wireType = k.wireType ∧
    ∀ v, p.fn (set v) = (do let u ← k.deserialize env buf fuel v; return set u)

section
variable {α : Type} {find : List UInt8 → Nat → Option (UnitFieldParser α)} {id : Nat}
  {set : FieldValue → α}

theorem Slot.reads {k : FieldKind} (h : Slot env fuel find id k set) (ht : TagFits id k.wireType)
    (v : FieldValue) {r : Except Failure FieldValue}
    (hr : Reads (Within fuel) (fun buf => k.deserialize env buf fuel v) l r) :
    Reads (Within fuel) (fun buf => fieldRound (find buf) buf (set v))
      (tagBytes id k.wireType ++ l) (r.map set) := by
  choose p hf hw hp using h
  refine reads_known ht hf hw ?_
  simp only [hp]
  exact Reads.map set hr

/-- **Elements with a tag each** take a round each. -/
theorem Slot.rounds_unpacked {t : ElemType} (h : Slot env fuel find id (.unpacked t) set)
    (ht : TagFits id t.wireType) {elementSeen : Value → Except Failure Value} :
    ∀ {vs : List (Option Value)} (v₀ : FieldValue) {l : List UInt8},
    (∀ v, some v ∈ vs →
      ReadsItem fuel (fun buf => t.read env buf fuel t.fresh) t.Form elementSeen v) →
    none ∉ vs →
    AllForm (fun (v : Option Value) x =>
      match v with
      | some v => ∃ y, t.Form v y ∧ x = tagBytes id t.wireType ++ y
      | none => x = tagBytes id t.wireType) vs l → l.length < 2 ^ 31 →
    Rounds (Within fuel) (fun x buf => fieldRound (find buf) buf x) l (set v₀)
      (do
        let us ← elementsSeen elementSeen vs
        return set (if vs.isEmpty then v₀ else .repeated (v₀.elements ++ us.map some))) := by
  intro vs
  induction vs with
  | nil =>
    intro v₀ l _ _ he _
    cases he
    exact .nil
  | cons v vs ih =>
    intro v₀ l hv hn he hl
    obtain ⟨x, y, hx, hy, rfl⟩ := he
    rw [List.length_append] at hl
    cases v with
    | none => exact absurd (by simp) hn
    | some v =>
      obtain ⟨b, hb, rfl⟩ := hx
      rw [List.length_append] at hl
      obtain ⟨-, hr⟩ := hv v (by simp) b hb (by omega)
      have hround := h.reads ht v₀
        (Reads.map (fun u => FieldValue.repeated (v₀.elements ++ [some u])) hr)
      have hne : tagBytes id t.wireType ++ b ≠ [] :=
        tagBytes_append_ne_nil _ _ _
      rw [elementsSeen]
      cases hs : elementSeen v with
      | error e =>
        rw [hs] at hround
        exact .fail hne hround
      | ok u =>
        rw [hs] at hround
        have hrest := ih (.repeated (v₀.elements ++ [some u]))
          (fun w hw => hv w (List.mem_cons_of_mem _ hw)) (fun h => hn (List.mem_cons_of_mem _ h)) hy
          (by omega)
        refine .cons hne hround ?_
        cases hus : elementsSeen elementSeen vs with
        | error e =>
          rw [hus] at hrest
          exact hrest
        | ok us =>
          rw [hus] at hrest
          cases vs with
          | nil =>
            cases hus
            exact hrest
          | cons w ws =>
            have hj : (FieldValue.repeated (v₀.elements ++ [some u])).elements ++ us.map some =
                v₀.elements ++ (u :: us).map some := by
              rw [FieldValue.elements, List.append_assoc]
              rfl
            have hset : Rounds (Within fuel) (fun x buf => fieldRound (find buf) buf x) y
                (set (.repeated (v₀.elements ++ [some u])))
                (.ok (set (.repeated ((FieldValue.repeated (v₀.elements ++ [some u])).elements ++
                  us.map some)))) := hrest
            rw [hj] at hset
            exact hset

/-- A key behind all the others is put at the end. -/
theorem emplace_of_lt {k v : Datum} : ∀ {l : List (Datum × Datum)},
    (∀ e ∈ l, e.1.lt k = true) → emplace k v l = l ++ [(k, v)] := by
  intro l
  induction l with
  | nil => intro _; rfl
  | cons e l ih =>
    intro h
    rw [emplace, if_pos (h e (by simp)), ih fun e' he' => h e' (List.mem_cons_of_mem _ he')]
    rfl

/-- **The items of a map** take a round each. -/
theorem Slot.rounds_map {key value : MapType} (h : Slot env fuel find id (.map key value) set)
    (ht : TagFits id .withLength) :
    ∀ {es : List (Datum × Datum)} (v₀ : FieldValue) {l : List UInt8},
    (∀ e ∈ es, key.Holds e.1 ∧ value.Holds e.2) →
    es.Pairwise (fun a b => a.1.lt b.1 = true) →
    (∀ a ∈ v₀.entries, ∀ e ∈ es, a.1.lt e.1 = true) →
    encodeAll (fun e => (mapItemBytes key value e).map (tagBytes id .withLength ++ ·)) es = some l →
    l.length < 2 ^ 31 →
    Rounds (Within fuel) (fun x buf => fieldRound (find buf) buf x) l (set v₀)
      (.ok (set (if es.isEmpty then v₀ else .map (v₀.entries ++ es)))) := by
  intro es
  induction es with
  | nil =>
    intro v₀ l _ _ _ he _
    cases he
    exact .nil
  | cons e es ih =>
    intro v₀ l hv hs hlt he hl
    obtain ⟨x, y, hx, hy, rfl⟩ := encodeAll_cons he
    obtain ⟨b, hb, rfl⟩ := Option.map_eq_some_iff.mp hx
    rw [List.length_append, List.length_append] at hl
    obtain ⟨hk, hval⟩ := hv e (by simp)
    have hround := h.reads ht v₀
      (Reads.map (fun e => FieldValue.map (emplace e.1 e.2 v₀.entries))
        (reads_mapItem hk hval hb (by omega)))
    have hend : emplace e.1 e.2 v₀.entries = v₀.entries ++ [e] :=
      emplace_of_lt fun a ha => hlt a ha e (by simp)
    simp only [Except.map, hend] at hround
    rw [List.pairwise_cons] at hs
    have hrest := ih (.map (v₀.entries ++ [e])) (fun a ha => hv a (List.mem_cons_of_mem _ ha))
      hs.2 (by
        intro a ha e' he'
        rcases List.mem_append.mp ha with ha | ha
        · exact hlt a ha e' (List.mem_cons_of_mem _ he')
        · rw [List.mem_singleton.mp ha]
          exact hs.1 e' he') hy (by omega)
    refine .cons (tagBytes_append_ne_nil _ _ _) hround ?_
    cases es with
    | nil => exact hrest
    | cons e' es =>
      have hj : (FieldValue.map (v₀.entries ++ [e])).entries ++ e' :: es =
          v₀.entries ++ e :: e' :: es := by
        rw [FieldValue.entries, List.append_assoc]
        rfl
      rw [List.isEmpty_cons, if_neg Bool.false_ne_true, hj] at hrest
      exact hrest

end

end Hatn.Dataunit
