import Hatn.Dataunit.VarInts

/-!
# Varints of 32 bits

`unpackVarInt32` and the reader of unknown fields in `visitors::deserialize` collect a number of 32
bits.  The loop compares its shift with the maximum after a byte was added, so that it goes on with
a sixth byte, which it shifts by 35 bits; and of the fifth byte the bits above 32 are lost
(`reader_inRange_iff`).
-/

namespace Hatn.Dataunit

open Common

/-- The amounts that the bytes are shifted by in `unpackLoop`. -/
def unpackShifts (modulus maxShift : Nat) (availableSize : Int) : List UInt8 → VarInt → List Nat
  | [], _ => []
  | b :: rest, s =>
    if availableSize ≤ s.processedSize then []
    else if !(s.addByte modulus b).moreBytesLeft then [s.shift]
    else if maxShift < s.shift then [s.shift]
    else s.shift :: unpackShifts modulus maxShift availableSize rest (s.addByte modulus b).next

/-- The loops over numbers of 32 bits: `unpackVarInt32`, and the one of `visitors::deserialize`
over an unknown field that is a number or has a length. -/
inductive VarIntReader
  | unpackVarInt32
  | unknownVarInt
  | unknownWithLength
  deriving DecidableEq

namespace VarIntReader

/-- The maximum of the shift. -/
def maxShift : VarIntReader → Nat
  | unpackVarInt32 => 28
  | _ => 56

/-- The loop over all bytes that are there. -/
def read (reader : VarIntReader) (buf : List UInt8) : VarInt :=
  match reader with
  | unpackVarInt32 => Dataunit.unpackVarInt32 buf buf.length
  | _ => unpackUnknown buf buf.length

/-- The shifts in the loop. -/
def shifts (reader : VarIntReader) (buf : List UInt8) : List Nat :=
  unpackShifts (2 ^ 32) reader.maxShift (toInt buf.length) buf .start

/-- No byte is missing, and a length is not shifted too far. -/
def accepts (reader : VarIntReader) (v : VarInt) : Bool :=
  !v.broken && (reader != unknownWithLength || v.shift ≤ 28)

theorem read_eq (reader : VarIntReader) (buf : List UInt8) :
    reader.read buf = unpackLoop (2 ^ 32) reader.maxShift (toInt buf.length) buf .start := by
  cases reader <;> rfl

/-- **The law of the readers**: no byte is shifted by 32 bits or more, and what is accepted is a
form with at most five bytes of the number that is read. -/
structure InRange (reader : VarIntReader) (buf : List UInt8) : Prop where
  shift_lt : ∀ shift ∈ reader.shifts buf, shift < 32
  form : reader.accepts (reader.read buf) = true →
    (reader.read buf).value < 2 ^ 32 ∧
      VarForm 5 (reader.read buf).value (buf.take (reader.read buf).processedSize)

end VarIntReader

/-- There are `k` bytes and more, and each of the first `k` says that another one follows. -/
def Continued (buf : List UInt8) (k : Nat) : Prop :=
  k ≤ buf.length ∧ ∀ b ∈ buf.take k, 128 ≤ b.toNat

instance (buf : List UInt8) (k : Nat) : Decidable (Continued buf k) :=
  inferInstanceAs (Decidable (_ ∧ _))

/-- There is not a sixth byte of the number, and the fifth one ends a number of 32 bits. -/
structure FitsIn32 (buf : List UInt8) : Prop where
  no_sixth : ¬ (Continued buf 5 ∧ 6 ≤ toInt buf.length)
  fifth : Continued buf 4 → 5 ≤ toInt buf.length → ∀ b, buf[4]? = some b → b.toNat < 128 →
    b.toNat < 16

/-! ### The loop -/

theorem continued_cons {b : UInt8} {l : List UInt8} {k : Nat} :
    Continued (b :: l) (k + 1) ↔ 128 ≤ b.toNat ∧ Continued l k := by
  simp only [Continued, List.length_cons, Nat.add_le_add_iff_right, List.take_succ_cons,
    List.forall_mem_cons]
  exact and_left_comm

section
variable {modulus maxShift : Nat} {a : Int}

/-- Each byte that is processed is shifted seven bits further than the one before. -/
theorem unpackShifts_eq : ∀ (l : List UInt8) (s : VarInt),
    unpackShifts modulus maxShift a l s =
      (List.range ((unpackLoop modulus maxShift a l s).processedSize - s.processedSize)).map
        fun i => s.shift + 7 * i := by
  intro l
  induction l with
  | nil =>
    intro s
    simp [unpackShifts, unpackLoop]
  | cons b l ih =>
    intro s
    have hle := (unpackLoop_processed modulus maxShift a l (s.addByte modulus b).next).1
    rw [unpackShifts, unpackLoop, ih]
    rw [next_processedSize, addByte_processedSize] at hle ⊢
    split_ifs
    · simp
    · simp
    · simp
    · obtain ⟨n, hn⟩ := Nat.exists_eq_add_of_le hle
      rw [hn, Nat.add_sub_cancel_left, Nat.add_assoc, Nat.add_sub_cancel_left, Nat.add_comm 1,
        List.range_succ_eq_map, List.map_cons, List.map_map]
      congr 1
      refine List.map_congr_left fun i _ => ?_
      rw [next_shift, addByte_shift, Function.comp_apply]
      omega

/-- More than `k` bytes are processed where the first `k` go on and another one is there. -/
theorem lt_processed_iff : ∀ (k : Nat) (l : List UInt8) (s : VarInt),
    s.shift + 7 * k ≤ maxShift + 7 →
      (s.processedSize + k < (unpackLoop modulus maxShift a l s).processedSize ↔
        Continued l k ∧ k < l.length ∧ (s.processedSize + k : Int) < a) := by
  intro k
  induction k with
  | zero =>
    intro l s _
    cases l with
    | nil => simp [unpackLoop]
    | cons b l =>
      have hle := (unpackLoop_processed modulus maxShift a l (s.addByte modulus b).next).1
      rw [next_processedSize, addByte_processedSize] at hle
      have hcontinued : Continued (b :: l) 0 := ⟨Nat.zero_le _, List.forall_mem_nil _⟩
      rw [unpackLoop, List.length_cons]
      split_ifs with ha
      · exact iff_of_false (by simp) fun h => by omega
      · exact iff_of_true (by rw [addByte_processedSize]; omega)
          ⟨hcontinued, Nat.succ_pos _, by omega⟩
      · exact iff_of_true (by rw [addByte_processedSize]; omega)
          ⟨hcontinued, Nat.succ_pos _, by omega⟩
      · exact iff_of_true (by omega) ⟨hcontinued, Nat.succ_pos _, by omega⟩
  | succ k ih =>
    intro l s hs
    cases l with
    | nil => simp [unpackLoop]
    | cons b l =>
      rw [unpackLoop, List.length_cons, continued_cons, addByte_more]
      by_cases ha : a ≤ s.processedSize
      · rw [if_pos ha]
        exact iff_of_false (by simp) fun h => by omega
      · rw [if_neg ha]
        by_cases hb : 128 ≤ b.toNat
        · have hshift : ¬ maxShift < s.shift := by omega
          rw [decide_eq_true hb, if_neg (by decide), if_neg hshift]
          have ih := ih l (s.addByte modulus b).next (by rw [next_shift, addByte_shift]; omega)
          rw [next_processedSize, addByte_processedSize, Nat.add_assoc, Nat.add_comm 1] at ih
          rw [ih, and_iff_right hb, Nat.add_lt_add_iff_right]
          push_cast
          rw [add_assoc, add_comm (1 : Int)]
        · rw [decide_eq_false hb, if_pos (by decide)]
          exact iff_of_false (by simp) fun h => hb h.1.1

/-- What is read without a byte missing are the bytes of some digits. -/
theorem exists_digits : ∀ (l : List UInt8) (s : VarInt),
    (unpackLoop modulus maxShift a l s).broken = false →
      ∃ ds rest, ds ≠ [] ∧ (∀ d ∈ ds, d < 128) ∧ l = varBytes ds ++ rest ∧
        (unpackLoop modulus maxShift a l s).processedSize = s.processedSize + ds.length := by
  intro l
  induction l with
  | nil =>
    intro s h
    simp [unpackLoop, VarInt.broken] at h
  | cons b l ih =>
    intro s h
    rw [unpackLoop] at h ⊢
    by_cases ha : a ≤ s.processedSize
    · rw [if_pos ha] at h
      simp [VarInt.broken] at h
    · rw [if_neg ha] at h ⊢
      by_cases hb : 128 ≤ b.toNat
      · have hmore : (s.addByte modulus b).moreBytesLeft = true := by
          rw [addByte_more, decide_eq_true hb]
        rw [hmore, if_neg (by decide)] at h ⊢
        split at h
        next hshift =>
          rw [VarInt.broken, hmore, Bool.or_true] at h
          cases h
        next hshift =>
          rw [if_neg hshift]
          obtain ⟨ds, rest, hne, hd, rfl, hsize⟩ := ih _ h
          obtain ⟨d, ds, rfl⟩ := List.exists_cons_of_ne_nil hne
          have hlt : b.toNat - 128 < 128 := by
            have := b.toNat_lt
            omega
          refine ⟨(b.toNat - 128) :: d :: ds, rest, List.cons_ne_nil _ _, ?_, ?_, ?_⟩
          · exact List.forall_mem_cons.mpr ⟨hlt, hd⟩
          · have hbyte : b.toNat - 128 + 128 = b.toNat := Nat.sub_add_cancel hb
            rw [varBytes, hbyte, UInt8.ofNat_toNat, List.cons_append]
          · rw [hsize, next_processedSize, addByte_processedSize]
            simp only [List.length_cons]
            omega
      · have hmore : (s.addByte modulus b).moreBytesLeft = false := by
          rw [addByte_more, decide_eq_false hb]
        rw [hmore, if_pos (by decide)] at h ⊢
        refine ⟨[b.toNat], l, List.cons_ne_nil _ _, ?_, ?_, rfl⟩
        · exact List.forall_mem_singleton.mpr (Nat.lt_of_not_le hb)
        · rw [varBytes, UInt8.ofNat_toNat, List.singleton_append]

end

/-! ### The readers -/

theorem varBytes_five {b0 b1 b2 b3 b4 : UInt8} (h0 : 128 ≤ b0.toNat) (h1 : 128 ≤ b1.toNat)
    (h2 : 128 ≤ b2.toNat) (h3 : 128 ≤ b3.toNat) :
    [b0, b1, b2, b3, b4] = varBytes [b0.toNat - 128, b1.toNat - 128, b2.toNat - 128,
      b3.toNat - 128, b4.toNat] := by
  simp only [varBytes, Nat.sub_add_cancel h0, Nat.sub_add_cancel h1, Nat.sub_add_cancel h2,
    Nat.sub_add_cancel h3, UInt8.ofNat_toNat]

/-- Five bytes of which the last one ends the number are a form of it. -/
theorem fifth_form {buf : List UInt8} {b : UInt8} (h : Continued buf 4) (hb : buf[4]? = some b)
    (hlt : b.toNat < 128) :
    ∃ ds rest, (∀ d ∈ ds, d < 128) ∧ ds.length = 5 ∧ buf = varBytes ds ++ rest ∧
      (varValue ds < 2 ^ 32 ↔ b.toNat < 16) := by
  obtain ⟨hlength, hmore⟩ := h
  match buf, hb with
  | b0 :: b1 :: b2 :: b3 :: b4 :: rest, hb =>
    obtain rfl : b4 = b := by simpa using hb
    simp only [List.take_succ_cons, List.take_zero, List.forall_mem_cons] at hmore
    obtain ⟨h0, h1, h2, h3, -⟩ := hmore
    have hlt0 := b0.toNat_lt
    have hlt1 := b1.toNat_lt
    have hlt2 := b2.toNat_lt
    have hlt3 := b3.toNat_lt
    refine ⟨[b0.toNat - 128, b1.toNat - 128, b2.toNat - 128, b3.toNat - 128, b4.toNat], rest, ?_,
      rfl, ?_, ?_⟩
    · simp only [List.forall_mem_cons]
      exact ⟨by omega, by omega, by omega, by omega, hlt, nofun⟩
    · rw [← varBytes_five h0 h1 h2 h3]
      rfl
    · simp only [varValue]
      omega

/-- The fifth digit alone decides whether the number is one of 32 bits. -/
theorem varValue_lt_of_fifth {ds : List Nat} (hd : ∀ d ∈ ds, d < 128) (hle : ds.length ≤ 5)
    (hfifth : ∀ d0 d1 d2 d3 d, ds = [d0, d1, d2, d3, d] → d < 16) : varValue ds < 2 ^ 32 := by
  have hlt := varValue_lt hd
  rcases Nat.lt_or_eq_of_le hle with hle | hfive
  · have hpow : 128 ^ ds.length ≤ 128 ^ 4 := Nat.pow_le_pow_right (by decide) (by omega)
    omega
  · match ds, hfive with
    | [d0, d1, d2, d3, d], _ =>
      have h16 := hfifth d0 d1 d2 d3 d rfl
      simp only [List.forall_mem_cons] at hd
      simp only [varValue]
      omega

/-- The first four bytes of five digits go on. -/
theorem varBytes_continued (rest : List UInt8) {d0 d1 d2 d3 d : Nat}
    (hd : ∀ e ∈ [d0, d1, d2, d3, d], e < 128) :
    Continued (varBytes [d0, d1, d2, d3, d] ++ rest) 4 := by
  have hmore : ∀ e < 128, 128 ≤ (UInt8.ofNat (e + 128)).toNat := fun e he => by
    rw [UInt8.toNat_ofNat']
    omega
  simp only [List.forall_mem_cons] at hd
  obtain ⟨h0, h1, h2, h3, -⟩ := hd
  refine ⟨by simp [varBytes], ?_⟩
  simp only [varBytes, List.cons_append, List.take_succ_cons, List.take_zero, List.forall_mem_cons]
  exact ⟨hmore d0 h0, hmore d1 h1, hmore d2 h2, hmore d3 h3, List.forall_mem_nil _⟩

namespace VarIntReader

variable {reader : VarIntReader} {buf : List UInt8}

theorem le_maxShift (reader : VarIntReader) : 7 * 5 ≤ reader.maxShift + 14 := by
  cases reader <;> decide

/-- More than five bytes are read where a sixth one follows. -/
theorem lt_processed : 5 < (reader.read buf).processedSize ↔
    Continued buf 5 ∧ 5 < buf.length ∧ 5 < toInt buf.length := by
  have hmax : VarInt.start.shift + 7 * 5 ≤ reader.maxShift + 7 := by
    cases reader <;> decide
  rw [read_eq]
  exact lt_processed_iff 5 buf .start hmax

/-- A sixth byte is the first one that is shifted too far. -/
theorem shift_lt_iff :
    (∀ shift ∈ reader.shifts buf, shift < 32) ↔ ¬ (Continued buf 5 ∧ 6 ≤ toInt buf.length) := by
  have hlength : toInt buf.length ≤ buf.length := toInt_le (by omega)
  have hshifts : (∀ shift ∈ reader.shifts buf, shift < 32) ↔
      (reader.read buf).processedSize ≤ 5 := by
    rw [shifts, unpackShifts_eq, ← read_eq, List.forall_mem_map]
    simp only [List.mem_range, VarInt.start, Nat.sub_zero, Nat.zero_add]
    constructor
    · intro h
      by_contra hlt
      have := h 5 (by omega)
      omega
    · intro h i hi
      omega
  rw [hshifts, ← Nat.not_lt, not_iff_not, lt_processed]
  constructor
  · rintro ⟨h, -, ha⟩
    exact ⟨h, by omega⟩
  · rintro ⟨h, ha⟩
    exact ⟨h, by omega, by omega⟩

/-- **What is accepted is a form** of the number that is read, up to five bytes. -/
theorem form_of_fitsIn32 (h : FitsIn32 buf) (haccepts : reader.accepts (reader.read buf) = true) :
    (reader.read buf).value < 2 ^ 32 ∧
      VarForm 5 (reader.read buf).value (buf.take (reader.read buf).processedSize) := by
  have hfive : ¬ 5 < (reader.read buf).processedSize := by
    rw [lt_processed]
    exact fun hsixth => h.no_sixth ⟨hsixth.1, by omega⟩
  rw [accepts, Bool.and_eq_true, Bool.not_eq_true'] at haccepts
  have hbroken := haccepts.1
  rw [read_eq] at hbroken
  obtain ⟨ds, rest, hne, hd, hbuf, hsize⟩ := exists_digits buf .start hbroken
  have havailable :=
    (unpackLoop_processed (2 ^ 32) reader.maxShift (toInt buf.length) buf .start).2.1
  rw [← read_eq] at hsize havailable
  have hpos : 0 < ds.length := List.length_pos_iff.mpr hne
  simp only [VarInt.start, Nat.zero_add] at hsize havailable
  have hvalue : varValue ds < 2 ^ 32 := by
    refine varValue_lt_of_fifth hd (by omega) ?_
    rintro d0 d1 d2 d3 d rfl
    have hfour := varBytes_continued rest hd
    have hfifth : (varBytes [d0, d1, d2, d3, d] ++ rest)[4]? = some (UInt8.ofNat d) := rfl
    rw [← hbuf] at hfour hfifth
    have hd : d < 128 := hd d (by simp)
    have hbyte : (UInt8.ofNat d).toNat = d := by
      rw [UInt8.toNat_ofNat']
      omega
    have h16 := h.fifth hfour (by simp at hsize; omega) _ hfifth
    rw [hbyte] at h16
    exact h16 hd
  have hform : VarForm 5 (varValue ds) (varBytes ds) := ⟨ds, hne, hd, by omega, rfl, rfl⟩
  have hlength : ((varBytes ds).length : Int) ≤ toInt buf.length := by
    rw [varBytes_length]
    omega
  have hread : reader.read buf = ⟨varValue ds, (varBytes ds).length,
      7 * ((varBytes ds).length - 1), false, false⟩ := by
    rw [read_eq, hbuf] at *
    exact hform.unpackLoop_eq reader.le_maxShift hvalue hlength rest
  rw [hread]
  refine ⟨hvalue, ?_⟩
  rwa [hbuf, List.take_left]

/-- A fifth byte of more than four bits is accepted as well. -/
theorem fifth_of_inRange (h : reader.InRange buf) (hfour : Continued buf 4)
    (havailable : 5 ≤ toInt buf.length) {b : UInt8} (hb : buf[4]? = some b) (hlt : b.toNat < 128) :
    b.toNat < 16 := by
  obtain ⟨ds, rest, hd, hfive, rfl, hvalue⟩ := fifth_form hfour hb hlt
  have hne : ds ≠ [] := List.ne_nil_of_length_eq_add_one hfive
  have hform : VarForm 5 (varValue ds) (varBytes ds) := ⟨ds, hne, hd, by omega, rfl, rfl⟩
  have hmax := reader.le_maxShift
  obtain ⟨hbroken, hprocessed, hshift⟩ :=
    unpackLoop_varBytes (2 ^ 32) reader.maxShift (toInt (varBytes ds ++ rest).length) rest ds .start
      hne hd (by simp only [VarInt.start]; omega) rfl (by simp only [VarInt.start]; omega)
  rw [← read_eq] at hbroken hprocessed hshift
  have haccepts : reader.accepts (reader.read (varBytes ds ++ rest)) = true := by
    have hle : (reader.read (varBytes ds ++ rest)).shift ≤ 28 := by
      rw [hfive] at hshift
      exact Nat.le_of_add_le_add_right hshift.le
    rw [accepts, hbroken, decide_eq_true hle, Bool.or_true]
    rfl
  obtain ⟨hread, hread_form⟩ := h.form haccepts
  rw [hprocessed, show VarInt.start.processedSize + ds.length = (varBytes ds).length by
    rw [varBytes_length]; exact Nat.zero_add _, List.take_left] at hread_form
  rw [← hvalue, ← hread_form.value_unique hform]
  exact hread

/-- **When the law holds**: a sixth byte is never asked for, and a fifth one has no more than four
bits. -/
theorem reader_inRange_iff (reader : VarIntReader) (buf : List UInt8) :
    reader.InRange buf ↔ FitsIn32 buf := by
  constructor
  · intro h
    exact ⟨shift_lt_iff.mp h.shift_lt, fun hfour ha b hb hlt => fifth_of_inRange h hfour ha hb hlt⟩
  · intro h
    exact ⟨shift_lt_iff.mpr h.no_sixth, form_of_fitsIn32 h⟩

/-- A sixth byte is shifted by 35 bits, and the fifth bit of a fifth byte is lost. -/
theorem sixth_byte_shifted :
    35 ∈ unpackVarInt32.shifts [0x80, 0x80, 0x80, 0x80, 0x80, 0x00] ∧
      unpackVarInt32.read [0x80, 0x80, 0x80, 0x80, 0x80, 0x00] = ⟨0, 6, 35, false, false⟩ ∧
      unpackVarInt32.read [0x80, 0x80, 0x80, 0x80, 0x10] = ⟨0, 5, 28, false, false⟩ ∧
      ¬ unpackVarInt32.InRange [0x80, 0x80, 0x80, 0x80, 0x80, 0x00] ∧
      ¬ unknownVarInt.InRange [0x80, 0x80, 0x80, 0x80, 0x80, 0x00] :=
  ⟨by decide, by decide, by decide, fun h => absurd (h.shift_lt 35 (by decide)) (by decide),
    fun h => absurd (h.shift_lt 35 (by decide)) (by decide)⟩

end VarIntReader

end Hatn.Dataunit
