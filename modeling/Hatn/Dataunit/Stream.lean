import Hatn.Common.MachineInt
import Mathlib.Tactic.Ring

/-!
# Varints

Numbers travel as varints: seven bits a byte, the low ones first, with the high
bit set on every byte but the last.  The file translates the packing and
unpacking loops, of which the unpacking one is shared by all readers, and the
zigzag form of signed numbers.

The loop is characterised once, on the bytes `varBytes ds` of any digits `ds`:

* `unpackLoop_varBytes`: how many bytes are read and that none is missing,
* `unpackLoop_value`: the number `varValue ds`, when it fits the result.

The minimal form written by `packVarInt` and the form padded to five bytes,
which is used for the size of a subunit, are both of this kind.
-/

namespace Hatn.Dataunit

open Hatn.Common

/-! ### Base 128 -/

/-- The bytes of a varint with given digits. -/
def varBytes : List Nat → List UInt8
  | [] => []
  | [d] => [UInt8.ofNat d]
  | d :: d' :: ds => UInt8.ofNat (d + 128) :: varBytes (d' :: ds)

/-- The number with given digits, least significant first. -/
def varValue : List Nat → Nat
  | [] => 0
  | d :: ds => d + 128 * varValue ds

@[simp] theorem varBytes_length : ∀ ds, (varBytes ds).length = ds.length := by
  intro ds
  induction ds with
  | nil => rfl
  | cons d ds ih =>
    cases ds with
    | nil => rfl
    | cons d' ds => rw [varBytes, List.length_cons, ih]; rfl

/-! ### Unpacking -/

/-- What `unpackVarIntByte` works on. -/
structure VarInt where
  value : Nat
  processedSize : Nat
  shift : Nat
  overflow : Bool
  moreBytesLeft : Bool
  deriving DecidableEq, Repr

def VarInt.start : VarInt := ⟨0, 0, 0, false, false⟩

/-- The byte that `unpackVarIntByteImpl` takes, for a result below `modulus`. -/
def VarInt.addByte (modulus : Nat) (b : UInt8) (s : VarInt) : VarInt :=
  { s with
    value := (s.value ||| ((b.toNat &&& 0x7F) <<< s.shift)) % modulus
    processedSize := s.processedSize + 1
    moreBytesLeft := b.toNat &&& 0x80 != 0 }

def VarInt.next (s : VarInt) : VarInt := { s with shift := s.shift + 7 }

/-- The loop over `unpackVarIntByteImpl`.  The bytes are those behind the current
one; they do not end before `availableSize` does. -/
def unpackLoop (modulus maxShift : Nat) (availableSize : Int) : List UInt8 → VarInt → VarInt
  | [], s => { s with overflow := true }
  | b :: rest, s =>
    if availableSize ≤ s.processedSize then { s with overflow := true }
    else if !(s.addByte modulus b).moreBytesLeft then s.addByte modulus b
    else if maxShift < s.shift then s.addByte modulus b
    else unpackLoop modulus maxShift availableSize rest (s.addByte modulus b).next

/-- Some byte is missing. -/
def VarInt.broken (v : VarInt) : Bool := v.overflow || v.moreBytesLeft

/-- `unpackVarInt32` -/
def unpackVarInt32 (buf : List UInt8) (availableSize : Int) : VarInt :=
  unpackLoop (2 ^ 32) 28 (toInt availableSize) buf .start

/-- `unpackVarInt64` -/
def unpackVarInt64 (buf : List UInt8) (availableSize : Int) : VarInt :=
  unpackLoop (2 ^ 64) 56 (toInt availableSize) buf .start

/-- The loop of `visitors::deserialize` over a number that no field takes. -/
def unpackUnknown (buf : List UInt8) (availableSize : Int) : VarInt :=
  unpackLoop (2 ^ 32) 56 (toInt availableSize) buf .start

section
variable (modulus : Nat) (b : UInt8) (s : VarInt)

@[simp] theorem addByte_processedSize :
    (s.addByte modulus b).processedSize = s.processedSize + 1 := rfl
@[simp] theorem addByte_shift : (s.addByte modulus b).shift = s.shift := rfl
@[simp] theorem addByte_overflow : (s.addByte modulus b).overflow = s.overflow := rfl
@[simp] theorem next_value : s.next.value = s.value := rfl
@[simp] theorem next_processedSize : s.next.processedSize = s.processedSize := rfl
@[simp] theorem next_shift : s.next.shift = s.shift + 7 := rfl
@[simp] theorem next_overflow : s.next.overflow = s.overflow := rfl

end

theorem toNat_and_127 (b : UInt8) : b.toNat &&& 0x7F = b.toNat % 128 :=
  Nat.and_two_pow_sub_one_eq_mod b.toNat 7

theorem and_128_of_lt : ∀ n < 256, (n &&& 0x80 != 0) = decide (128 ≤ n) := by decide +kernel

theorem or_128_of_lt : ∀ n < 256, n ||| 0x80 = n % 128 + 128 := by decide +kernel

theorem addByte_more (modulus : Nat) (b : UInt8) (s : VarInt) :
    (s.addByte modulus b).moreBytesLeft = decide (128 ≤ b.toNat) := and_128_of_lt _ b.toNat_lt

/-- Bytes are processed one by one and within what is available. -/
theorem unpackLoop_processed (modulus maxShift : Nat) (a : Int) : ∀ (l : List UInt8) (s : VarInt),
    s.processedSize ≤ (unpackLoop modulus maxShift a l s).processedSize ∧
    ((unpackLoop modulus maxShift a l s).processedSize = s.processedSize ∨
      ((unpackLoop modulus maxShift a l s).processedSize : Int) ≤ a) ∧
    (unpackLoop modulus maxShift a l s).processedSize ≤ s.processedSize + l.length := by
  intro l
  induction l with
  | nil => intro s; simp [unpackLoop]
  | cons b l ih =>
    intro s
    obtain ⟨h1, h2, h3⟩ := ih (s.addByte modulus b).next
    simp only [next_processedSize, addByte_processedSize] at h1 h2 h3
    rw [unpackLoop, List.length_cons]
    split_ifs
    · simp
    · simp only [addByte_processedSize]; omega
    · simp only [addByte_processedSize]; omega
    · omega

/-- A varint whose bytes are there has at least one. -/
theorem unpackLoop_pos {modulus maxShift : Nat} {a : Int} {l : List UInt8} {s : VarInt}
    (h : (unpackLoop modulus maxShift a l s).overflow = false) :
    s.processedSize < (unpackLoop modulus maxShift a l s).processedSize := by
  cases l with
  | nil => simp [unpackLoop] at h
  | cons b l =>
    have h1 := (unpackLoop_processed modulus maxShift a l (s.addByte modulus b).next).1
    simp only [next_processedSize, addByte_processedSize] at h1
    rw [unpackLoop] at h ⊢
    split_ifs at h ⊢
    · simp
    · simp
    · omega

/-- **The loop reads the bytes of given digits** and stops behind the last one. -/
theorem unpackLoop_varBytes (modulus maxShift : Nat) (a : Int) (rest : List UInt8) :
    ∀ (ds : List Nat) (s : VarInt), ds ≠ [] → (∀ d ∈ ds, d < 128) →
      s.shift + 7 * ds.length ≤ maxShift + 14 → s.overflow = false →
      (s.processedSize : Int) + ds.length ≤ a →
      (unpackLoop modulus maxShift a (varBytes ds ++ rest) s).broken = false ∧
      (unpackLoop modulus maxShift a (varBytes ds ++ rest) s).processedSize =
        s.processedSize + ds.length ∧
      (unpackLoop modulus maxShift a (varBytes ds ++ rest) s).shift + 7 =
        s.shift + 7 * ds.length := by
  intro ds
  induction ds with
  | nil => intro s h; exact absurd rfl h
  | cons d ds ih =>
    intro s _ hd hs ho ha
    have hd0 : d < 128 := hd d (by simp)
    have ha' : ¬ a ≤ (s.processedSize : Int) := by
      rw [List.length_cons] at ha
      omega
    rw [List.length_cons] at hs ha
    cases ds with
    | nil =>
      have hb : (UInt8.ofNat d).toNat = d := by rw [UInt8.toNat_ofNat']; omega
      have hm : (s.addByte modulus (UInt8.ofNat d)).moreBytesLeft = false := by
        rw [addByte_more, hb]
        simpa using hd0
      simp only [varBytes, List.cons_append, List.nil_append, unpackLoop, if_neg ha', hm,
        Bool.not_false, if_true, VarInt.broken, addByte_overflow, ho, Bool.or_self,
        addByte_processedSize, addByte_shift, List.length_cons, List.length_nil, true_and]
    | cons d' ds =>
      have hb : (UInt8.ofNat (d + 128)).toNat = d + 128 := by rw [UInt8.toNat_ofNat']; omega
      have hm : (s.addByte modulus (UInt8.ofNat (d + 128))).moreBytesLeft = true := by
        rw [addByte_more, hb]
        simp
      rw [List.length_cons] at hs ha
      have hshift : ¬ maxShift < s.shift := by omega
      obtain ⟨h1, h2, h3⟩ := ih (s.addByte modulus (UInt8.ofNat (d + 128))).next (by simp)
        (fun e he => hd e (List.mem_cons_of_mem _ he)) (by simp; omega) (by simpa using ho)
        (by simp; omega)
      rw [varBytes, List.cons_append, unpackLoop, if_neg ha', hm, if_neg (by simp),
        if_neg hshift]
      refine ⟨h1, ?_, ?_⟩
      · rw [h2, next_processedSize, addByte_processedSize]
        simp only [List.length_cons]
        omega
      · rw [h3, next_shift, addByte_shift]
        simp only [List.length_cons]
        omega

/-- A byte adds its digit at the current place. -/
theorem addByte_value {modulus d : Nat} {b : UInt8} {s : VarInt} (hb : b.toNat % 128 = d)
    (hv : s.value < 2 ^ s.shift) (hlt : s.value + d * 2 ^ s.shift < modulus) :
    (s.addByte modulus b).value = s.value + d * 2 ^ s.shift := by
  have hor : s.value ||| (d <<< s.shift) = s.value + d * 2 ^ s.shift := by
    rw [Nat.shiftLeft_eq, Nat.or_comm, Nat.mul_comm d, ← Nat.two_pow_add_eq_or_of_lt hv,
      Nat.add_comm, Nat.mul_comm]
  show (s.value ||| ((b.toNat &&& 0x7F) <<< s.shift)) % modulus = _
  rw [toNat_and_127, hb, hor, Nat.mod_eq_of_lt hlt]

/-- **The number read** is the one with these digits, when it fits the result. -/
theorem unpackLoop_value (modulus maxShift : Nat) (a : Int) (rest : List UInt8) :
    ∀ (ds : List Nat) (s : VarInt), ds ≠ [] → (∀ d ∈ ds, d < 128) →
      s.shift + 7 * ds.length ≤ maxShift + 14 → (s.processedSize : Int) + ds.length ≤ a →
      s.value < 2 ^ s.shift → s.value + varValue ds * 2 ^ s.shift < modulus →
      (unpackLoop modulus maxShift a (varBytes ds ++ rest) s).value =
        s.value + varValue ds * 2 ^ s.shift := by
  intro ds
  induction ds with
  | nil => intro s h; exact absurd rfl h
  | cons d ds ih =>
    intro s _ hd hs ha hv hlt
    have hd0 : d < 128 := hd d (by simp)
    rw [List.length_cons] at hs ha
    have ha' : ¬ a ≤ (s.processedSize : Int) := by omega
    have hp : 0 < 2 ^ s.shift := Nat.pow_pos (by omega)
    have hlt0 : s.value + d * 2 ^ s.shift < modulus := by
      refine lt_of_le_of_lt ?_ hlt
      exact Nat.add_le_add_left (Nat.mul_le_mul_right _ (by rw [varValue]; omega)) _
    cases ds with
    | nil =>
      have hb : (UInt8.ofNat d).toNat = d := by rw [UInt8.toNat_ofNat']; omega
      have hm : (s.addByte modulus (UInt8.ofNat d)).moreBytesLeft = false := by
        rw [addByte_more, hb]
        simpa using hd0
      rw [varBytes, List.cons_append, unpackLoop, if_neg ha', hm, if_pos (by simp),
        addByte_value (by omega) hv hlt0]
      simp [varValue]
    | cons d' ds =>
      have hb : (UInt8.ofNat (d + 128)).toNat = d + 128 := by rw [UInt8.toNat_ofNat']; omega
      have hm : (s.addByte modulus (UInt8.ofNat (d + 128))).moreBytesLeft = true := by
        rw [addByte_more, hb]
        simp
      rw [List.length_cons] at hs ha
      have hval := addByte_value (b := UInt8.ofNat (d + 128)) (by omega) hv hlt0
      have hsum : s.value + d * 2 ^ s.shift + varValue (d' :: ds) * 2 ^ (s.shift + 7) =
          s.value + varValue (d :: d' :: ds) * 2 ^ s.shift := by
        rw [show varValue (d :: d' :: ds) = d + 128 * varValue (d' :: ds) by rfl, Nat.pow_add]
        ring
      have hv' : s.value + d * 2 ^ s.shift < 2 ^ (s.shift + 7) := by
        rw [Nat.pow_add]
        have : d * 2 ^ s.shift ≤ 127 * 2 ^ s.shift := Nat.mul_le_mul_right _ (by omega)
        omega
      rw [varBytes, List.cons_append, unpackLoop, if_neg ha', hm, if_neg (by simp),
        if_neg (by omega), ih (s.addByte modulus (UInt8.ofNat (d + 128))).next (by simp)
          (fun e he => hd e (List.mem_cons_of_mem _ he)) (by simp; omega) (by simp; omega)
          (by rw [next_value, hval]; exact hv')
          (by rw [next_value, next_shift, addByte_shift, hval, hsum]; exact hlt)]
      rw [next_value, next_shift, addByte_shift, hval, hsum]

theorem unpackLoop_value_lt {modulus : Nat} (hm : 0 < modulus) (maxShift : Nat) (a : Int) :
    ∀ (l : List UInt8) (s : VarInt), s.value < modulus →
      (unpackLoop modulus maxShift a l s).value < modulus := by
  intro l
  induction l with
  | nil => intro s hs; exact hs
  | cons b l ih =>
    intro s hs
    have hb : (s.addByte modulus b).value < modulus := Nat.mod_lt _ hm
    rw [unpackLoop]
    split_ifs
    · exact hs
    · exact hb
    · exact hb
    · exact ih _ hb

/-! ### Packing -/

/-- The bytes of `packVarInt32` and `packVarInt64`, at most `k` of them. -/
def packVarInt : Nat → Nat → List UInt8
  | 0, _ => []
  | k + 1, n =>
    if n < 1 <<< 7 then [UInt8.ofNat n]
    else UInt8.ofNat (n ||| 0x80) :: packVarInt k (n >>> 7)

def packVarInt32 (n : Nat) : List UInt8 := packVarInt 5 n

def packVarInt64 (n : Nat) : List UInt8 := packVarInt 10 n

/-- The digits of the minimal form. -/
def packDigits : Nat → Nat → List Nat
  | 0, _ => []
  | k + 1, n => if n < 128 then [n] else n % 128 :: packDigits k (n / 128)

theorem packDigits_ne_nil (k n : Nat) : packDigits (k + 1) n ≠ [] := by
  rw [packDigits]
  split <;> simp

theorem packDigits_lt : ∀ (k n : Nat), ∀ d ∈ packDigits k n, d < 128 := by
  intro k
  induction k with
  | zero => intro n d hd; simp [packDigits] at hd
  | succ k ih =>
    intro n d hd
    rw [packDigits] at hd
    split at hd
    · rw [List.mem_singleton] at hd; omega
    · rcases List.mem_cons.mp hd with rfl | hd
      · omega
      · exact ih _ d hd

theorem packDigits_length_le : ∀ (k n : Nat), (packDigits k n).length ≤ k := by
  intro k
  induction k with
  | zero => intro n; simp [packDigits]
  | succ k ih =>
    intro n
    rw [packDigits]
    split
    · simp
    · simpa using ih _

theorem varValue_packDigits : ∀ {k n : Nat}, n < 128 ^ k → varValue (packDigits k n) = n := by
  intro k
  induction k with
  | zero => intro n h; simp at h; simp [packDigits, varValue, h]
  | succ k ih =>
    intro n h
    rw [packDigits]
    split
    · simp [varValue]
    · rw [varValue, ih (Nat.div_lt_of_lt_mul (by rwa [Nat.pow_succ'] at h)), Nat.mod_add_div]

theorem ofNat_or_128 (n : Nat) : UInt8.ofNat (n ||| 0x80) = UInt8.ofNat (n % 128 + 128) := by
  have h : (n ||| 0x80) % 2 ^ 8 = (n % 2 ^ 8) ||| (0x80 % 2 ^ 8) := Nat.or_mod_two_pow
  have h' : (n ||| 0x80) % 2 ^ 8 = n % 2 ^ 8 % 128 + 128 := by
    rw [h]
    exact or_128_of_lt _ (Nat.mod_lt _ (by decide))
  apply UInt8.toNat_inj.mp
  rw [UInt8.toNat_ofNat', UInt8.toNat_ofNat', h']
  omega

theorem packVarInt_length_le : ∀ (k n : Nat), (packVarInt k n).length ≤ k := by
  intro k
  induction k with
  | zero => intro n; exact le_rfl
  | succ k ih =>
    intro n
    rw [packVarInt]
    split
    · simp
    · simpa using ih _

/-- The minimal form is made of its digits. -/
theorem packVarInt_eq : ∀ (k n : Nat), n < 128 ^ k → packVarInt k n = varBytes (packDigits k n) := by
  intro k
  induction k with
  | zero => intro n _; rfl
  | succ k ih =>
    intro n h
    have h1 : (1 : Nat) <<< 7 = 128 := by decide
    rw [packVarInt, packDigits, h1, Nat.shiftRight_eq_div_pow, show (2 : Nat) ^ 7 = 128 by rfl]
    split
    · rfl
    · have hk : n / 128 < 128 ^ k := Nat.div_lt_of_lt_mul (by rwa [Nat.pow_succ'] at h)
      rw [ih _ hk, ofNat_or_128]
      cases k with
      | zero => simp at hk; omega
      | succ k =>
        obtain ⟨d, ds, hds⟩ := List.exists_cons_of_ne_nil (packDigits_ne_nil k (n / 128))
        rw [hds, varBytes]

theorem varValue_zeros : ∀ k : Nat, varValue (List.replicate k 0) = 0 := by
  intro k
  induction k with
  | zero => rfl
  | succ k ih => rw [List.replicate_succ, varValue, ih]

theorem varValue_append_zeros : ∀ (ds : List Nat) (k : Nat),
    varValue (ds ++ List.replicate k 0) = varValue ds := by
  intro ds k
  induction ds with
  | nil => exact varValue_zeros k
  | cons d ds ih => rw [List.cons_append, varValue, ih, varValue]

theorem varBytes_append_singleton (d : Nat) : ∀ ds : List Nat,
    varBytes (ds ++ [d]) = ds.map (fun e => UInt8.ofNat (e + 128)) ++ [UInt8.ofNat d] := by
  intro ds
  induction ds with
  | nil => rfl
  | cons e ds ih =>
    cases ds with
    | nil => rfl
    | cons e' ds =>
      rw [List.cons_append, List.cons_append, varBytes, ← List.cons_append, ih]
      rfl

/-! ### The size of a subunit -/

/-- The five bytes of `UnitSer::finalize`: the minimal form over zeros, with the high
bit set on each byte but the last. -/
def packSize (size : Nat) : List UInt8 :=
  ((packVarInt32 size ++ List.replicate (5 - (packVarInt32 size).length) 0).take 4).map (· ||| 0x80)
    ++ (packVarInt32 size ++ List.replicate (5 - (packVarInt32 size).length) 0).drop 4

@[simp] theorem packSize_length (n : Nat) : (packSize n).length = 5 := by
  have h := packVarInt_length_le 5 n
  simp only [packSize, List.length_append, List.length_map, List.length_take, List.length_drop,
    List.length_replicate]
  rw [packVarInt32]
  omega

/-- The digits of the padded form. -/
def sizeDigits (size : Nat) : List Nat :=
  packDigits 5 size ++ List.replicate (5 - (packDigits 5 size).length) 0

theorem sizeDigits_length (n : Nat) : (sizeDigits n).length = 5 := by
  have h := packDigits_length_le 5 n
  rw [sizeDigits, List.length_append, List.length_replicate]
  omega

theorem sizeDigits_lt (n : Nat) : ∀ d ∈ sizeDigits n, d < 128 := by
  intro d hd
  rcases List.mem_append.mp hd with hd | hd
  · exact packDigits_lt 5 n d hd
  · rw [List.eq_of_mem_replicate hd]
    omega

theorem varValue_sizeDigits {n : Nat} (h : n < 128 ^ 5) : varValue (sizeDigits n) = n := by
  rw [sizeDigits, varValue_append_zeros, varValue_packDigits h]

theorem or_128_ofNat {d : Nat} (h : d < 256) :
    UInt8.ofNat d ||| 0x80 = UInt8.ofNat (d % 128 + 128) := by
  apply UInt8.toNat_inj.mp
  rw [UInt8.toNat_or, UInt8.toNat_ofNat', UInt8.toNat_ofNat', Nat.mod_eq_of_lt (a := d) h,
    show (0x80 : UInt8).toNat = 0x80 by rfl, or_128_of_lt d h]
  omega

theorem map_or_varBytes : ∀ {ds : List Nat}, (∀ d ∈ ds, d < 128) →
    (varBytes ds).map (· ||| 0x80) = ds.map (fun d => UInt8.ofNat (d + 128)) := by
  intro ds
  induction ds with
  | nil => intro _; rfl
  | cons d ds ih =>
    intro h
    have hd : d < 128 := h d (by simp)
    cases ds with
    | nil =>
      simp only [varBytes, List.map_cons, List.map_nil]
      rw [or_128_ofNat (by omega), Nat.mod_eq_of_lt hd]
    | cons d' ds =>
      rw [varBytes, List.map_cons, ih (fun e he => h e (List.mem_cons_of_mem _ he)),
        or_128_ofNat (by omega), List.map_cons (l := d' :: ds), Nat.add_mod_right,
        Nat.mod_eq_of_lt hd]

/-- The bytes over zeros are those of the padded digits, but for the high bits. -/
theorem padded_split {ds : List Nat} (hne : ds ≠ []) (hlen : ds.length ≤ 5) :
    ∃ ini last, ini.length = 4 ∧ ds ++ List.replicate (5 - ds.length) 0 = ini ++ [last] ∧
      ∃ ini', ini'.length = 4 ∧
        varBytes ds ++ List.replicate (5 - ds.length) 0 = ini' ++ [UInt8.ofNat last] := by
  by_cases h5 : ds.length = 5
  · obtain ⟨ini, last, rfl⟩ : ∃ ini last, ds = ini ++ [last] :=
      ⟨ds.dropLast, ds.getLast hne, (List.dropLast_concat_getLast hne).symm⟩
    rw [List.length_append, List.length_singleton] at h5
    refine ⟨ini, last, by omega, by simp [h5],
      ini.map (fun e => UInt8.ofNat (e + 128)), by simp; omega, ?_⟩
    rw [varBytes_append_singleton]
    simp [h5]
  · obtain ⟨k, hk⟩ : ∃ k, 5 - ds.length = k + 1 := ⟨4 - ds.length, by omega⟩
    rw [hk, List.replicate_succ', List.replicate_succ', ← List.append_assoc, ← List.append_assoc]
    refine ⟨ds ++ List.replicate k 0, 0, ?_, rfl, varBytes ds ++ List.replicate k 0, ?_, rfl⟩
    · rw [List.length_append, List.length_replicate]
      omega
    · rw [List.length_append, List.length_replicate, varBytes_length]
      omega

theorem packSize_eq {n : Nat} (h : n < 128 ^ 5) : packSize n = varBytes (sizeDigits n) := by
  have hp : packVarInt32 n = varBytes (packDigits 5 n) := packVarInt_eq 5 n h
  have hmap : ∀ k : Nat, (List.replicate k (0 : UInt8)).map (· ||| 0x80) =
      (List.replicate k 0).map (fun d => UInt8.ofNat (d + 128)) := by
    intro k
    rw [List.map_replicate, List.map_replicate]
    rfl
  obtain ⟨ini, last, hini, hd, ini', hini', hb⟩ :=
    padded_split (packDigits_ne_nil 4 n) (packDigits_length_le 5 n)
  have hall : (varBytes (packDigits 5 n) ++
      List.replicate (5 - (packDigits 5 n).length) 0).map (· ||| 0x80) =
      (ini ++ [last]).map (fun d => UInt8.ofNat (d + 128)) := by
    rw [← hd, List.map_append, List.map_append, map_or_varBytes (packDigits_lt 5 n), hmap]
  rw [packSize, hp, varBytes_length, hb, sizeDigits, hd, varBytes_append_singleton,
    List.map_take, ← hb, hall, hb, List.map_append, List.take_left' (by rw [List.length_map, hini]),
    List.drop_left' hini']

/-! ### Forms of numbers -/

/-- More room than a number needs does not change its digits. -/
theorem packDigits_add : ∀ (k j n : Nat), 0 < k → n < 128 ^ k →
    packDigits (k + j) n = packDigits k n := by
  intro k
  induction k with
  | zero => intro j n hk; omega
  | succ k ih =>
    intro j n _ hn
    have hdiv : n / 128 < 128 ^ k := Nat.div_lt_of_lt_mul (by rwa [Nat.pow_succ'] at hn)
    rw [Nat.add_right_comm, packDigits, packDigits]
    by_cases h : n < 128
    · rw [if_pos h, if_pos h]
    · rw [if_neg h, if_neg h]
      have hk : 0 < k := by
        by_contra h0
        obtain rfl : k = 0 := by omega
        simp at hdiv
        omega
      rw [ih j (n / 128) hk hdiv]

/-- `l` is a form of `n` with at most `k` bytes; there may be digits 0 at its end. -/
def VarForm (k n : Nat) (l : List UInt8) : Prop :=
  ∃ ds, ds ≠ [] ∧ (∀ d ∈ ds, d < 128) ∧ ds.length ≤ k ∧ varValue ds = n ∧ varBytes ds = l

namespace VarForm

variable {k j n : Nat} {l : List UInt8}

theorem mono (h : VarForm k n l) (hk : k ≤ j) : VarForm j n l := by
  obtain ⟨ds, hne, hd, hlen, hv, hb⟩ := h
  exact ⟨ds, hne, hd, le_trans hlen hk, hv, hb⟩

theorem length_pos (h : VarForm k n l) : 0 < l.length := by
  obtain ⟨ds, hne, -, -, -, rfl⟩ := h
  rw [varBytes_length]
  exact List.length_pos_iff.mpr hne

theorem length_le (h : VarForm k n l) : l.length ≤ k := by
  obtain ⟨ds, -, -, hlen, -, rfl⟩ := h
  rwa [varBytes_length]

theorem packVarInt {n : Nat} (hk : 0 < k) (h : n < 128 ^ k) (j : Nat) :
    VarForm k n (packVarInt (k + j) n) := by
  have hn : n < 128 ^ (k + j) :=
    lt_of_lt_of_le h (Nat.pow_le_pow_right (by norm_num) (Nat.le_add_right k j))
  have hd := packDigits_add k j n hk h
  obtain ⟨i, rfl⟩ := Nat.exists_eq_add_one.mpr hk
  refine ⟨packDigits (i + 1) n, packDigits_ne_nil i n, packDigits_lt _ n,
    packDigits_length_le _ n, varValue_packDigits h, ?_⟩
  rw [packVarInt_eq _ n hn, hd]

theorem packVarInt32 {n : Nat} (h : n < 2 ^ 32) : VarForm 5 n (packVarInt32 n) :=
  packVarInt (by norm_num) (by omega) 0

theorem packVarInt64 {n : Nat} (h : n < 2 ^ 64) : VarForm 10 n (packVarInt64 n) :=
  packVarInt (by norm_num) (lt_trans h (by norm_num)) 0

theorem packSize {n : Nat} (h : n < 2 ^ 32) : VarForm 5 n (packSize n) := by
  have hn : n < 128 ^ 5 := by omega
  refine ⟨sizeDigits n, ?_, sizeDigits_lt n, (sizeDigits_length n).le, varValue_sizeDigits hn,
    (packSize_eq hn).symm⟩
  intro h0
  have hl := sizeDigits_length n
  rw [h0] at hl
  cases hl

/-- **A form is read** up to its last byte, as the number that it stands for. -/
theorem unpackLoop_eq (h : VarForm k n l) {modulus maxShift : Nat} (hs : 7 * k ≤ maxShift + 14)
    (hn : n < modulus) {a : Int} (ha : (l.length : Int) ≤ a) (rest : List UInt8) :
    unpackLoop modulus maxShift a (l ++ rest) .start =
      ⟨n, l.length, 7 * (l.length - 1), false, false⟩ := by
  obtain ⟨ds, hne, hd, hlen, rfl, rfl⟩ := h
  have hpos : 0 < ds.length := List.length_pos_iff.mpr hne
  rw [varBytes_length] at ha ⊢
  obtain ⟨hb, hp, hsh⟩ := unpackLoop_varBytes modulus maxShift a rest ds .start hne hd
    (by simp [VarInt.start]; omega) rfl (by simpa [VarInt.start] using ha)
  have hv := unpackLoop_value modulus maxShift a rest ds .start hne hd
    (by simp [VarInt.start]; omega) (by simpa [VarInt.start] using ha) (by simp [VarInt.start])
    (by simpa [VarInt.start] using hn)
  generalize unpackLoop modulus maxShift a (varBytes ds ++ rest) .start = v at *
  obtain ⟨value, processed, shift, overflow, more⟩ := v
  simp only [VarInt.start, VarInt.broken, Bool.or_eq_false_iff] at hb hp hsh hv
  obtain ⟨rfl, rfl⟩ := hb
  simp only [VarInt.mk.injEq, and_true]
  refine ⟨by simpa using hv, by omega, by omega⟩

/-- A form is read to its end also where the number does not fit. -/
theorem unpackLoop_ends (h : VarForm k n l) (modulus : Nat) {maxShift : Nat} (hs : 7 * k ≤ maxShift + 14)
    {a : Int} (ha : (l.length : Int) ≤ a) (rest : List UInt8) :
    (unpackLoop modulus maxShift a (l ++ rest) .start).broken = false ∧
      (unpackLoop modulus maxShift a (l ++ rest) .start).processedSize = l.length := by
  obtain ⟨ds, hne, hd, hlen, rfl, rfl⟩ := h
  rw [varBytes_length] at ha ⊢
  obtain ⟨hb, hp, -⟩ := unpackLoop_varBytes modulus maxShift a rest ds .start hne hd
    (by simp [VarInt.start]; omega) rfl (by simpa [VarInt.start] using ha)
  exact ⟨hb, by simpa [VarInt.start] using hp⟩

end VarForm

/-! ### Signed numbers -/

/-- `zigZagEncode32` and `zigZagEncode64` -/
def zigZagEncode {w : Nat} (n : BitVec w) : BitVec w := (n <<< 1) ^^^ n.sshiftRight (w - 1)

/-- `zigZagDecode32` and `zigZagDecode64` -/
def zigZagDecode {w : Nat} (n : BitVec w) : BitVec w := (n >>> 1) ^^^ -(n &&& 1)

theorem getLsbD_zigZagEncode {w : Nat} (n : BitVec w) (i : Nat) :
    (zigZagEncode n).getLsbD i =
      (decide (i < w) && ((!decide (i < 1) && n.getLsbD (i - 1)) ^^ n.msb)) := by
  rw [zigZagEncode, BitVec.getLsbD_xor, BitVec.getLsbD_shiftLeft, BitVec.getLsbD_sshiftRight]
  by_cases hi : i < w
  · have h : (if w - 1 + i < w then n.getLsbD (w - 1 + i) else n.msb) = n.msb := by
      split
      · rw [BitVec.msb_eq_getLsbD_last]
        congr 1
        omega
      · rfl
    simp [hi, h]
  · simp [hi, Nat.le_of_not_lt hi]

theorem neg_and_one {w : Nat} (n : BitVec w) :
    -(n &&& 1) = if n.getLsbD 0 then BitVec.allOnes w else 0 := by
  have h : n &&& 1 = if n.getLsbD 0 then 1#w else 0 := by
    apply BitVec.eq_of_getLsbD_eq
    intro i hi
    cases i with
    | zero => cases hn : n.getLsbD 0 <;> simp [hn]
    | succ i => cases hn : n.getLsbD 0 <;> simp
  rw [h]
  split
  · exact BitVec.neg_one_eq_allOnes
  · simp

theorem zigZagDecode_encode {w : Nat} (n : BitVec w) : zigZagDecode (zigZagEncode n) = n := by
  apply BitVec.eq_of_getLsbD_eq
  intro i hi
  have h0 : (zigZagEncode n).getLsbD 0 = n.msb := by
    rw [getLsbD_zigZagEncode]
    simp
    omega
  rw [zigZagDecode, neg_and_one, h0, BitVec.getLsbD_xor, BitVec.getLsbD_ushiftRight,
    getLsbD_zigZagEncode]
  by_cases hw : 1 + i < w
  · cases n.msb <;> simp [hi, Nat.add_comm] <;> omega
  · have hlast : n.getLsbD i = n.msb := by
      rw [BitVec.msb_eq_getLsbD_last]
      congr 1
      omega
    rw [hlast]
    cases n.msb <;> simp [hw, hi]

end Hatn.Dataunit
