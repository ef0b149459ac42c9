import Mathlib.Algebra.Order.Group.Int
import Mathlib.Tactic.NormNum

/-!
# Machine integers

Integers of fixed width are integers here, with the casts of C++ written out:
`static_cast<int>` of a size, casts between widths, and the little endian bytes
of a number.
-/

namespace Hatn.Common

/-- The width of an integer type. -/
inductive Width
  | w8 | w16 | w32 | w64
  deriving DecidableEq, Repr

def Width.bits : Width → Nat
  | w8 => 8
  | w16 => 16
  | w32 => 32
  | w64 => 64

theorem Width.bits_pos (w : Width) : 0 < w.bits := by cases w <;> decide

theorem Width.bits_le (w : Width) : w.bits ≤ 64 := by cases w <;> decide

/-- The numbers of a signed or unsigned type. -/
def InRange (signed : Bool) (w : Width) (n : Int) : Prop :=
  if signed then -2 ^ (w.bits - 1) ≤ n ∧ n < 2 ^ (w.bits - 1) else 0 ≤ n ∧ n < 2 ^ w.bits

instance (signed : Bool) (w : Width) (n : Int) : Decidable (InRange signed w n) :=
  inferInstanceAs (Decidable
    (if signed then -2 ^ (w.bits - 1) ≤ n ∧ n < 2 ^ (w.bits - 1) else 0 ≤ n ∧ n < 2 ^ w.bits))

/-- `static_cast` of a number to a signed or unsigned type. -/
def castTo (signed : Bool) (w : Width) (n : Int) : Int :=
  if signed then n.bmod (2 ^ w.bits) else n % 2 ^ w.bits

/-- `static_cast<int>` -/
def toInt (n : Int) : Int := n.bmod (2 ^ 32)

theorem toInt_of_lt {n : Int} (h : 0 ≤ n) (h' : n < 2 ^ 31) : toInt n = n :=
  Int.bmod_eq_of_le (by norm_num; omega) (by norm_num; omega)

theorem toInt_le {n : Int} (h : 0 ≤ n) : toInt n ≤ n := by
  have e := Int.emod_add_mul_ediv n (2 ^ 32 : Nat)
  have d := Int.ediv_nonneg h (by norm_num : (0 : Int) ≤ (2 ^ 32 : Nat))
  have l : n % (2 ^ 32 : Nat) ≤ n := by
    have := mul_nonneg (by norm_num : (0 : Int) ≤ (2 ^ 32 : Nat)) d
    omega
  rw [toInt, Int.bmod_def]
  split
  · exact l
  · have : (0 : Int) ≤ (2 ^ 32 : Nat) := by norm_num
    omega

theorem toInt_lt (n : Int) : toInt n < 2 ^ 31 := by
  have h := Int.bmod_lt (x := n) (m := 2 ^ 32) (by norm_num)
  norm_num at h
  exact h

theorem le_toInt (n : Int) : -2 ^ 31 ≤ toInt n := by
  have h := Int.le_bmod (x := n) (m := 2 ^ 32) (by norm_num)
  norm_num at h
  exact h

/-- A number of 32 bits from `2^31` on is negative as `int`. -/
theorem toInt_of_ge {n : Int} (h : 2 ^ 31 ≤ n) (h' : n < 2 ^ 32) : toInt n = n - 2 ^ 32 := by
  rw [toInt, Int.bmod_def, Int.emod_eq_of_lt (by omega) (by norm_num; omega), if_neg]
  · norm_num
  · norm_num
    omega

theorem castTo_of_inRange {signed : Bool} {w : Width} {n : Int} (h : InRange signed w n) :
    castTo signed w n = n := by
  cases signed with
  | false =>
    simp only [castTo, InRange, Bool.false_eq_true, if_false] at h ⊢
    exact Int.emod_eq_of_lt h.1 h.2
  | true =>
    simp only [castTo, InRange, if_true] at h ⊢
    cases w <;> simp only [Width.bits] at h ⊢ <;>
      exact Int.bmod_eq_of_le (by norm_num at h ⊢; omega) (by norm_num at h ⊢; omega)

theorem castTo_emod {signed : Bool} {w : Width} {n : Int} (h : InRange signed w n) :
    castTo signed w (n % 2 ^ 64) = n := by
  have hd : ((2 ^ w.bits : Nat) : Int) ∣ 2 ^ 64 := by
    rw [Nat.cast_pow]
    exact pow_dvd_pow 2 w.bits_le
  cases signed with
  | false =>
    simp only [castTo, InRange, Bool.false_eq_true, if_false] at h ⊢
    rw [Int.emod_emod_of_dvd n (by simpa using hd)]
    exact Int.emod_eq_of_lt h.1 h.2
  | true =>
    simp only [castTo, InRange, if_true] at h ⊢
    have e : (n % 2 ^ 64).bmod (2 ^ w.bits) = n.bmod (2 ^ w.bits) := by
      rw [Int.bmod_def, Int.bmod_def, Int.emod_emod_of_dvd n hd]
    rw [e]
    cases w <;> simp only [Width.bits] at h ⊢ <;>
      exact Int.bmod_eq_of_le (by norm_num at h ⊢; omega) (by norm_num at h ⊢; omega)

/-! ### Division that rounds towards zero -/

/-- **The quotient and the rest of C++**: the rest has the sign of the number. -/
theorem tdiv_tmod_bounds (n : Int) {b : Int} (hb : 0 < b) :
    n = b * n.tdiv b + n.tmod b ∧ -b < n.tmod b ∧ n.tmod b < b ∧
      (0 ≤ n → 0 ≤ n.tmod b) ∧ (n ≤ 0 → n.tmod b ≤ 0) := by
  refine ⟨(Int.mul_tdiv_add_tmod n b).symm, ?_, Int.tmod_lt_of_pos n hb,
    fun h => Int.tmod_nonneg b h, ?_⟩
  · have h := Int.tmod_lt_of_pos (-n) hb
    rw [Int.neg_tmod] at h
    omega
  · intro h
    have h' := Int.tmod_nonneg b (show 0 ≤ -n by omega)
    rw [Int.neg_tmod] at h'
    omega

/-! ### Little endian bytes -/

/-- The `k` low bytes of a number, least significant first. -/
def leBytes : Nat → Nat → List UInt8
  | 0, _ => []
  | k + 1, n => UInt8.ofNat n :: leBytes k (n / 256)

/-- The number that bytes stand for, least significant first. -/
def leNumber : List UInt8 → Nat
  | [] => 0
  | b :: l => b.toNat + 256 * leNumber l

@[simp] theorem leBytes_length : ∀ k n, (leBytes k n).length = k := by
  intro k
  induction k with
  | zero => intro n; rfl
  | succ k ih => intro n; simp [leBytes, ih]

theorem leNumber_leBytes : ∀ k n, leNumber (leBytes k n) = n % 256 ^ k := by
  intro k
  induction k with
  | zero => intro n; simp [leBytes, leNumber, Nat.mod_one]
  | succ k ih =>
    intro n
    have h8 : (2 : Nat) ^ 8 = 256 := rfl
    rw [leBytes, leNumber, ih, UInt8.toNat_ofNat', h8, Nat.pow_succ', Nat.mod_mul]

end Hatn.Common
