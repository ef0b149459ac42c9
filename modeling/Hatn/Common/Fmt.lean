import Hatn.Order.Numeral

/-!
# Numbers in text

The text forms of numbers that keys and ids are made of: hexadecimal and decimal
numerals with a minimal count of digits and zeros in front.  `fmtHex_lt` says
that numbers which fit that count are written in the order of the numbers.
-/

namespace Hatn.Common

open Hatn.Order

/-- The character of a digit, `0`-`9` and then `a`-`f`. -/
def digitChar (d : Nat) : UInt8 := if d < 10 then UInt8.ofNat (48 + d) else UInt8.ofNat (87 + d)

/-- `{:0wx}` of an unsigned number. -/
def fmtHex (w n : Nat) : List UInt8 := (padded 16 w n).map digitChar

/-- `{:0wd}` of an unsigned number. -/
def fmtDec (w n : Nat) : List UInt8 := (padded 10 w n).map digitChar

theorem digitChar_toNat {d : Nat} (h : d < 16) :
    (digitChar d).toNat = if d < 10 then 48 + d else 87 + d := by
  unfold digitChar
  split
  · rw [UInt8.toNat_ofNat']; omega
  · rw [UInt8.toNat_ofNat']; omega

theorem digitChar_lt {a b : Nat} (ha : a < 16) (hb : b < 16) :
    digitChar a < digitChar b ↔ a < b := by
  rw [UInt8.lt_iff_toNat_lt, digitChar_toNat ha, digitChar_toNat hb]
  split <;> split <;> omega

/-- Digits stay clear of the control characters that serve as marks. -/
theorem two_lt_digitChar {d : Nat} (h : d < 16) : 2 < digitChar d := by
  rw [UInt8.lt_iff_toNat_lt, digitChar_toNat h]
  have : (2 : UInt8).toNat = 2 := rfl
  split <;> omega

theorem map_digitChar_lt {x y : List Nat} (hx : ∀ d ∈ x, d < 16) (hy : ∀ d ∈ y, d < 16) :
    x.map digitChar < y.map digitChar ↔ x < y :=
  map_lt_map (P := (· < 16)) (fun _ _ ha hb => digitChar_lt ha hb) hx hy

theorem map_digitChar_inj {x y : List Nat} (hx : ∀ d ∈ x, d < 16) (hy : ∀ d ∈ y, d < 16)
    (h : x.map digitChar = y.map digitChar) : x = y := by
  have h1 := (map_digitChar_lt hx hy).not.mp h.not_lt
  have h2 := (map_digitChar_lt hy hx).not.mp h.not_gt
  exact le_antisymm (not_lt.mp h2) (not_lt.mp h1)

theorem two_lt_map_digitChar {x : List Nat} (hx : ∀ d ∈ x, d < 16) :
    ∀ c ∈ x.map digitChar, 2 < c := by
  intro c hc
  obtain ⟨d, hd, rfl⟩ := List.mem_map.mp hc
  exact two_lt_digitChar (hx d hd)

@[simp] theorem fmtHex_length (w n : Nat) :
    (fmtHex w n).length = max w (digitCount 16 n) := by simp [fmtHex]

theorem fmtHex_length_of_lt {w n : Nat} (h : n < 16 ^ w) : (fmtHex w n).length = w := by
  rw [fmtHex_length, Nat.max_eq_left ((digitCount_le_iff (by omega)).mpr h)]

theorem two_lt_fmtHex (w n : Nat) : ∀ c ∈ fmtHex w n, 2 < c :=
  two_lt_map_digitChar (padded_lt_base (by omega) w n)

theorem fmtHex_inj {w m n : Nat} (h : fmtHex w m = fmtHex w n) : m = n :=
  padded_inj (by omega) (map_digitChar_inj (padded_lt_base (by omega) w m)
    (padded_lt_base (by omega) w n) h)

/-- Numbers that fit the width are written in the order of the numbers. -/
theorem fmtHex_lt {w m n : Nat} (hm : m < 16 ^ w) (hn : n < 16 ^ w) :
    fmtHex w m < fmtHex w n ↔ m < n := by
  rw [fmtHex, fmtHex, map_digitChar_lt (padded_lt_base (by omega) w m)
    (padded_lt_base (by omega) w n), padded_of_lt (by omega) hm, padded_of_lt (by omega) hn]
  exact numeral_lt_numeral (by omega) hm hn

/-- The same for decimal numbers. -/
theorem fmtDec_lt {w m n : Nat} (hm : m < 10 ^ w) (hn : n < 10 ^ w) :
    fmtDec w m < fmtDec w n ↔ m < n := by
  have hd : ∀ k, ∀ d ∈ padded 10 w k, d < 16 := fun k d h =>
    lt_trans (padded_lt_base (by omega) w k d h) (by omega)
  rw [fmtDec, fmtDec, map_digitChar_lt (hd m) (hd n), padded_of_lt (by omega) hm,
    padded_of_lt (by omega) hn]
  exact numeral_lt_numeral (by omega) hm hn

end Hatn.Common
