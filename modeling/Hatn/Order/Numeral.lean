import Hatn.Order.Lex
import Mathlib.Data.Nat.Digits.Lemmas

/-!
# Numerals and their lexicographic order

A number written with a fixed count of digits, most significant first, sorts as
a string exactly as it sorts as a number.  Written with a *minimal* count of
digits it does so only up to that count: beyond it the longer numeral has to be
cut down to the shorter one before the two can be compared,

`numeral b w m < numeral b (w + k) n  ↔  m < n / b ^ k ∨ (m = n / b ^ k ∧ 0 < k)`.

* `numeral b w n`: the last `w` digits of `n` in base `b`.
* `padded b w n`: at least `w` digits of `n`, more where `n` needs more.
* `numeral_lt_numeral`, `padded_lt_padded`: the order of either.
-/

namespace Hatn.Order

/-- The last `w` digits of `n` in base `b`, most significant first. -/
def numeral (b : Nat) : Nat → Nat → List Nat
  | 0, _ => []
  | w + 1, n => numeral b w (n / b) ++ [n % b]

/-- The count of digits of `n` in base `b`; zero has none. -/
def digitCount (b n : Nat) : Nat := (Nat.digits b n).length

/-- `n` written with zeros in front up to `w` digits, and in full when it has more. -/
def padded (b w n : Nat) : List Nat := numeral b (max w (digitCount b n)) n

@[simp] theorem numeral_zero (b n : Nat) : numeral b 0 n = [] := rfl

theorem numeral_succ (b w n : Nat) : numeral b (w + 1) n = numeral b w (n / b) ++ [n % b] := rfl

@[simp] theorem numeral_length (b : Nat) : ∀ w n, (numeral b w n).length = w := by
  intro w
  induction w with
  | zero => intro n; rfl
  | succ w ih => intro n; simp [numeral_succ, ih]

theorem numeral_lt_base {b : Nat} (hb : 0 < b) : ∀ (w n : Nat), ∀ d ∈ numeral b w n, d < b := by
  intro w
  induction w with
  | zero => intro n d hd; simp at hd
  | succ w ih =>
    intro n d hd
    rw [numeral_succ, List.mem_append, List.mem_singleton] at hd
    rcases hd with hd | rfl
    · exact ih _ d hd
    · exact Nat.mod_lt _ hb

/-- A numeral splits into the numeral of the leading part and that of the rest. -/
theorem numeral_add (b w : Nat) :
    ∀ k n, numeral b (w + k) n = numeral b w (n / b ^ k) ++ numeral b k n := by
  intro k
  induction k with
  | zero => intro n; simp
  | succ k ih =>
    intro n
    rw [← Nat.add_assoc, numeral_succ, ih, numeral_succ, List.append_assoc, Nat.div_div_eq_div_mul,
      Nat.pow_succ, Nat.mul_comm b]

/-- The digits give the number again. -/
theorem foldl_numeral (b : Nat) : ∀ {w n : Nat}, n < b ^ w →
    (numeral b w n).foldl (fun v d => b * v + d) 0 = n := by
  intro w
  induction w with
  | zero => intro n h; simp at h; simp [h]
  | succ w ih =>
    intro n h
    have hdiv : n / b < b ^ w := Nat.div_lt_of_lt_mul (by rwa [Nat.pow_succ'] at h)
    rw [numeral_succ, List.foldl_append, ih hdiv, List.foldl_cons, List.foldl_nil,
      Nat.div_add_mod]

/-- A numeral shows the last digits only. -/
theorem numeral_mod (b : Nat) : ∀ w n, numeral b w (n % b ^ w) = numeral b w n := by
  intro w
  induction w with
  | zero => intro n; rfl
  | succ w ih =>
    intro n
    have hd : n % b ^ (w + 1) / b = n / b % b ^ w := by
      rw [Nat.pow_succ, Nat.mul_comm, Nat.mod_mul_right_div_self]
    rw [numeral_succ, numeral_succ, hd, ih, Nat.mod_mod_of_dvd n (Dvd.intro_left (b ^ w) (Nat.pow_succ ..).symm)]

/-- **Numerals of one length sort as their numbers.** -/
theorem numeral_lt_numeral {b : Nat} (hb : 0 < b) : ∀ {w m n : Nat}, m < b ^ w → n < b ^ w →
    (numeral b w m < numeral b w n ↔ m < n) := by
  intro w
  induction w with
  | zero =>
    intro m n hm hn
    simp only [Nat.pow_zero, Nat.lt_one_iff] at hm hn
    simp [hm, hn]
  | succ w ih =>
    intro m n hm hn
    have hm' : m / b < b ^ w := Nat.div_lt_of_lt_mul (by rwa [Nat.pow_succ, Nat.mul_comm] at hm)
    have hn' : n / b < b ^ w := Nat.div_lt_of_lt_mul (by rwa [Nat.pow_succ, Nat.mul_comm] at hn)
    have heq : numeral b w (m / b) = numeral b w (n / b) ↔ m / b = n / b := by
      refine ⟨fun h => ?_, fun h => by rw [h]⟩
      have h1 := (ih hm' hn').not.mp h.not_lt
      have h2 := (ih hn' hm').not.mp h.not_gt
      omega
    rw [numeral_succ, numeral_succ, append_lt_append (by simp), ih hm' hn', heq]
    have em := Nat.div_add_mod m b
    have en := Nat.div_add_mod n b
    have lm := Nat.mod_lt m hb
    have ln := Nat.mod_lt n hb
    simp only [List.cons_lt_cons_iff, List.not_lt_nil, and_false, or_false]
    constructor
    · rintro (h | ⟨h, h'⟩)
      · exact Nat.lt_of_div_lt_div h
      · rw [h] at em; omega
    · intro h
      rcases Nat.lt_or_ge (m / b) (n / b) with hlt | hge
      · exact Or.inl hlt
      · have he : m / b = n / b := Nat.le_antisymm (Nat.div_le_div_right h.le) hge
        rw [he] at em
        exact Or.inr ⟨he, by omega⟩

theorem numeral_inj {b : Nat} (hb : 0 < b) {w m n : Nat} (hm : m < b ^ w) (hn : n < b ^ w)
    (h : numeral b w m = numeral b w n) : m = n := by
  have h1 := (numeral_lt_numeral hb hm hn).not.mp h.not_lt
  have h2 := (numeral_lt_numeral hb hn hm).not.mp h.not_gt
  omega

/-- **A shorter numeral compares with the leading digits of a longer one.** -/
theorem numeral_lt_numeral_add {b : Nat} (hb : 0 < b) {w k m n : Nat} (hm : m < b ^ w)
    (hn : n < b ^ (w + k)) :
    (numeral b w m < numeral b (w + k) n ↔ m < n / b ^ k ∨ m = n / b ^ k ∧ 0 < k) := by
  have hn' : n / b ^ k < b ^ w :=
    Nat.div_lt_of_lt_mul (by rwa [← Nat.pow_add, Nat.add_comm])
  have hk : [] < numeral b k n ↔ 0 < k := by
    have hl := numeral_length b k n
    cases h : numeral b k n with
    | nil => rw [h] at hl; simp at hl; simp [← hl]
    | cons c l => rw [h] at hl; simp at hl; simp; omega
  have key := @append_lt_append Nat _ (numeral b w m) (numeral b w (n / b ^ k)) []
    (numeral b k n) (by simp)
  rw [List.append_nil] at key
  rw [numeral_add, key, numeral_lt_numeral hb hm hn', hk]
  refine or_congr_right (and_congr_left fun _ => ⟨fun h => numeral_inj hb hm hn' h, fun h => ?_⟩)
  rw [h]

/-! ### Minimal width -/

theorem lt_pow_digitCount {b : Nat} (hb : 1 < b) (n : Nat) : n < b ^ digitCount b n :=
  Nat.lt_base_pow_length_digits hb

theorem digitCount_le_iff {b : Nat} (hb : 1 < b) {k n : Nat} : digitCount b n ≤ k ↔ n < b ^ k :=
  Nat.digits_length_le_iff hb n

theorem digitCount_mono {b : Nat} (hb : 1 < b) {m n : Nat} (h : m ≤ n) :
    digitCount b m ≤ digitCount b n :=
  (digitCount_le_iff hb).mpr (Nat.lt_of_le_of_lt h (lt_pow_digitCount hb n))

theorem lt_pow_width {b : Nat} (hb : 1 < b) (w n : Nat) : n < b ^ max w (digitCount b n) :=
  (digitCount_le_iff hb).mp (Nat.le_max_right _ _)

/-- A number that fits the minimal width is written with just that many digits. -/
theorem padded_of_lt {b : Nat} (hb : 1 < b) {w n : Nat} (h : n < b ^ w) :
    padded b w n = numeral b w n := by
  rw [padded, Nat.max_eq_left ((digitCount_le_iff hb).mpr h)]

@[simp] theorem padded_length (b w n : Nat) :
    (padded b w n).length = max w (digitCount b n) := numeral_length _ _ _

theorem padded_lt_base {b : Nat} (hb : 0 < b) (w n : Nat) : ∀ d ∈ padded b w n, d < b :=
  numeral_lt_base hb _ _

/-- The minimal width carries over to the leading part. -/
theorem padded_add {b : Nat} (hb : 1 < b) (w k n : Nat) :
    padded b (w + k) n = padded b w (n / b ^ k) ++ numeral b k n := by
  have hj : ∀ j, digitCount b (n / b ^ k) ≤ j ↔ digitCount b n ≤ j + k := by
    intro j
    rw [digitCount_le_iff hb, digitCount_le_iff hb,
      Nat.div_lt_iff_lt_mul (Nat.pow_pos (by omega)), Nat.pow_add]
  have h1 := (hj (digitCount b (n / b ^ k))).mp (le_refl _)
  have h2 := (hj (digitCount b n - k)).mpr (by omega)
  have hw : max (w + k) (digitCount b n) = max w (digitCount b (n / b ^ k)) + k := by omega
  rw [padded, padded, hw, numeral_add]

/-- The number of digits by which the padded `n` is longer than the padded `m`. -/
def widthGap (b w m n : Nat) : Nat := max w (digitCount b n) - max w (digitCount b m)

/-- **The order of padded numerals**, for the smaller number on the left: it comes
first exactly when it does not exceed the leading digits of the larger one. -/
theorem padded_lt_padded {b : Nat} (hb : 1 < b) {w m n : Nat} (h : m < n) :
    (padded b w m < padded b w n ↔ m ≤ n / b ^ widthGap b w m n) := by
  have hmono := digitCount_mono hb h.le
  have hw : max w (digitCount b n) = max w (digitCount b m) + widthGap b w m n := by
    unfold widthGap; omega
  have hn : n < b ^ (max w (digitCount b m) + widthGap b w m n) := hw ▸ lt_pow_width hb w n
  rw [padded, padded, hw, numeral_lt_numeral_add (by omega) (lt_pow_width hb w m) hn]
  rcases Nat.eq_zero_or_pos (widthGap b w m n) with h0 | h0
  · rw [h0, Nat.pow_zero, Nat.div_one]; omega
  · omega

/-- For the larger number on the left. -/
theorem padded_gt_padded {b : Nat} (hb : 1 < b) {w m n : Nat} (h : m < n) :
    (padded b w n < padded b w m ↔ n / b ^ widthGap b w m n < m) := by
  have key := (padded_lt_padded hb (w := w) h).not
  have hne : padded b w m ≠ padded b w n := by
    intro he
    have hl := congrArg List.length he
    simp only [padded_length] at hl
    rw [padded, padded, hl] at he
    exact h.ne (numeral_inj (by omega) (hl ▸ lt_pow_width hb w m) (lt_pow_width hb w n) he)
  rw [not_lt, not_le] at key
  rw [← key]
  exact ⟨le_of_lt, fun hle => lt_of_le_of_ne hle hne.symm⟩

theorem padded_inj {b : Nat} (hb : 1 < b) {w m n : Nat} (he : padded b w m = padded b w n) :
    m = n := by
  have hl := congrArg List.length he
  simp only [padded_length] at hl
  rw [padded, padded, hl] at he
  exact numeral_inj (by omega) (hl ▸ lt_pow_width hb w m) (lt_pow_width hb w n) he

end Hatn.Order
