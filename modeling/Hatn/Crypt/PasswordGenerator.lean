import Mathlib.Algebra.Group.Nat.Defs
import Mathlib.Data.List.Basic
import Mathlib.Data.List.Range

/-!
# Generated passwords

`PasswordGenerator::generate` selects a class of characters for each place of a password by the
ranges of the weights, and puts a special character and a digit somewhere if they are missing.
The loop notes a special character as a digit.  So a special character is always put, and a digit
is not missed where there are special characters only (`generate_right_iff`).

The floating point numbers of the weights come in as the ranges that are made of them, and what
is random as the content of an array.
-/

namespace Hatn.Crypt

/-! ### Characters -/

inductive CharClass
  | letter
  | digit
  | special
  deriving DecidableEq

/-- `PasswordGenLetters`, `PasswordGenDigits` and `PasswordGenSpecials` -/
def CharClass.chars : CharClass → List Char
  | letter => "_abcdefghijklmnopqrstuvwxyzABCDEFGHIJKLMNOPQRSTUVWXYZ".toList
  | digit => "0123456789".toList
  | special => "~!@#$%^&*()\x7b\x7d+=-:;<>,.|/?[]".toList

theorem CharClass.length_pos (k : CharClass) : 0 < k.chars.length := by cases k <;> decide

/-- A character of the class. -/
def CharClass.pick (k : CharClass) (val : UInt32) : Char :=
  k.chars.get ⟨val.toNat % k.chars.length, Nat.mod_lt _ k.length_pos⟩

theorem CharClass.pick_mem (k : CharClass) (val : UInt32) : k.pick val ∈ k.chars :=
  List.get_mem _ _

/-- The classes have no character in common. -/
theorem CharClass.eq_of_mem {k k' : CharClass} {c : Char} (h : c ∈ k.chars) (h' : c ∈ k'.chars) :
    k = k' := by
  have hdisjoint : ∀ k k' : CharClass, k ≠ k' →
      (k.chars.all fun c => !k'.chars.elem c) = true := by
    intro k k' hne
    cases k <;> cases k' <;> first | exact absurd rfl hne | decide
  by_contra hne
  have hnot := List.all_eq_true.mp (hdisjoint k k' hne) c h
  rw [List.elem_eq_true_of_mem h'] at hnot
  cases hnot

/-! ### Generating -/

structure PasswordGeneratorParameters where
  minLength : Nat
  maxLength : Nat
  lettersWeight : Nat
  digitsWeight : Nat
  specialsWeight : Nat
  hasSpecial : Bool
  hasDigit : Bool

/-- The password that is made, and what the loop has noted. -/
structure PasswordState where
  password : List Char
  hasSpecial : Bool
  hasDigit : Bool

/-- An assignment to an element, if there is one. -/
def setAt (password : List Char) (i : Nat) (c : Char) : Option (List Char) :=
  if i < password.length then some (password.set i c) else none

namespace PasswordGeneratorParameters

variable (p : PasswordGeneratorParameters) (letters digits : UInt32) (raw : Nat → UInt32)

/-- `letters` is what comes of the floating point numbers. -/
def lettersRange : UInt32 := if p.lettersWeight = 0 then 0 else letters

def digitsRange : UInt32 := if p.digitsWeight = 0 then 0 else p.lettersRange letters + digits

/-- The branches of the loop. -/
def select (val : UInt32) : CharClass :=
  if val ≤ p.lettersRange letters then .letter
  else if val ≤ p.digitsRange letters digits then
    if p.hasDigit then .digit else .letter
  else
    if p.hasSpecial then .special else .letter

def rawSize : Nat := (p.maxLength * 2 + 24) % 2 ^ 64

/-- An element of `rawData`, if it is in range. -/
def rawData (i : Nat) : Option UInt32 := if i < p.rawSize then some (raw i) else none

/-- The place of an element of `arr` in `rawData`. -/
def arrIndex (k : Nat) : Nat := (p.maxLength * 2 + 4 + k) % 2 ^ 64

def arr (k : Nat) : Option UInt32 := p.rawData raw (p.arrIndex k)

/-- The body of the loop: special characters are noted as digits. -/
def step (s : PasswordState) (i : Nat) : Option PasswordState := do
  let val ← p.rawData raw (2 * i + 1)
  let val1 ← p.rawData raw (2 * i + 2)
  let k := p.select letters digits val
  let password ← setAt s.password i (k.pick val1)
  match k with
  | .letter => return { s with password }
  | .digit => return { s with password, hasDigit := true }
  | .special => return { s with password, hasDigit := true }

/-- A special character is put if none was noted; with its index. -/
def addSpecial (s : PasswordState) : Option (List Char × Option Nat) :=
  if !s.hasSpecial && p.hasSpecial && p.specialsWeight != 0 then do
    let index := (← p.arr raw 0).toNat % s.password.length
    let password ← setAt s.password index (CharClass.special.pick (← p.arr raw 1))
    return (password, some index)
  else some (s.password, none)

/-- The loop that looks for another index; at the end of `arr`, the next one is taken. -/
def otherIndex (size lockIndex : Nat) : List Nat → Nat → Option Nat
  | [], _ => some ((lockIndex + 1) % 2 ^ 32 % size)
  | i :: is, index =>
    if index = lockIndex then do otherIndex size lockIndex is ((← p.arr raw i).toNat % size)
    else some index

/-- A digit is put if none was noted, at another index. -/
def addDigit (s : PasswordState) (password : List Char) (lockIndex : Option Nat) :
    Option (List Char) :=
  if !s.hasDigit && p.hasDigit && p.digitsWeight != 0 then do
    let index := (← p.arr raw 2).toNat % password.length
    let index ←
      if lockIndex = some index then
        p.otherIndex raw password.length index (List.range' 4 16) index
      else some index
    setAt password index (CharClass.digit.pick (← p.arr raw 3))
  else some password

/-- The length is random, unless there is no choice. -/
def chooseLength : Option Nat :=
  if p.minLength < p.maxLength then
    (p.rawData raw 0).map fun val => p.minLength + val.toNat % (p.maxLength - p.minLength)
  else some p.maxLength

def generate : Option (List Char) := do
  let length ← p.chooseLength raw
  let s ← (List.range length).foldlM (p.step letters digits raw)
    ⟨List.replicate length '\x00', false, false⟩
  let (password, lockIndex) ← p.addSpecial raw s
  p.addDigit raw s password lockIndex

/-! ### What passwords are for -/

structure Meets (password : List Char) : Prop where
  min_le : p.minLength ≤ password.length
  le_max : password.length ≤ p.maxLength
  chars : ∀ c ∈ password, ∃ k : CharClass, c ∈ k.chars
  special : p.hasSpecial = true → p.specialsWeight ≠ 0 → ∃ c ∈ password, c ∈ CharClass.special.chars
  digit : p.hasDigit = true → p.digitsWeight ≠ 0 → ∃ c ∈ password, c ∈ CharClass.digit.chars
  noSpecial : p.hasSpecial = false → ∀ c ∈ password, c ∉ CharClass.special.chars
  noDigit : p.hasDigit = false → ∀ c ∈ password, c ∉ CharClass.digit.chars

/-- A password is generated, with all accesses in range, and it meets the parameters. -/
def Right : Prop := ∃ password, p.generate letters digits raw = some password ∧ p.Meets password

/-- The length of the password. -/
def length : Nat :=
  if p.minLength < p.maxLength then
    p.minLength + (raw 0).toNat % (p.maxLength - p.minLength)
  else p.maxLength

/-- The class of the character at a place. -/
def classAt (i : Nat) : CharClass := p.select letters digits (raw (2 * i + 1))

def addsSpecial : Bool := p.hasSpecial && p.specialsWeight != 0

def addsDigit : Bool := p.hasDigit && p.digitsWeight != 0

/-- The index of the special character that is put. -/
def lockIndex : Nat := (raw (p.arrIndex 0)).toNat % p.length raw

/-- If digits are wanted, then there are only letters, or there is a digit where no special character
is put. -/
def KeepsDigit : Prop :=
  p.addsDigit = true →
    (∀ i < p.length raw, p.classAt letters digits raw i = .letter) ∨
    ∃ i < p.length raw, p.classAt letters digits raw i = .digit ∧
      (p.addsSpecial = true → i ≠ p.lockIndex raw)

/-- The size of the random array is a number of 64 bits. -/
def Fits : Prop := p.maxLength * 2 + 24 < 2 ^ 64

/-! ### Runs of the loop -/

variable {p letters digits raw}

theorem le_length (h : p.minLength ≤ p.maxLength) : p.minLength ≤ p.length raw := by
  rw [length]
  split <;> omega

theorem length_le : p.length raw ≤ p.maxLength := by
  rw [length]
  split
  next hlt =>
    have hmod := Nat.mod_lt (raw 0).toNat (Nat.sub_pos_of_lt hlt)
    omega
  next => exact Nat.le_refl _

section Fits
variable (hfits : p.Fits)
include hfits

theorem rawData_eq {i : Nat} (h : i < p.maxLength * 2 + 24) : p.rawData raw i = some (raw i) := by
  have hsize : p.rawSize = p.maxLength * 2 + 24 := Nat.mod_eq_of_lt hfits
  rw [rawData, hsize, if_pos h]

theorem arr_eq {k : Nat} (h : k < 20) : p.arr raw k = some (raw (p.arrIndex k)) := by
  have hfits' : p.maxLength * 2 + 24 < 2 ^ 64 := hfits
  have hindex : p.arrIndex k = p.maxLength * 2 + 4 + k := Nat.mod_eq_of_lt (by omega)
  rw [arr, hindex]
  exact rawData_eq hfits (by omega)

end Fits

variable (p letters digits raw)

/-- The character that the loop puts at a place. -/
def charAt (i : Nat) : Char := (p.classAt letters digits raw i).pick (raw (2 * i + 2))

/-- What the loop notes as digits. -/
def notes (n : Nat) : Bool := (List.range n).any fun i => p.classAt letters digits raw i ≠ .letter

variable {p letters digits raw}

theorem step_eq (hfits : p.Fits) {s : PasswordState} {i : Nat} (hi : i < p.maxLength)
    (hlength : i < s.password.length) : p.step letters digits raw s i =
      some { s with
        password := s.password.set i (p.charAt letters digits raw i)
        hasDigit := s.hasDigit || decide (p.classAt letters digits raw i ≠ .letter) } := by
  rw [step, rawData_eq hfits (by omega), rawData_eq hfits (by omega)]
  simp only [Option.bind_eq_bind, Option.bind_some, setAt, if_pos hlength]
  rw [charAt, classAt]
  cases p.select letters digits (raw (2 * i + 1)) <;> simp

theorem map_range_set {α : Type} (f : Nat → α) (a : α) {n m : Nat} (h : n < m) :
    ((List.range n).map f ++ List.replicate (m - n) a).set n (f n) =
      (List.range (n + 1)).map f ++ List.replicate (m - (n + 1)) a := by
  have hlength : ((List.range n).map f).length = n := by rw [List.length_map, List.length_range]
  obtain ⟨k, hk⟩ : ∃ k, m - n = k + 1 := ⟨m - n - 1, by omega⟩
  have hk' : m - (n + 1) = k := by omega
  rw [hk, hk', List.set_append_right _ _ (Nat.le_of_eq hlength), hlength, Nat.sub_self,
    List.replicate_succ, List.set_cons_zero, List.range_succ, List.map_append, List.append_assoc]
  rfl

/-- **The loop** puts the characters one by one. -/
theorem loop_eq (hfits : p.Fits) {length : Nat} (hle : length ≤ p.maxLength) : ∀ n ≤ length,
    (List.range n).foldlM (p.step letters digits raw)
        ⟨List.replicate length '\x00', false, false⟩ =
      some ⟨(List.range n).map (p.charAt letters digits raw) ++
        List.replicate (length - n) '\x00', false, p.notes letters digits raw n⟩ := by
  intro n
  induction n with
  | zero => exact fun _ => rfl
  | succ n ih =>
    intro hn
    have hpassword : ((List.range n).map (p.charAt letters digits raw) ++
        List.replicate (length - n) '\x00').length = length := by
      rw [List.length_append, List.length_map, List.length_range, List.length_replicate]
      omega
    rw [List.range_succ, List.foldlM_append, ih (by omega)]
    simp only [Option.bind_eq_bind, Option.bind_some, List.foldlM_cons, List.foldlM_nil]
    rw [step_eq hfits (by omega) (by rw [hpassword]; omega)]
    simp only [Option.bind_some, Option.pure_def, Option.some.injEq, PasswordState.mk.injEq,
      true_and]
    refine ⟨?_, ?_⟩
    · rw [← List.range_succ]
      exact map_range_set _ _ hn
    · rw [notes, notes, List.range_succ, List.any_append, List.any_cons, List.any_nil,
        Bool.or_false]

/-! ### What is put behind the loop -/

variable (raw)

theorem otherIndex_eq (hfits : p.Fits) {size lockIndex : Nat} (hsize : 2 ≤ size)
    (hlock : lockIndex < size) (hlock' : lockIndex < 2 ^ 32) (is : List Nat) :
    ∀ index < size, (∀ k ∈ is, k < 20) →
      ∃ i < size, p.otherIndex raw size lockIndex is index = some i ∧ i ≠ lockIndex := by
  induction is with
  | nil =>
    intro index _ _
    refine ⟨(lockIndex + 1) % 2 ^ 32 % size, Nat.mod_lt _ (by omega), rfl, ?_⟩
    by_cases hmax : lockIndex + 1 = 2 ^ 32
    · rw [hmax, Nat.mod_self, Nat.zero_mod]
      omega
    · rw [Nat.mod_eq_of_lt (show lockIndex + 1 < 2 ^ 32 by omega)]
      by_cases hlast : lockIndex + 1 = size
      · rw [hlast, Nat.mod_self]
        omega
      · rw [Nat.mod_eq_of_lt (by omega)]
        omega
  | cons i is ih =>
    intro index hindex his
    rw [otherIndex]
    split
    next heq =>
      rw [arr_eq hfits (his i List.mem_cons_self)]
      exact ih _ (Nat.mod_lt _ (by omega)) fun k hk => his k (List.mem_cons_of_mem i hk)
    next hne => exact ⟨index, hindex, rfl, hne⟩

theorem addSpecial_eq (hfits : p.Fits) {s : PasswordState} (hs : s.hasSpecial = false)
    (hlength : s.password.length = p.length raw) (hpos : 0 < p.length raw) :
    p.addSpecial raw s = some (if p.addsSpecial = true then
      (s.password.set (p.lockIndex raw) (CharClass.special.pick (raw (p.arrIndex 1))),
        some (p.lockIndex raw)) else (s.password, none)) := by
  rw [addSpecial, hs, addsSpecial]
  split
  next h =>
    rw [Bool.not_false, Bool.true_and] at h
    rw [if_pos h, arr_eq hfits (by decide), arr_eq hfits (by decide)]
    simp only [Option.bind_eq_bind, Option.bind_some, setAt, hlength]
    rw [if_pos (Nat.mod_lt _ hpos)]
    rfl
  next h =>
    rw [Bool.not_false, Bool.true_and] at h
    rw [if_neg h]

theorem addDigit_eq (hfits : p.Fits) (s : PasswordState) {password : List Char}
    (lockIndex : Option Nat) (hsize : 2 ≤ password.length) :
    ∃ i < password.length, lockIndex ≠ some i ∧
      p.addDigit raw s password lockIndex = some (if (!s.hasDigit && p.addsDigit) = true then
        password.set i (CharClass.digit.pick (raw (p.arrIndex 3))) else password) := by
  let index := (raw (p.arrIndex 2)).toNat % password.length
  have hindex : index < password.length := Nat.mod_lt _ (by omega)
  have hindex' : index < 2 ^ 32 :=
    Nat.lt_of_le_of_lt (Nat.mod_le _ _) (raw (p.arrIndex 2)).toNat_lt
  -- the index that is found, and that the digit is put there
  obtain ⟨i, hi, hne, hput⟩ : ∃ i < password.length, lockIndex ≠ some i ∧
      (if lockIndex = some index then
        (p.otherIndex raw password.length index (List.range' 4 16) index).bind fun index =>
          setAt password index (CharClass.digit.pick (raw (p.arrIndex 3)))
        else setAt password index (CharClass.digit.pick (raw (p.arrIndex 3)))) =
      some (password.set i (CharClass.digit.pick (raw (p.arrIndex 3)))) := by
    by_cases hlock : lockIndex = some index
    · obtain ⟨i, hi, hsome, hne⟩ := otherIndex_eq raw hfits hsize hindex hindex'
        (List.range' 4 16) index hindex (by decide)
      refine ⟨i, hi, fun h => hne (Option.some.inj (h.symm.trans hlock)), ?_⟩
      rw [if_pos hlock, hsome]
      exact if_pos hi
    · exact ⟨index, hindex, hlock, (if_neg hlock).trans (if_pos hindex)⟩
  refine ⟨i, hi, hne, ?_⟩
  rw [addDigit, addsDigit, Bool.and_assoc]
  split
  next h =>
    rw [arr_eq hfits (by decide), arr_eq hfits (by decide)]
    exact hput
  next h => rfl

/-! ### Passwords -/

variable (p letters digits)

/-- The characters of the loop, with the special one that is put. -/
def withSpecial : List Char :=
  let made := (List.range (p.length raw)).map (p.charAt letters digits raw)
  if p.addsSpecial = true then
    made.set (p.lockIndex raw) (CharClass.special.pick (raw (p.arrIndex 1)))
  else made

/-- The password, with the digit at `i` if one is put. -/
def result (i : Nat) : List Char :=
  if (!p.notes letters digits raw (p.length raw) && p.addsDigit) = true then
    (p.withSpecial letters digits raw).set i (CharClass.digit.pick (raw (p.arrIndex 3)))
  else p.withSpecial letters digits raw

variable {p letters digits raw}

theorem length_withSpecial : (p.withSpecial letters digits raw).length = p.length raw := by
  rw [withSpecial]
  split
  next => rw [List.length_set, List.length_map, List.length_range]
  next => rw [List.length_map, List.length_range]

theorem length_result (i : Nat) : (p.result letters digits raw i).length = p.length raw := by
  rw [result]
  split
  next => rw [List.length_set, length_withSpecial]
  next => exact length_withSpecial

variable (letters digits raw)

theorem generate_eq (hmin : 2 ≤ p.minLength) (hle : p.minLength ≤ p.maxLength) (hfits : p.Fits) :
    ∃ i < p.length raw, (p.addsSpecial = true → i ≠ p.lockIndex raw) ∧
      p.generate letters digits raw = some (p.result letters digits raw i) := by
  have hlength : 2 ≤ p.length raw := hmin.trans (le_length hle)
  have hchosen : p.chooseLength raw = some (p.length raw) := by
    rw [chooseLength, length, rawData_eq hfits (by omega)]
    split <;> rfl
  let made := (List.range (p.length raw)).map (p.charAt letters digits raw)
  have hmade : made.length = p.length raw := by rw [List.length_map, List.length_range]
  let s : PasswordState := ⟨made, false, p.notes letters digits raw (p.length raw)⟩
  have hloop : (List.range (p.length raw)).foldlM (p.step letters digits raw)
      ⟨List.replicate (p.length raw) '\x00', false, false⟩ = some s := by
    rw [loop_eq hfits length_le _ (Nat.le_refl _), Nat.sub_self, List.replicate_zero,
      List.append_nil]
  have hspecial := addSpecial_eq raw hfits (s := s) rfl hmade (by omega)
  rw [generate, hchosen]
  simp only [Option.bind_eq_bind, Option.bind_some]
  rw [hloop, Option.bind_some, hspecial, Option.bind_some]
  have hsize : (p.withSpecial letters digits raw).length = p.length raw := length_withSpecial
  rw [withSpecial] at hsize
  by_cases hadds : p.addsSpecial = true
  · rw [if_pos hadds]
    dsimp only at hsize ⊢
    rw [if_pos hadds] at hsize
    obtain ⟨i, hi, hne, hput⟩ := addDigit_eq raw hfits s (some (p.lockIndex raw))
      (hlength.trans (Nat.le_of_eq hsize.symm))
    refine ⟨i, hsize ▸ hi, fun _ h => hne (congrArg some h.symm), hput.trans ?_⟩
    rw [result, withSpecial, if_pos hadds]
  · rw [if_neg hadds]
    dsimp only at hsize ⊢
    rw [if_neg hadds] at hsize
    obtain ⟨i, hi, -, hput⟩ := addDigit_eq raw hfits s none
      (hlength.trans (Nat.le_of_eq hsize.symm))
    refine ⟨i, hsize ▸ hi, fun h => absurd h hadds, hput.trans ?_⟩
    rw [result, withSpecial, if_neg hadds]

variable {letters digits raw}

theorem select_special {val : UInt32} (h : p.select letters digits val = .special) :
    p.hasSpecial = true := by
  rw [select] at h
  split_ifs at h with _ _ _ hspecial
  exact hspecial

theorem select_digit {val : UInt32} (h : p.select letters digits val = .digit) :
    p.hasDigit = true := by
  rw [select] at h
  split_ifs at h with _ _ hdigit
  exact hdigit

/-- Special characters and digits are put only if they are wanted. -/
theorem class_of_mem {i : Nat} {c : Char} (hc : c ∈ p.result letters digits raw i) :
    ∃ k : CharClass, c ∈ k.chars ∧ (k = .special → p.hasSpecial = true) ∧
      (k = .digit → p.hasDigit = true) := by
  have hmade : c ∈ (List.range (p.length raw)).map (p.charAt letters digits raw) →
      ∃ k : CharClass, c ∈ k.chars ∧ (k = .special → p.hasSpecial = true) ∧
        (k = .digit → p.hasDigit = true) := by
    intro hc
    obtain ⟨j, -, rfl⟩ := List.mem_map.mp hc
    exact ⟨_, CharClass.pick_mem _ _, select_special, select_digit⟩
  have hwith : c ∈ p.withSpecial letters digits raw →
      ∃ k : CharClass, c ∈ k.chars ∧ (k = .special → p.hasSpecial = true) ∧
        (k = .digit → p.hasDigit = true) := by
    intro hc
    rw [withSpecial] at hc
    split at hc
    next h =>
      rw [addsSpecial, Bool.and_eq_true] at h
      rcases List.mem_or_eq_of_mem_set hc with hc | rfl
      · exact hmade hc
      · exact ⟨.special, CharClass.pick_mem _ _, fun _ => h.1, nofun⟩
    next => exact hmade hc
  rw [result] at hc
  split at hc
  next h =>
    rw [Bool.and_eq_true, addsDigit, Bool.and_eq_true] at h
    rcases List.mem_or_eq_of_mem_set hc with hc | rfl
    · exact hwith hc
    · exact ⟨.digit, CharClass.pick_mem _ _, nofun, fun _ => h.2.1⟩
  next => exact hwith hc

/-- The special character that is put stays. -/
theorem special_mem (hadds : p.addsSpecial = true) (hpos : 0 < p.length raw) {i : Nat}
    (hi : i ≠ p.lockIndex raw) :
    CharClass.special.pick (raw (p.arrIndex 1)) ∈ p.result letters digits raw i := by
  have hlock : p.lockIndex raw < p.length raw := Nat.mod_lt _ hpos
  have hget : (p.withSpecial letters digits raw)[p.lockIndex raw]? =
      some (CharClass.special.pick (raw (p.arrIndex 1))) := by
    rw [withSpecial, if_pos hadds, List.getElem?_set_self (by rwa [List.length_map, List.length_range])]
  refine List.mem_of_getElem? (i := p.lockIndex raw) ?_
  rw [result]
  split
  next => rw [List.getElem?_set_ne hi, hget]
  next => exact hget

/-- Where a digit is in the password before one is put. -/
theorem digit_mem_withSpecial :
    (∃ c ∈ p.withSpecial letters digits raw, c ∈ CharClass.digit.chars) ↔
      ∃ i < p.length raw, p.classAt letters digits raw i = .digit ∧
        (p.addsSpecial = true → i ≠ p.lockIndex raw) := by
  have hmade : ∀ i < p.length raw,
      ((List.range (p.length raw)).map (p.charAt letters digits raw))[i]? =
        some (p.charAt letters digits raw i) := by
    intro i hi
    rw [List.getElem?_map, List.getElem?_range hi]
    rfl
  have hget : ∀ i < p.length raw, (p.withSpecial letters digits raw)[i]? =
      some (if p.addsSpecial = true ∧ i = p.lockIndex raw then
        CharClass.special.pick (raw (p.arrIndex 1)) else p.charAt letters digits raw i) := by
    intro i hi
    rw [withSpecial]
    by_cases hadds : p.addsSpecial = true
    · rw [if_pos hadds]
      by_cases hlock : i = p.lockIndex raw
      · rw [if_pos ⟨hadds, hlock⟩, ← hlock,
          List.getElem?_set_self (by rwa [List.length_map, List.length_range])]
      · rw [if_neg fun h => hlock h.2, List.getElem?_set_ne (Ne.symm hlock), hmade i hi]
    · rw [if_neg hadds, if_neg fun h => hadds h.1, hmade i hi]
  constructor
  · rintro ⟨c, hc, hdigit⟩
    obtain ⟨i, hi⟩ := List.mem_iff_getElem?.mp hc
    have hlt : i < p.length raw := by
      rw [← length_withSpecial]
      exact (List.getElem?_eq_some_iff.mp hi).1
    rw [hget i hlt] at hi
    have hc := Option.some.inj hi
    by_cases hlock : p.addsSpecial = true ∧ i = p.lockIndex raw
    · rw [if_pos hlock] at hc
      have heq : CharClass.digit = .special :=
        CharClass.eq_of_mem hdigit (hc ▸ CharClass.pick_mem .special _)
      cases heq
    · rw [if_neg hlock] at hc
      refine ⟨i, hlt, ?_, fun hadds h => hlock ⟨hadds, h⟩⟩
      exact CharClass.eq_of_mem (hc ▸ CharClass.pick_mem _ _) hdigit
  · rintro ⟨i, hi, hclass, hne⟩
    refine ⟨p.charAt letters digits raw i, List.mem_of_getElem? ((hget i hi).trans ?_), ?_⟩
    · rw [if_neg fun h => hne h.1 h.2]
    · rw [charAt, hclass]
      exact CharClass.pick_mem _ _

theorem notes_eq_false_iff {n : Nat} : p.notes letters digits raw n = false ↔
    ∀ i < n, p.classAt letters digits raw i = .letter := by
  rw [notes, List.any_eq_false]
  simp only [List.mem_range, ne_eq, decide_not, Bool.not_eq_true', decide_eq_false_iff_not,
    not_not]

theorem digit_mem_iff (hadds : p.addsDigit = true) {i : Nat} (hi : i < p.length raw) :
    (∃ c ∈ p.result letters digits raw i, c ∈ CharClass.digit.chars) ↔
      (∀ i < p.length raw, p.classAt letters digits raw i = .letter) ∨
      ∃ i < p.length raw, p.classAt letters digits raw i = .digit ∧
        (p.addsSpecial = true → i ≠ p.lockIndex raw) := by
  rw [← notes_eq_false_iff, result, hadds, Bool.and_true]
  cases p.notes letters digits raw (p.length raw) with
  | false =>
    refine iff_of_true ⟨_, ?_, CharClass.pick_mem _ (raw (p.arrIndex 3))⟩ (.inl rfl)
    exact List.mem_set (by rwa [length_withSpecial]) _
  | true =>
    rw [← digit_mem_withSpecial]
    exact ⟨.inr, fun h => h.resolve_left nofun⟩

/-- **A generated password meets the parameters** if and only if its digit is kept. -/
theorem generate_right_iff (hmin : 2 ≤ p.minLength) (hle : p.minLength ≤ p.maxLength)
    (hfits : p.Fits) (letters digits : UInt32) (raw : Nat → UInt32) :
    p.Right letters digits raw ↔ p.KeepsDigit letters digits raw := by
  obtain ⟨i, hi, hne, hgenerate⟩ := generate_eq letters digits raw hmin hle hfits
  rw [Right, hgenerate]
  simp only [Option.some.injEq, exists_eq_left']
  constructor
  · intro h hadds
    have hadds' := hadds
    rw [addsDigit, Bool.and_eq_true, bne_iff_ne] at hadds'
    exact (digit_mem_iff hadds hi).mp (h.digit hadds'.1 hadds'.2)
  · intro h
    exact
      { min_le := length_result i ▸ le_length hle
        le_max := length_result i ▸ length_le
        chars := fun c hc => (class_of_mem hc).imp fun _ h => h.1
        special := by
          intro hspecial hweight
          have hadds : p.addsSpecial = true := by
            rw [addsSpecial, hspecial, Bool.true_and, bne_iff_ne]
            exact hweight
          exact ⟨_, special_mem hadds (Nat.lt_of_le_of_lt (Nat.zero_le i) hi) (hne hadds),
            CharClass.pick_mem _ _⟩
        digit := by
          intro hdigit hweight
          have hadds : p.addsDigit = true := by
            rw [addsDigit, hdigit, Bool.true_and, bne_iff_ne]
            exact hweight
          exact (digit_mem_iff hadds hi).mpr (h hadds)
        noSpecial := by
          intro hspecial c hc hmem
          obtain ⟨k, hk, hwanted, -⟩ := class_of_mem hc
          rw [hwanted (CharClass.eq_of_mem hk hmem)] at hspecial
          cases hspecial
        noDigit := by
          intro hdigit c hc hmem
          obtain ⟨k, hk, -, hwanted⟩ := class_of_mem hc
          rw [hwanted (CharClass.eq_of_mem hk hmem)] at hdigit
          cases hdigit }

/-- Passwords of two characters, with weights for special characters and digits. -/
def sampleParameters : PasswordGeneratorParameters := ⟨2, 2, 0, 1, 1, true, true⟩

theorem generate_right_sample : sampleParameters.Right 0 9 (fun _ => 5) ↔
    sampleParameters.KeepsDigit 0 9 fun _ => 5 :=
  have hfits : sampleParameters.Fits := show 2 * 2 + 24 < 2 ^ 64 by decide
  generate_right_iff (by decide) (by decide) hfits 0 9 fun _ => 5

/-- All random numbers are above the range of the digits: there are special characters only. -/
theorem digit_is_missed : ¬ sampleParameters.Right 0 9 fun _ => 10 := by
  rintro ⟨password, hgenerate, hmeets⟩
  have hgenerated : sampleParameters.generate 0 9 (fun _ => 10) = some [')', ')'] := by decide
  rw [hgenerated] at hgenerate
  cases hgenerate
  obtain ⟨c, hc, hdigit⟩ := hmeets.digit rfl (by decide)
  rcases List.mem_cons.mp hc with rfl | hc
  · exact absurd hdigit (by decide)
  · rw [List.mem_singleton.mp hc] at hdigit
    exact absurd hdigit (by decide)

end PasswordGeneratorParameters

end Hatn.Crypt
