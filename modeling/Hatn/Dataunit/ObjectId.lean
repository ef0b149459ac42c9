import Mathlib.Data.List.TakeWhile
import Hatn.Common.Fmt
import Mathlib.Data.Prod.Lex
import Mathlib.Order.Fin.Basic

/-!
# Object ids

An object id is a time point, a sequence number and a random number, compared in
this order.  Its text form has 25 hex digits, 11 for the time point, 6 for the
sequence number and 8 for the random part, so only ids whose parts fit these
digits (`ObjectId.Fits`) can be told apart; these are written in their order.
-/

namespace Hatn.Dataunit

open Hatn.Order Hatn.Common

scoped instance neZero_timepoint : NeZero (2 ^ 64) := ⟨by decide⟩

scoped instance neZero_seq : NeZero (2 ^ 32) := ⟨by decide⟩

/-- An object id: milliseconds since epoch, a sequence number, a random number. -/
@[ext] structure ObjectId where
  timepoint : Fin (2 ^ 64)
  seq : Fin (2 ^ 32)
  rand : Fin (2 ^ 32)
  deriving DecidableEq

namespace ObjectId

/-- `operator <`: the time point first, then the sequence, then the random part. -/
def lt (a b : ObjectId) : Bool :=
  if a.timepoint < b.timepoint then true
  else if b.timepoint < a.timepoint then false
  else if a.seq < b.seq then true
  else if b.seq < a.seq then false
  else if a.rand < b.rand then true
  else false

def parts (a : ObjectId) : Fin (2 ^ 64) ×ₗ Fin (2 ^ 32) ×ₗ Fin (2 ^ 32) :=
  toLex (a.timepoint, toLex (a.seq, a.rand))

theorem parts_injective : Function.Injective parts := by
  intro a b h
  have h' := congrArg (fun p => (ofLex p).1) h
  have h'' := congrArg (fun p => ofLex (ofLex p).2) h
  simp only [parts, ofLex_toLex, Prod.mk.injEq] at h' h''
  exact ObjectId.ext h' h''.1 h''.2

instance : LinearOrder ObjectId := LinearOrder.lift' parts parts_injective

theorem lt_iff (a b : ObjectId) : a < b ↔ a.timepoint < b.timepoint ∨
    a.timepoint = b.timepoint ∧ (a.seq < b.seq ∨ a.seq = b.seq ∧ a.rand < b.rand) := by
  show parts a < parts b ↔ _
  simp only [parts, Prod.Lex.toLex_lt_toLex]

/-- The order in use is the `operator <` of the source. -/
theorem lt_eq (a b : ObjectId) : a.lt b = true ↔ a < b := by
  rw [lt_iff]
  unfold lt
  split_ifs <;> simp_all <;> omega

/-- The parts fit the digits they are written with, `5.5` and `3` bytes. -/
def Fits (a : ObjectId) : Prop := a.timepoint.val < 2 ^ 44 ∧ a.seq.val < 2 ^ 24

instance : DecidablePred Fits := fun _ => inferInstanceAs (Decidable (_ ∧ _))

def length : Nat := 25

/-- `serialize`: at most `length` characters of the three numbers in hex. -/
def serialize (a : ObjectId) : List UInt8 :=
  (fmtHex 11 a.timepoint.val ++ fmtHex 6 (a.seq.val &&& 0xFFFFFF) ++ fmtHex 8 a.rand.val).take length

/-- An id whose parts fit is written in full. -/
theorem serialize_of_fits {a : ObjectId} (h : a.Fits) :
    a.serialize = fmtHex 11 a.timepoint.val ++ (fmtHex 6 a.seq.val ++ fmtHex 8 a.rand.val) := by
  have hs : a.seq.val &&& 0xFFFFFF = a.seq.val := by
    rw [show (0xFFFFFF : Nat) = 2 ^ 24 - 1 by rfl, Nat.and_two_pow_sub_one_eq_mod,
      Nat.mod_eq_of_lt h.2]
  have l1 : (fmtHex 11 a.timepoint.val).length = 11 :=
    fmtHex_length_of_lt (lt_of_lt_of_le h.1 (by norm_num))
  have l2 : (fmtHex 6 a.seq.val).length = 6 :=
    fmtHex_length_of_lt (lt_of_lt_of_le h.2 (by norm_num))
  have l3 : (fmtHex 8 a.rand.val).length = 8 :=
    fmtHex_length_of_lt (lt_of_lt_of_le a.rand.isLt (by norm_num))
  rw [serialize, hs, List.append_assoc]
  exact List.take_of_length_le (by simp only [List.length_append, l1, l2, l3, length]; omega)

/-- **Ids whose parts fit are written in their order.** -/
theorem serialize_lt {a b : ObjectId} (ha : a.Fits) (hb : b.Fits) :
    a.serialize < b.serialize ↔ a < b := by
  have pt : ∀ {c : ObjectId}, c.Fits → c.timepoint.val < 16 ^ 11 := fun h =>
    lt_of_lt_of_le h.1 (by norm_num)
  have ps : ∀ {c : ObjectId}, c.Fits → c.seq.val < 16 ^ 6 := fun h =>
    lt_of_lt_of_le h.2 (by norm_num)
  have pr : ∀ c : ObjectId, c.rand.val < 16 ^ 8 := fun c =>
    lt_of_lt_of_le c.rand.isLt (by norm_num)
  have et : fmtHex 11 a.timepoint.val = fmtHex 11 b.timepoint.val ↔ a.timepoint = b.timepoint :=
    ⟨fun h => Fin.ext (fmtHex_inj h), fun h => by rw [h]⟩
  have es : fmtHex 6 a.seq.val = fmtHex 6 b.seq.val ↔ a.seq = b.seq :=
    ⟨fun h => Fin.ext (fmtHex_inj h), fun h => by rw [h]⟩
  rw [serialize_of_fits ha, serialize_of_fits hb, lt_iff,
    append_lt_append (by rw [fmtHex_length_of_lt (pt ha), fmtHex_length_of_lt (pt hb)]),
    append_lt_append (by rw [fmtHex_length_of_lt (ps ha), fmtHex_length_of_lt (ps hb)]),
    fmtHex_lt (pt ha) (pt hb), fmtHex_lt (ps ha) (ps hb), fmtHex_lt (pr a) (pr b), et, es]
  rfl

theorem two_lt_serialize (a : ObjectId) : ∀ c ∈ a.serialize, 2 < c := by
  intro c hc
  have hc' := List.mem_of_mem_take hc
  rw [List.mem_append, List.mem_append] at hc'
  rcases hc' with (h | h) | h
  · exact two_lt_fmtHex _ _ c h
  · exact two_lt_fmtHex _ _ c h
  · exact two_lt_fmtHex _ _ c h

theorem serialize_ne_nil (a : ObjectId) : a.serialize ≠ [] := by
  intro h
  have hl := congrArg List.length h
  simp only [serialize, List.length_take, List.length_append, fmtHex_length, length,
    List.length_nil] at hl
  omega

/-! ### Parsing -/

def hexDigit (c : UInt8) : Option Nat :=
  if 48 ≤ c.toNat ∧ c.toNat ≤ 57 then some (c.toNat - 48)
  else if 97 ≤ c.toNat ∧ c.toNat ≤ 102 then some (c.toNat - 87)
  else if 65 ≤ c.toNat ∧ c.toNat ≤ 70 then some (c.toNat - 55)
  else none

/-- `std::from_chars` in base 16 over at most `k` characters: the number and what is
left behind its digits, of which there is at least one. -/
def fromChars (k : Nat) (l : List UInt8) : Option (Nat × List UInt8) :=
  match (l.take k).takeWhile (fun c => (hexDigit c).isSome) with
  | [] => none
  | ds => some (ds.foldl (fun n c => 16 * n + (hexDigit c).getD 0) 0, l.drop ds.length)

/-- `parse`: a part that ends early is followed by no further part. -/
def parse (data : List UInt8) : Option ObjectId := do
  if data.length ≠ length then none
  else
    let (timepoint, rest) ← fromChars 11 data
    let (seq, rest) ← fromChars 6 rest
    let (rand, _) ← fromChars 8 rest
    some ⟨Fin.ofNat _ timepoint, Fin.ofNat _ seq, Fin.ofNat _ rand⟩

theorem hexDigit_digitChar {d : Nat} (h : d < 16) : hexDigit (digitChar d) = some d := by
  rw [hexDigit, digitChar_toNat h]
  by_cases h10 : d < 10
  · rw [if_pos h10, if_pos (by omega)]
    congr 1
    omega
  · rw [if_neg h10, if_neg (by omega), if_pos (by omega)]
    congr 1
    omega

theorem foldl_digitChar : ∀ (ds : List Nat), (∀ d ∈ ds, d < 16) → ∀ v,
    (ds.map digitChar).foldl (fun n c => 16 * n + (hexDigit c).getD 0) v =
      ds.foldl (fun n d => 16 * n + d) v := by
  intro ds
  induction ds with
  | nil => intro _ v; rfl
  | cons d ds ih =>
    intro h v
    rw [List.map_cons, List.foldl_cons, List.foldl_cons, hexDigit_digitChar (h d (by simp)),
      Option.getD_some, ih fun e he => h e (List.mem_cons_of_mem _ he)]

/-- A number that fits its digits is read from them. -/
theorem fromChars_fmtHex {k n : Nat} (hk : 0 < k) (h : n < 16 ^ k) (rest : List UInt8) :
    fromChars k (fmtHex k n ++ rest) = some (n, rest) := by
  have hlen := fmtHex_length_of_lt h
  have hpad : fmtHex k n = (Hatn.Order.numeral 16 k n).map digitChar := by
    rw [fmtHex, Hatn.Order.padded_of_lt (by norm_num) h]
  have hdig := Hatn.Order.numeral_lt_base (b := 16) (by norm_num) k n
  have hall : (fmtHex k n).takeWhile (fun c => (hexDigit c).isSome) = fmtHex k n := by
    rw [List.takeWhile_eq_self_iff, hpad]
    intro c hc
    obtain ⟨d, hd, rfl⟩ := List.mem_map.mp hc
    rw [hexDigit_digitChar (hdig d hd)]
    rfl
  have hne : fmtHex k n ≠ [] := by
    intro h0
    rw [h0] at hlen
    simp at hlen
    omega
  rw [fromChars, List.take_left' hlen, hall]
  split
  · exact absurd ‹_› hne
  · rw [List.drop_left' rfl, hpad, foldl_digitChar _ hdig, Hatn.Order.foldl_numeral 16 h]

theorem serialize_length (a : ObjectId) : a.serialize.length = length := by
  simp only [serialize, List.length_take, List.length_append, fmtHex_length, length]
  omega

/-- **An id whose parts fit is parsed from its digits.** -/
theorem parse_serialize {a : ObjectId} (h : a.Fits) : parse a.serialize = some a := by
  have ht : a.timepoint.val < 16 ^ 11 := lt_of_lt_of_le h.1 (by norm_num)
  have hs : a.seq.val < 16 ^ 6 := lt_of_lt_of_le h.2 (by norm_num)
  have hr : a.rand.val < 16 ^ 8 := lt_of_lt_of_le a.rand.isLt (by norm_num)
  have h8 := fromChars_fmtHex (k := 8) (by norm_num) hr []
  rw [List.append_nil] at h8
  rw [parse, if_neg (not_not.mpr (serialize_length a)), serialize_of_fits h, fromChars_fmtHex (by norm_num) ht]
  simp only [Option.bind_eq_bind, Option.bind_some, fromChars_fmtHex (by norm_num) hs, h8,
    Fin.ofNat_val_eq_self]

theorem hexDigit_lt (c : UInt8) : (hexDigit c).getD 0 < 16 := by
  rw [hexDigit]
  split_ifs <;> simp only [Option.getD_some, Option.getD_none] <;> omega

theorem foldl_hexDigit_lt : ∀ (ds : List UInt8) (n k : Nat), n < 16 ^ k →
    ds.foldl (fun n c => 16 * n + (hexDigit c).getD 0) n < 16 ^ (k + ds.length) := by
  intro ds
  induction ds with
  | nil => exact fun _ _ h => h
  | cons c ds ih =>
    intro n k h
    have hc := hexDigit_lt c
    have hnext : 16 * n + (hexDigit c).getD 0 < 16 ^ (k + 1) := by
      rw [pow_succ]
      omega
    rw [List.foldl_cons, List.length_cons, show k + (ds.length + 1) = k + 1 + ds.length by omega]
    exact ih _ (k + 1) hnext

/-- A number that is read has no more digits than were looked at. -/
theorem fromChars_lt {k n : Nat} {l rest : List UInt8} (h : fromChars k l = some (n, rest)) :
    n < 16 ^ k := by
  rw [fromChars] at h
  split at h
  · cases h
  · cases h
    refine lt_of_lt_of_le (foldl_hexDigit_lt _ 0 0 (by norm_num)) ?_
    refine Nat.pow_le_pow_right (by norm_num) ?_
    rw [Nat.zero_add]
    exact le_trans (List.takeWhile_prefix _).length_le (List.length_take_le k l)

/-- **The parts of a parsed id fit.** -/
theorem parse_fits {l : List UInt8} {a : ObjectId} (h : parse l = some a) : a.Fits := by
  rw [parse] at h
  split at h
  · cases h
  · obtain ⟨⟨t, l₁⟩, ht, h₁⟩ := Option.bind_eq_some_iff.mp h
    obtain ⟨⟨s, l₂⟩, hs, h₂⟩ := Option.bind_eq_some_iff.mp h₁
    obtain ⟨⟨r, l₃⟩, hr, h₃⟩ := Option.bind_eq_some_iff.mp h₂
    cases h₃
    have htime := fromChars_lt ht
    have hseq := fromChars_lt hs
    norm_num at htime hseq
    refine ⟨?_, ?_⟩
    · exact lt_of_le_of_lt (Nat.mod_le _ _) htime
    · exact lt_of_le_of_lt (Nat.mod_le _ _) hseq

end ObjectId

end Hatn.Dataunit
