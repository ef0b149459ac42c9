import Hatn.Common.DateTime
import Hatn.Db.UpdateMany

/-!
# The values of index entries

The value of an index entry is the key of its object between a version in front and the
creation timestamp with the TTL mark behind.  The mark takes one byte or five, and its last byte
says which.  All readers count from the end, so that a payload is never taken for a mark:
`indexValue_inverted`.
-/

namespace Hatn.Db

open Hatn.Common

namespace TtlMark

/-- `stripTtlMark` -/
def stripTtlMark (data : List UInt8) : List UInt8 :=
  data.take (data.length - IndexKeySearch.ttlMarkOffset data)

/-- `ttlMark` -/
def ttlMark (data : List UInt8) : List UInt8 :=
  data.drop (data.length - IndexKeySearch.ttlMarkOffset data)

/-- The bytes of a mark with or without an expiry. -/
theorem fillExpireAt_cases (e : Nat) :
    (e = 0 ∧ (fillExpireAt e).bytes = [0]) ∨
      (0 < e ∧ (fillExpireAt e).bytes = leBytes 4 e ++ [1]) := by
  rw [fillExpireAt]
  split_ifs with h
  · exact .inr ⟨h, rfl⟩
  · exact .inl ⟨by omega, rfl⟩

variable (p : List UInt8) (e : Nat)

/-- **The last byte tells the size of the mark**, whatever is in front of it. -/
theorem ttlMarkOffset_append :
    IndexKeySearch.ttlMarkOffset (p ++ (fillExpireAt e).bytes) = (fillExpireAt e).bytes.length := by
  rw [IndexKeySearch.ttlMarkOffset]
  rcases fillExpireAt_cases e with ⟨-, hb⟩ | ⟨-, hb⟩
  · rw [hb, List.getLast?_concat, if_pos rfl]
    rfl
  · rw [hb, ← List.append_assoc, List.getLast?_concat, if_neg (by decide), if_neg (by simp)]
    simp

theorem stripTtlMark_append : stripTtlMark (p ++ (fillExpireAt e).bytes) = p := by
  rw [stripTtlMark, ttlMarkOffset_append, List.length_append, Nat.add_sub_cancel, List.take_left]

theorem ttlMark_append : ttlMark (p ++ (fillExpireAt e).bytes) = (fillExpireAt e).bytes := by
  rw [ttlMark, ttlMarkOffset_append, List.length_append, Nat.add_sub_cancel, List.drop_left]

/-- **The expiry is read** off the end. -/
theorem ttlMarkTimepoint_append (he : e < 2 ^ 32) :
    ttlMarkTimepoint (p ++ (fillExpireAt e).bytes) = e := by
  rw [ttlMarkTimepoint]
  rcases fillExpireAt_cases e with ⟨rfl, hb⟩ | ⟨-, hb⟩
  · rw [hb, List.getLast?_concat, if_pos (.inl rfl)]
  · have hlast : ¬ ((p ++ (leBytes 4 e ++ [1])).getLast? = some 0 ∨
        (p ++ (leBytes 4 e ++ [1])).length < 5) := by
      rintro (h | h)
      · rw [← List.append_assoc, List.getLast?_concat] at h
        cases h
      · simp only [List.length_append, leBytes_length, List.length_singleton] at h
        omega
    have hsize : (p ++ (leBytes 4 e ++ [1])).length - 5 = p.length := by simp
    rw [hb, if_neg hlast, hsize, List.drop_left, List.take_left' (leBytes_length 4 e),
      leNumber_leBytes]
    exact Nat.mod_eq_of_lt he

end TtlMark

/-! ### Layout -/

/-- `makeObjectKeyValue`: its eight parts.  Without a `timestamp`, a time point or a mark, the key
is generated for search; `none` stands for the exception of the calendar. -/
def makeObjectKeyValue (modelId topic objectId : List UInt8) (timestamp : Bool)
    (timepoint : DateTime) (ttlMark : List UInt8) : Option (List (List UInt8)) :=
  let parts := [[1], topic, [separatorChar], modelId, [separatorChar], objectId]
  if timestamp && timepoint.isValid && !ttlMark.isEmpty then do
    let epoch ← timepoint.toEpoch
    return parts ++ [leBytes 4 (epoch % 2 ^ 32).toNat, ttlMark]
  else some (parts ++ [[], []])

/-- `indexValueSlices` -/
def indexValueSlices (parts : List (List UInt8)) : List UInt8 := parts.flatten

/-- `objectKeySlices`, and `objectKeySolid`: the five parts behind the version. -/
def objectKeySlices (parts : List (List UInt8)) : Key := ((parts.drop 1).take 5).flatten

/-- **The components of a value.** -/
structure Inverted (objectKey : Key) (objectId : List UInt8) (epoch : Int) (expireAt : Nat)
    (value : List UInt8) : Prop where
  key : objectKeyFromIndexValue value = objectKey
  id : objectIdFromIndexValue value = objectId
  timestamp : IndexKeySearch.timestampFromIndexValue value = epoch
  mark : TtlMark.ttlMark value = (TtlMark.fillExpireAt expireAt).bytes
  stripped : value = TtlMark.stripTtlMark value ++ (TtlMark.fillExpireAt expireAt).bytes
  timepoint : TtlMark.ttlMarkTimepoint value = expireAt

theorem leNumber_bmod {n : Int} (h : -2 ^ 31 ≤ n) (h' : n < 2 ^ 31) :
    ((leNumber (leBytes 4 (n % 2 ^ 32).toNat) : Nat) : Int).bmod (2 ^ 32) = n := by
  have hpos : 0 ≤ n % 2 ^ 32 := Int.emod_nonneg n (by norm_num)
  have hlt : n % 2 ^ 32 < 2 ^ 32 := Int.emod_lt_of_pos n (by norm_num)
  rw [leNumber_leBytes, Nat.mod_eq_of_lt (by omega), Int.toNat_of_nonneg hpos]
  rw [Int.bmod_def]
  push_cast
  split_ifs <;> omega

theorem toEpoch_range {d : DateTime} {epoch : Int} (h : d.toEpoch = some epoch) :
    -2 ^ 31 ≤ epoch ∧ epoch < 2 ^ 31 := by
  rw [DateTime.toEpoch] at h
  split_ifs at h with hv
  · cases h
    norm_num
  · obtain ⟨ms, -, hms⟩ := Option.bind_eq_some_iff.mp h
    cases hms
    exact ⟨le_toInt _, toInt_lt _⟩

/-- **Each reader over the layout**: all of them take the size of the mark from its last byte. -/
theorem inverted_layout {key : Key} {epoch : Int} {expireAt : Nat}
    (hkey : Dataunit.ObjectId.length ≤ key.length) (hepoch : -2 ^ 31 ≤ epoch ∧ epoch < 2 ^ 31)
    (he : expireAt < 2 ^ 32) :
    Inverted key (key.drop (key.length - Dataunit.ObjectId.length)) epoch expireAt
      (1 :: key ++ leBytes 4 (epoch % 2 ^ 32).toNat ++ (TtlMark.fillExpireAt expireAt).bytes) := by
  have hoff := TtlMark.ttlMarkOffset_append (1 :: key ++ leBytes 4 (epoch % 2 ^ 32).toNat) expireAt
  have hts : (leBytes 4 (epoch % 2 ^ 32).toNat).length = 4 := leBytes_length 4 _
  have hlen : (1 :: key ++ leBytes 4 (epoch % 2 ^ 32).toNat ++
      (TtlMark.fillExpireAt expireAt).bytes).length =
        key.length + 1 + 4 + (TtlMark.fillExpireAt expireAt).bytes.length := by
    simp only [List.length_append, List.length_cons, hts]
  refine ⟨?_, ?_, ?_, TtlMark.ttlMark_append _ _, ?_, TtlMark.ttlMarkTimepoint_append _ _ he⟩
  · rw [objectKeyFromIndexValue, hoff, hlen, if_neg (by omega), List.append_assoc,
      List.cons_append, List.drop_one, List.tail_cons]
    exact List.take_left' (by omega)
  · obtain ⟨a, b, rfl, hb⟩ : ∃ a b, key = a ++ b ∧ b.length = Dataunit.ObjectId.length :=
      ⟨key.take (key.length - Dataunit.ObjectId.length),
        key.drop (key.length - Dataunit.ObjectId.length), (List.take_append_drop _ _).symm,
        by rw [List.length_drop]; omega⟩
    have hab : (a ++ b).length = a.length + Dataunit.ObjectId.length := by
      rw [List.length_append, hb]
    rw [hab, Nat.add_sub_cancel, List.drop_left, objectIdFromIndexValue, hoff, hlen,
      if_neg (by omega), List.append_assoc, ← List.cons_append, List.append_assoc,
      List.drop_left' (by rw [List.length_cons]; omega)]
    exact List.take_left' hb
  · rw [IndexKeySearch.timestampFromIndexValue, hoff, hlen, if_neg (by omega), List.append_assoc,
      List.drop_left' (by rw [List.length_cons]; omega), List.take_left' hts]
    exact leNumber_bmod hepoch.1 hepoch.2
  · rw [TtlMark.stripTtlMark_append]

/-- The parts of a value, where a time point is given with a mark. -/
theorem makeObjectKeyValue_eq {modelId topic objectId : List UInt8} {timepoint : DateTime}
    {epoch : Int} (hv : timepoint.isValid = true) (ht : timepoint.toEpoch = some epoch)
    (mark : TtlMark) :
    makeObjectKeyValue modelId topic objectId true timepoint mark.bytes =
      some [[1], topic, [separatorChar], modelId, [separatorChar], objectId,
        leBytes 4 (epoch % 2 ^ 32).toNat, mark.bytes] := by
  have hne : mark.bytes.isEmpty = false := by
    rw [List.isEmpty_eq_false_iff, ← List.length_pos_iff]
    rcases mark.size with h | h <;> omega
  rw [makeObjectKeyValue, hv, hne, ht]
  rfl

/-- **The layout of index values is inverted** by its readers, each of which returns what was put
in; a mark behind any payload is found and taken off. -/
theorem indexValue_inverted :
    (∀ (p : List UInt8) (expireAt : UInt32),
      TtlMark.stripTtlMark (p ++ (TtlMark.fillExpireAt expireAt.toNat).bytes) = p ∧
      TtlMark.ttlMark (p ++ (TtlMark.fillExpireAt expireAt.toNat).bytes) =
        (TtlMark.fillExpireAt expireAt.toNat).bytes ∧
      TtlMark.ttlMarkTimepoint (p ++ (TtlMark.fillExpireAt expireAt.toNat).bytes) =
        expireAt.toNat) ∧
    ∀ (modelId topic objectId : List UInt8) (timepoint : DateTime) (epoch : Int)
      (expireAt : UInt32), objectId.length = Dataunit.ObjectId.length →
      timepoint.isValid = true → timepoint.toEpoch = some epoch →
      ∃ parts, makeObjectKeyValue modelId topic objectId true timepoint
          (TtlMark.fillExpireAt expireAt.toNat).bytes = some parts ∧
        objectKeySlices parts = topic ++ [separatorChar] ++ modelId ++ [separatorChar] ++ objectId ∧
        Inverted (objectKeySlices parts) objectId epoch expireAt.toNat (indexValueSlices parts) := by
  refine ⟨fun p e => ⟨TtlMark.stripTtlMark_append p _, TtlMark.ttlMark_append p _,
    TtlMark.ttlMarkTimepoint_append p _ e.toNat_lt⟩, ?_⟩
  intro modelId topic objectId timepoint epoch expireAt hid hv ht
  have hkey : (topic ++ [separatorChar] ++ modelId ++ [separatorChar] ++ objectId).drop
      ((topic ++ [separatorChar] ++ modelId ++ [separatorChar] ++ objectId).length -
        Dataunit.ObjectId.length) = objectId :=
    List.drop_left' (by simp only [List.length_append, hid, Nat.add_sub_cancel])
  have hlen : Dataunit.ObjectId.length ≤
      (topic ++ [separatorChar] ++ modelId ++ [separatorChar] ++ objectId).length := by
    rw [List.length_append, hid]
    omega
  have hinv := inverted_layout hlen (toEpoch_range ht) expireAt.toNat_lt
  rw [hkey] at hinv
  refine ⟨_, makeObjectKeyValue_eq hv ht (TtlMark.fillExpireAt expireAt.toNat), ?_, ?_⟩
  · simp [objectKeySlices]
  · simpa [objectKeySlices, indexValueSlices] using hinv

/-- An object of the last second before 1970, with an expiry. -/
theorem indexValue_inverted_sample :
    ∃ parts, makeObjectKeyValue [0x6d] [0x74, 0x00] (List.replicate 25 0x00) true
        ⟨⟨1969, 12, 31, by decide, by decide, by decide⟩,
          ⟨23, 59, 59, 0, by decide, by decide, by decide, by decide⟩, 0⟩
        (TtlMark.fillExpireAt 256).bytes = some parts ∧
      objectKeySlices parts = [0x74, 0x00] ++ [separatorChar] ++ [0x6d] ++ [separatorChar] ++
        List.replicate 25 0x00 ∧
      Inverted (objectKeySlices parts) (List.replicate 25 0x00) (-1) 256 (indexValueSlices parts) :=
  indexValue_inverted.2 _ _ _ _ _ 256 rfl (by decide) (by decide)

end Hatn.Db
