import Hatn.Common.MachineInt
import Hatn.Dataunit.ObjectId
import Mathlib.Data.ZMod.Defs

/-!
# The key form of an index field

The rocksdb plugin writes every indexed field as a byte string and joins the
strings of a compound index with a separator.  A range scan over the store is a
range query over the values only when

1. the form of a field sorts as the field, and
2. no form holds a separator.

This file translates the forms of the types without a calendar (strings, signed
and unsigned integers, bools, enumerations and object ids), and shows both for
the values that fit their form (`FieldType.Fits`).  The joined keys then sort as
the tuples of the fields:

`x.fieldsKey < y.fieldsKey ↔ Row.Lt x y`

(`Row.fieldsKey_lt_fieldsKey`).
-/

namespace Hatn.Db

open Hatn.Order Hatn.Common Hatn.Dataunit

/-- A key of the store, compared byte by byte. -/
abbrev Key := List UInt8

/-! ### The marks of a key -/

def separatorChar : UInt8 := 0x00
def separatorCharPlus : UInt8 := 0x01
def dbNullChar : UInt8 := 0x01
def emptyChar : UInt8 := 0x02

/-! ### The types of an index field -/

/-- The field types whose form does not involve a calendar. -/
inductive FieldType
  | string
  | int (w : Width)
  | uint (w : Width)
  | bool
  | enum
  | objectId
  deriving DecidableEq, Repr

/-- The values of a type.  An enumerator is its number, of any underlying type. -/
def FieldType.Value : FieldType → Type
  | string => List UInt8
  | int w => {n : Int // -2 ^ (w.bits - 1) ≤ n ∧ n < 2 ^ (w.bits - 1)}
  | uint w => {n : Nat // n < 2 ^ w.bits}
  | bool => Bool
  | enum => {n : Int // -2 ^ 63 ≤ n ∧ n < 2 ^ 64}
  | objectId => ObjectId

instance : (t : FieldType) → LinearOrder t.Value
  | .string => inferInstanceAs (LinearOrder (List UInt8))
  | .int _ => inferInstanceAs (LinearOrder {_n : Int // _})
  | .uint _ => inferInstanceAs (LinearOrder {_n : Nat // _})
  | .bool => inferInstanceAs (LinearOrder Bool)
  | .enum => inferInstanceAs (LinearOrder {_n : Int // _})
  | .objectId => inferInstanceAs (LinearOrder ObjectId)

/-! ### The forms -/

/-- `int64_`: a sign mark in front of the two's complement. -/
def int64_ (n : Int) : Key :=
  if n < 0 then digitChar 0 :: fmtHex 16 (n % 2 ^ 64).toNat
  else digitChar 1 :: fmtHex 16 n.toNat

def uint64_ (n : Nat) : Key := digitChar 1 :: fmtHex 16 n

/-- `static_cast<int64_t>` of a number of any integral type. -/
def toInt64 (n : Int) : Int := n.bmod (2 ^ 64)

/-- `Hex::encodeAppend` of a byte. -/
def hexByte (c : UInt8) : Key := fmtHex 2 c.toNat

/-- `operator ()` for a string: the mark of an empty string, or two hex digits a byte. -/
def stringToBuf (s : List UInt8) : Key := if s.isEmpty then [emptyChar] else s.flatMap hexByte

/-- `operator ()` for a value that is set. -/
def valueToStringBuf : (t : FieldType) → t.Value → Key
  | .string, s => stringToBuf s
  | .int _, n => int64_ n.1
  | .uint _, n => uint64_ n.1
  | .bool, b => uint64_ b.toNat
  | .enum, n => int64_ (toInt64 n.1)
  | .objectId, v => v.serialize

/-- `fieldToStringBuf`; null, which is `none` here, writes nothing. -/
def fieldToStringBuf (t : FieldType) : Option t.Value → Key
  | none => []
  | some v => valueToStringBuf t v

/-- The values that fit their form: enumerators are cast to `int64_t`, ids have a
fixed count of digits. -/
def FieldType.Fits : (t : FieldType) → t.Value → Prop
  | .enum, n => n.1 < 2 ^ 63
  | .objectId, v => v.Fits
  | _, _ => True

/-! ### Each form sorts as its values -/

theorem hexByte_lt (a b : UInt8) : hexByte a < hexByte b ↔ a < b := by
  rw [hexByte, hexByte, fmtHex_lt (by have := a.toNat_lt; omega) (by have := b.toNat_lt; omega),
    UInt8.lt_iff_toNat_lt]

theorem two_lt_hexBytes (s : List UInt8) : ∀ c ∈ s.flatMap hexByte, 2 < c := by
  intro c hc
  obtain ⟨b, _, hb⟩ := List.mem_flatMap.mp hc
  exact two_lt_fmtHex _ _ c hb

theorem stringToBuf_cons (c : UInt8) (s : List UInt8) :
    stringToBuf (c :: s) = (c :: s).flatMap hexByte := rfl

/-- A non-empty string is written above the mark of an empty one. -/
theorem stringToBuf_nil_lt_cons (c : UInt8) (s : List UInt8) :
    stringToBuf [] < stringToBuf (c :: s) := by
  have h2 := two_lt_hexBytes (c :: s)
  rw [stringToBuf_cons]
  cases h : (c :: s).flatMap hexByte with
  | nil =>
    have hl : (hexByte c).length = 2 := fmtHex_length_of_lt (by have := c.toNat_lt; omega)
    have hn : hexByte c = [] := by
      rw [List.flatMap_cons, List.append_eq_nil_iff] at h
      exact h.1
    rw [hn] at hl
    simp at hl
  | cons d r =>
    have hd : emptyChar < d := h2 d (by rw [h]; simp)
    simp [stringToBuf, List.cons_lt_cons_iff, hd]

theorem stringToBuf_lt (s t : List UInt8) : stringToBuf s < stringToBuf t ↔ s < t := by
  cases s with
  | nil =>
    cases t with
    | nil => simp
    | cons d t => simp [stringToBuf_nil_lt_cons]
  | cons c s =>
    cases t with
    | nil => simp [(stringToBuf_nil_lt_cons c s).not_gt]
    | cons d t =>
      rw [stringToBuf_cons, stringToBuf_cons]
      exact flatMap_lt_flatMap (k := 1)
        (fun a => fmtHex_length_of_lt (by have := a.toNat_lt; omega)) hexByte_lt

theorem uint64_lt {m n : Nat} (hm : m < 2 ^ 64) (hn : n < 2 ^ 64) :
    uint64_ m < uint64_ n ↔ m < n := by
  rw [uint64_, uint64_, List.cons_lt_cons_iff, fmtHex_lt (by omega) (by omega)]
  simp

/-- Negative numbers are marked below the others and sort by their two's complement. -/
theorem int64_lt {m n : Int} (hm : -2 ^ 63 ≤ m ∧ m < 2 ^ 63) (hn : -2 ^ 63 ≤ n ∧ n < 2 ^ 63) :
    int64_ m < int64_ n ↔ m < n := by
  have h01 : digitChar 0 < digitChar 1 := by decide
  have neg : ∀ {k : Int}, -2 ^ 63 ≤ k → k < 0 → k % 2 ^ 64 = k + 2 ^ 64 := by
    intro k h1 h2
    rw [← Int.add_emod_right, Int.emod_eq_of_lt] <;> omega
  unfold int64_
  split <;> split
  · rename_i h1 h2
    rw [List.cons_lt_cons_iff, neg hm.1 h1, neg hn.1 h2, fmtHex_lt (by omega) (by omega)]
    simp only [lt_irrefl, true_and, false_or]
    omega
  · simp only [List.cons_lt_cons_iff, h01, true_or, true_iff]
    omega
  · simp only [List.cons_lt_cons_iff, h01.not_gt, h01.ne', false_and, or_self, false_iff]
    omega
  · rw [List.cons_lt_cons_iff, fmtHex_lt (by omega) (by omega)]
    simp only [lt_irrefl, true_and, false_or]
    omega

theorem toInt64_of_lt {n : Int} (h : -2 ^ 63 ≤ n) (h' : n < 2 ^ 63) : toInt64 n = n :=
  Int.bmod_eq_of_le (by norm_num; omega) (by norm_num; omega)

/-- **Values that fit are written in their order.** -/
theorem valueToStringBuf_lt {t : FieldType} : ∀ {a b : t.Value}, t.Fits a → t.Fits b →
    (valueToStringBuf t a < valueToStringBuf t b ↔ a < b) := by
  cases t with
  | string => exact fun _ _ => stringToBuf_lt _ _
  | int w =>
    intro a b _ _
    have hw : (2 : Int) ^ (w.bits - 1) ≤ 2 ^ 63 := by cases w <;> norm_num [Width.bits]
    exact int64_lt ⟨by have := a.2.1; omega, by have := a.2.2; omega⟩
      ⟨by have := b.2.1; omega, by have := b.2.2; omega⟩
  | uint w =>
    intro a b _ _
    have hw : 2 ^ w.bits ≤ 2 ^ 64 := Nat.pow_le_pow_right (by omega) w.bits_le
    exact uint64_lt (lt_of_lt_of_le a.2 hw) (lt_of_lt_of_le b.2 hw)
  | bool =>
    intro a b _ _
    have hab : ∀ c d : Bool, c.toNat < d.toNat ↔ c < d := by decide
    show uint64_ a.toNat < uint64_ b.toNat ↔ _
    rw [uint64_lt (by cases a <;> decide) (by cases b <;> decide)]
    exact hab a b
  | enum =>
    intro a b ha hb
    show int64_ (toInt64 a.1) < int64_ (toInt64 b.1) ↔ _
    rw [toInt64_of_lt a.2.1 ha, toInt64_of_lt b.2.1 hb, int64_lt ⟨a.2.1, ha⟩ ⟨b.2.1, hb⟩]
    rfl
  | objectId => exact fun ha hb => ObjectId.serialize_lt ha hb

/-! ### No form holds a separator -/

theorem two_lt_int64 (n : Int) : ∀ c ∈ int64_ n, 2 < c := by
  intro c hc
  unfold int64_ at hc
  split at hc <;> rcases List.mem_cons.mp hc with rfl | hc
  · decide
  · exact two_lt_fmtHex _ _ c hc
  · decide
  · exact two_lt_fmtHex _ _ c hc

theorem two_lt_uint64 (n : Nat) : ∀ c ∈ uint64_ n, 2 < c := by
  intro c hc
  rcases List.mem_cons.mp hc with rfl | hc
  · decide
  · exact two_lt_fmtHex _ _ c hc

theorem separatorCharPlus_lt_value {t : FieldType} (v : t.Value) :
    ∀ c ∈ valueToStringBuf t v, separatorCharPlus < c := by
  have two : ∀ c : UInt8, 2 < c → separatorCharPlus < c := fun c hc => lt_trans (by decide) hc
  cases t with
  | string =>
    cases v with
    | nil =>
      intro c hc
      have hc' : c = emptyChar := List.mem_singleton.mp hc
      rw [hc']
      decide
    | cons d s => exact fun c hc => two c (two_lt_hexBytes (d :: s) c hc)
  | int w => exact fun c hc => two c (two_lt_int64 _ c hc)
  | uint w => exact fun c hc => two c (two_lt_uint64 _ c hc)
  | bool => exact fun c hc => two c (two_lt_uint64 _ c hc)
  | enum => exact fun c hc => two c (two_lt_int64 _ c hc)
  | objectId => exact fun c hc => two c (ObjectId.two_lt_serialize v c hc)

/-- **Every character of a form is above both separators.** -/
theorem separatorCharPlus_lt {t : FieldType} (a : Option t.Value) :
    ∀ c ∈ fieldToStringBuf t a, separatorCharPlus < c := by
  cases a with
  | none => intro c hc; simp [fieldToStringBuf] at hc
  | some v => exact separatorCharPlus_lt_value v

theorem separatorChar_lt {t : FieldType} (a : Option t.Value) :
    ∀ c ∈ fieldToStringBuf t a, separatorChar < c :=
  fun c hc => lt_trans (by decide) (separatorCharPlus_lt a c hc)

theorem valueToStringBuf_ne_nil {t : FieldType} (v : t.Value) : valueToStringBuf t v ≠ [] := by
  cases t with
  | string =>
    cases v with
    | nil => exact List.cons_ne_nil _ _
    | cons d s =>
      have h := stringToBuf_nil_lt_cons d s
      intro he
      rw [show stringToBuf (d :: s) = [] from he] at h
      exact List.not_lt_nil _ h
  | int w => intro h; simp only [valueToStringBuf, int64_] at h; split at h <;> simp at h
  | uint w => exact List.cons_ne_nil _ _
  | bool => exact List.cons_ne_nil _ _
  | enum => intro h; simp only [valueToStringBuf, int64_] at h; split at h <;> simp at h
  | objectId => exact ObjectId.serialize_ne_nil v

/-! ### Null and the joined key -/

/-- The values of a nullable field that fit: null always does. -/
def FitsNull (t : FieldType) (a : Option t.Value) : Prop := ∀ v, a = some v → t.Fits v

/-- **Nullable fields are written in their order**, null first. -/
theorem fieldToStringBuf_lt {t : FieldType} {a b : Option t.Value} (ha : FitsNull t a)
    (hb : FitsNull t b) : fieldToStringBuf t a < fieldToStringBuf t b ↔ a < b := by
  cases a with
  | none =>
    cases b with
    | none => simp [fieldToStringBuf]
    | some v =>
      obtain ⟨c, l, hc⟩ := List.exists_cons_of_ne_nil (valueToStringBuf_ne_nil v)
      simp [fieldToStringBuf, hc]
  | some u =>
    cases b with
    | none => simp [fieldToStringBuf]
    | some v =>
      rw [Option.some_lt_some]
      exact valueToStringBuf_lt (ha u rfl) (hb v rfl)

theorem fieldToStringBuf_inj {t : FieldType} {a b : Option t.Value} (ha : FitsNull t a)
    (hb : FitsNull t b) (h : fieldToStringBuf t a = fieldToStringBuf t b) : a = b := by
  have h1 := (fieldToStringBuf_lt ha hb).not.mp h.not_lt
  have h2 := (fieldToStringBuf_lt hb ha).not.mp h.not_gt
  cases a with
  | none =>
    cases b with
    | none => rfl
    | some v => simp at h1
  | some u =>
    cases b with
    | none => simp at h2
    | some v =>
      rw [Option.some_lt_some, not_lt] at h1 h2
      rw [le_antisymm h2 h1]

/-- The fields of an index entry, null where a field is not set. -/
inductive Row : List FieldType → Type
  | nil : Row []
  | cons {t : FieldType} {ts : List FieldType} (a : Option t.Value) (r : Row ts) : Row (t :: ts)

namespace Row

/-- The lexicographic order of tuples. -/
inductive Lt : {ts : List FieldType} → Row ts → Row ts → Prop
  | head {t : FieldType} {ts : List FieldType} {a b : Option t.Value} {r s : Row ts} (h : a < b) :
      Lt (cons a r) (cons b s)
  | tail {t : FieldType} {ts : List FieldType} {a : Option t.Value} {r s : Row ts} (h : Lt r s) :
      Lt (cons a r) (cons a s)

def Fits : {ts : List FieldType} → Row ts → Prop
  | _, nil => True
  | t :: _, cons a r => FitsNull t a ∧ r.Fits

/-- The fields of a key, each closed by the separator. -/
def fieldsKey : {ts : List FieldType} → Row ts → Key
  | _, nil => []
  | t :: _, cons a r => fieldToStringBuf t a ++ separatorChar :: r.fieldsKey

/-- `makeIndexKey`: topic, index id and fields, each closed by the separator. -/
def indexKey (topic indexId : Key) {ts : List FieldType} (r : Row ts) : Key :=
  topic ++ separatorChar :: (indexId ++ separatorChar :: r.fieldsKey)

theorem cons_lt_cons {t : FieldType} {ts : List FieldType} {a b : Option t.Value} {r s : Row ts} :
    Lt (cons a r) (cons b s) ↔ a < b ∨ a = b ∧ Lt r s := by
  constructor
  · intro h
    cases h with
    | head h => exact Or.inl h
    | tail h => exact Or.inr ⟨rfl, h⟩
  · rintro (h | ⟨rfl, h⟩)
    · exact Lt.head h
    · exact Lt.tail h

/-- **Joined fields sort as the tuple**, whatever follows them in the key. -/
theorem fieldsKey_append_lt : ∀ {ts : List FieldType} {x y : Row ts}, x.Fits → y.Fits →
    ∀ u v : Key, (x.fieldsKey ++ u < y.fieldsKey ++ v ↔ Lt x y ∨ x = y ∧ u < v) := by
  intro ts
  induction ts with
  | nil =>
    intro x y _ _ u v
    cases x
    cases y
    have hn : ¬ Lt nil nil := fun h => nomatch h
    simp [fieldsKey, hn]
  | cons t ts ih =>
    intro x y hx hy u v
    cases x with
    | cons a r =>
      cases y with
      | cons b s =>
        have he : fieldToStringBuf t a = fieldToStringBuf t b ↔ a = b :=
          ⟨fieldToStringBuf_inj hx.1 hy.1, fun h => by rw [h]⟩
        rw [fieldsKey, fieldsKey, List.append_assoc, List.append_assoc, List.cons_append,
          List.cons_append, terminated_lt_terminated (separatorChar_lt a) (separatorChar_lt b),
          fieldToStringBuf_lt hx.1 hy.1, he, ih hx.2 hy.2, cons_lt_cons]
        simp only [Row.cons.injEq]
        tauto

/-- **Index keys sort as the tuples of their fields.** -/
theorem indexKey_lt_indexKey (topic indexId : Key) {ts : List FieldType} {x y : Row ts}
    (hx : x.Fits) (hy : y.Fits) : indexKey topic indexId x < indexKey topic indexId y ↔ Lt x y := by
  have key := fieldsKey_append_lt hx hy [] []
  simp only [List.append_nil, lt_irrefl, and_false, or_false] at key
  rw [indexKey, indexKey, append_lt_append rfl, List.cons_lt_cons_iff, append_lt_append rfl,
    List.cons_lt_cons_iff, key]
  simp

end Row

/-! ### The forms as an order embedding -/

/-- **Forms of fields, nulls and joined keys.**  For values that fit their form:
forms can be told apart, sort as the values with null and the empty string first,
hold no separator, and join to keys that sort as the tuples. -/
theorem fieldForm_ordered :
    (∀ (t : FieldType) (a b : Option t.Value), FitsNull t a → FitsNull t b →
      (fieldToStringBuf t a = fieldToStringBuf t b → a = b) ∧
      (fieldToStringBuf t a < fieldToStringBuf t b ↔ a < b)) ∧
    (∀ (t : FieldType) (a : Option t.Value),
      separatorChar ∉ fieldToStringBuf t a ∧ separatorCharPlus ∉ fieldToStringBuf t a) ∧
    (∀ s : List UInt8, s ≠ [] →
      fieldToStringBuf .string none < fieldToStringBuf .string (some []) ∧
      fieldToStringBuf .string (some []) < fieldToStringBuf .string (some s)) ∧
    (∀ (topic indexId : Key) (ts : List FieldType) (x y : Row ts), x.Fits → y.Fits →
      (x.indexKey topic indexId < y.indexKey topic indexId ↔ Row.Lt x y)) := by
  refine ⟨fun t a b ha hb => ⟨fieldToStringBuf_inj ha hb, fieldToStringBuf_lt ha hb⟩,
    fun t a => ⟨fun h => ?_, fun h => ?_⟩, fun s hs => ⟨?_, ?_⟩,
    fun topic indexId ts x y hx hy => Row.indexKey_lt_indexKey topic indexId hx hy⟩
  · exact lt_irrefl _ (separatorChar_lt a _ h)
  · exact lt_irrefl _ (separatorCharPlus_lt a _ h)
  · decide
  · obtain ⟨c, l, rfl⟩ := List.exists_cons_of_ne_nil hs
    exact stringToBuf_nil_lt_cons c l

/-- The row of a string, a negative number and an id that is not set. -/
def sampleRow : Row [.string, .int .w8, .objectId] :=
  .cons (some [0x61]) (.cons (some ⟨-3, by decide⟩) (.cons none .nil))

/-- A longer string, with a smaller number behind it. -/
def sampleRow' : Row [.string, .int .w8, .objectId] :=
  .cons (some [0x61, 0x00]) (.cons (some ⟨-4, by decide⟩) (.cons none .nil))

theorem fieldForm_ordered_sample :
    (fieldToStringBuf .objectId (some ⟨7, 1, 5⟩) < fieldToStringBuf .objectId (some ⟨7, 2, 0⟩)) ∧
    sampleRow.indexKey [0x74] [0x69] < sampleRow'.indexKey [0x74] [0x69] := by
  have plain : ∀ {t : FieldType} (v : t.Value), t.Fits v → FitsNull t (some v) := by
    intro t v hv w hw
    rw [← Option.some.inj hw]
    exact hv
  have null : ∀ t : FieldType, FitsNull t none := fun t v hv => nomatch hv
  refine ⟨((fieldForm_ordered.1 .objectId _ _ (plain _ (show ObjectId.Fits _ by decide))
    (plain _ (show ObjectId.Fits _ by decide))).2).mpr ?_,
    (fieldForm_ordered.2.2.2 [0x74] [0x69] _ _ _ ?_ ?_).mpr ?_⟩
  · exact (Option.some_lt_some (α := ObjectId)).mpr
      ((ObjectId.lt_iff _ _).mpr (Or.inr ⟨rfl, Or.inl (by decide)⟩))
  · exact ⟨plain _ trivial, plain _ trivial, null _, trivial⟩
  · exact ⟨plain _ trivial, plain _ trivial, null _, trivial⟩
  · exact Row.Lt.head ((Option.some_lt_some (α := List UInt8)).mpr (by decide))

/-- **Object ids are not told apart beyond their digits**: a sequence number of
`2 ^ 24` is written as zero. -/
theorem objectId_forms_collide :
    fieldToStringBuf .objectId (some ⟨1, 0, 0⟩) = fieldToStringBuf .objectId (some ⟨1, 2 ^ 24, 0⟩) ∧
    (⟨1, 0, 0⟩ : ObjectId) ≠ ⟨1, 2 ^ 24, 0⟩ := by
  constructor
  · have hs : ((2 ^ 24 : Fin (2 ^ 32)).val &&& 0xFFFFFF) = ((0 : Fin (2 ^ 32)).val &&& 0xFFFFFF) := by
      decide
    show ObjectId.serialize _ = ObjectId.serialize _
    rw [ObjectId.serialize, ObjectId.serialize, hs]
  · decide

end Hatn.Db
