import Mathlib.Algebra.BigOperators.Group.List.Basic
import Hatn.Dataunit.Transfer
import Hatn.Dataunit.VarInts

/-!
# The size that is reserved for a unit

`io::size` adds up what each field is expected to take, by formulas of the field classes that
know nothing of the bytes that are written.  For repeated numbers they allow the bytes that a
number has in memory, and a negative number has ten on the wire; for the number of counted
elements they allow nothing.  A ledger compares the two: for each field the bytes that it takes
(`Field.takes`) and the bytes that are allowed for it (`Field.allows`), at any depth and without
the units within, which have entries of their own.
-/

namespace Hatn.Dataunit

open Hatn.Common

/-! ### What is allowed -/

/-- `sizeof` of the type that holds the numbers. -/
def ScalarType.sizeOf : ScalarType → Nat
  | varInt _ w | zigZag w => w.bits / 8
  | fixed32 _ => 4
  | fixed64 _ => 8
  | date => 4
  | time => 6
  | dateTime => 12
  | dateRange => 4

/-- `fieldSize` of the classes of single numbers. -/
def ScalarType.fieldSize : ScalarType → Nat
  | varInt _ _ | zigZag _ => 10
  | fixed32 _ => 4
  | fixed64 _ => 8
  | date => 5
  | time => 9
  | dateTime => 8
  | dateRange => 5

/-- `isSizeIterateNeeded` -/
def ElemType.isSizeIterateNeeded : ElemType → Bool
  | bytes _ | unit _ => true
  | scalar _ | objectId => false

def ElemType.sizeOf : ElemType → Nat
  | scalar t => t.sizeOf
  | objectId => 16
  | bytes _ | unit _ => 0

/-- `fieldSize` of repeated elements: the sizes of the elements one by one, where 5 is that of a
unit that is not set, or their number times a size in memory, with `tag` more for each. -/
def repeatedSize (t : ElemType) (size : Value → Nat) (tag : Nat) (l : List (Option Value)) : Nat :=
  if t.isSizeIterateNeeded then (l.map fun v => v.elim 5 size + tag).sum
  else l.length * (t.sizeOf + tag)

/-- `MapItemFieldHelper::fieldSize` -/
def MapType.fieldSize : MapType → Datum → Nat
  | .int _ w, _ => w.bits / 8 + 1
  | .string, .bytes l => l.length + 4
  | _, _ => 0

/-- `fieldSize` of a map: the sizes of its items, units of two fields. -/
def mapSize (key value : MapType) (l : List (Datum × Datum)) : Nat :=
  (l.map fun e => (5 + key.fieldSize e.1) + (5 + value.fieldSize e.2)).sum

section
variable (unset : Field → Nat)

mutual

/-- `fieldSize` of an element, which is also its `valueSize` where that is asked for. -/
def ElemType.fieldSize : ElemType → Value → Nat
  | .scalar t, _ => t.fieldSize
  | .bytes _, .datum (.bytes l) => l.length + 4
  | .objectId, _ => ObjectId.length
  | .unit fs, .unit vs => ioSize fs vs + 5
  | _, _ => 0

def FieldKind.fieldSize : FieldKind → FieldValue → Nat
  | .single t, .single v => t.fieldSize v
  | .counted t, .repeated l => repeatedSize t (fun v => t.fieldSize v) 0 l
  | .unpacked t, .repeated l => repeatedSize t (fun v => t.fieldSize v) 4 l
  | .packed t, .repeated l => l.length * t.sizeOf + 5
  | .map key value, .map l => mapSize key value l
  | _, _ => 0

/-- A field that is not set has the size of its default, or of nothing, which is `unset`. -/
def Field.fieldSize : Field → FieldValue → Nat
  | .mk id required kind, .unset => unset (.mk id required kind)
  | .mk _ _ kind, v => kind.fieldSize v

/-- `visitors::size`: the fields with 5 for the tag of each, those that are not set among them. -/
def ioSize : List Field → List FieldValue → Nat
  | f :: fs, v :: vs => 5 + f.fieldSize v + ioSize fs vs
  | _, _ => 0

end

end

/-! ### What is taken -/

/-- The bytes of a number that `Stream<uint32_t>` packs. -/
def uint32Size (n : Nat) : Nat := varIntSize (n % 2 ^ 32)

def tagSize (id : Nat) (type : WireType) : Nat := uint32Size ((id <<< 3) ||| type.num)

/-- The bytes of a number of this type. -/
def ScalarType.takes : ScalarType → Int → Nat
  | .varInt _ _, n => varIntSize (n % 2 ^ 64).toNat
  | .zigZag w, n =>
    if w = .w64 then varIntSize (zigZagEncode (BitVec.ofInt 64 n)).toNat
    else varIntSize (zigZagEncode (BitVec.ofInt 32 n)).toNat
  | .fixed32 _, _ => 4
  | .fixed64 _, _ => 8
  | .date, n => uint32Size n.toNat
  | .time, n => varIntSize (n % 2 ^ 64).toNat
  | .dateTime, n => varIntSize (n % 2 ^ 64).toNat
  | .dateRange, n => uint32Size n.toNat

/-- The bytes of an element, of a unit only those of its size. -/
def ElemType.takes : ElemType → Value → Nat
  | .scalar t, .datum (.num n) => t.takes n
  | .bytes _, .datum (.bytes l) => uint32Size l.length + l.length
  | .objectId, .datum (.oid _) => uint32Size ObjectId.length + ObjectId.length
  | .unit _, .unit _ => 5
  | _, _ => 0

def MapType.takes : MapType → Datum → Nat
  | .int signed w, .num n => (ScalarType.varInt signed w).takes n
  | .string, .bytes l => uint32Size l.length + l.length
  | _, _ => 0

/-- The bytes of packed numbers. -/
def packedTakes (t : ScalarType) (l : List (Option Value)) : Nat :=
  (l.map fun v => v.elim 0 (ElemType.takes (.scalar t))).sum

/-- The bytes that a field takes. -/
def FieldKind.takes (id : Nat) : FieldKind → FieldValue → Nat
  | .single t, .single v => tagSize id t.wireType + t.takes v
  | .counted t, .repeated l =>
    tagSize id .withLength + uint32Size l.length + (l.map fun v => v.elim 0 t.takes).sum
  | .unpacked t, .repeated l => (l.map fun v => tagSize id t.wireType + v.elim 0 t.takes).sum
  | .packed t, .repeated l =>
    tagSize id .withLength + (if packedTakes t l = 0 then 0 else varIntSize (packedTakes t l)) +
      packedTakes t l
  | .map key value, .map l =>
    (l.map fun e =>
      tagSize id .withLength + (5 + ((1 + key.takes e.1) + (1 + value.takes e.2)))).sum
  | _, _ => 0

/-- What is allowed for an element, for a unit only what is for its size. -/
def ElemType.allows : ElemType → Value → Nat
  | .unit _, .unit _ => 5
  | .scalar t, _ => t.fieldSize
  | .bytes _, .datum (.bytes l) => l.length + 4
  | .objectId, _ => ObjectId.length
  | _, _ => 0

/-- What is allowed for a field, its tag not counted. -/
def FieldKind.allows : FieldKind → FieldValue → Nat
  | .single t, .single v => t.allows v
  | .counted t, .repeated l => repeatedSize t t.allows 0 l
  | .unpacked t, .repeated l => repeatedSize t t.allows 4 l
  | .packed t, .repeated l => l.length * t.sizeOf + 5
  | .map key value, .map l => mapSize key value l
  | _, _ => 0

/-- **The field stays within what is allowed for it.** -/
def Fits (id : Nat) (k : FieldKind) (v : FieldValue) : Prop := k.takes id v ≤ 5 + k.allows v

def Field.takes : Field → FieldValue → Nat
  | .mk id _ kind, v => kind.takes id v

def Field.allows (unset : Field → Nat) : Field → FieldValue → Nat
  | .mk id required kind, .unset => 5 + unset (.mk id required kind)
  | .mk _ _ kind, v => 5 + kind.allows v

/-! ### Sums over all fields -/

section
variable (g : Field → FieldValue → Nat)

mutual

def ElemType.total : ElemType → Value → Nat
  | .unit fs, .unit vs => total fs vs
  | _, _ => 0

def FieldKind.total : FieldKind → FieldValue → Nat
  | .single t, .single v => t.total v
  | .counted t, .repeated l => (l.map fun v => v.elim 0 fun v => t.total v).sum
  | .unpacked t, .repeated l => (l.map fun v => v.elim 0 fun v => t.total v).sum
  | _, _ => 0

def Field.total : Field → FieldValue → Nat
  | .mk id required kind, v => g (.mk id required kind) v + kind.total v

/-- The sum of `g` over the fields of a unit and those of the units within. -/
def total : List Field → List FieldValue → Nat
  | f :: fs, v :: vs => f.total v + total fs vs
  | _, _ => 0

end

end

section
variable {g h : Field → FieldValue → Nat} {P : Nat → FieldKind → FieldValue → Prop}

theorem sum_elim_add (a b : Value → Nat) (l : List (Option Value)) :
    (l.map fun v => v.elim 0 fun v => a v + b v).sum =
      (l.map fun v => v.elim 0 a).sum + (l.map fun v => v.elim 0 b).sum := by
  rw [← List.sum_map_add]
  congr 1
  refine List.map_congr_left fun v _ => ?_
  cases v <;> rfl

mutual

theorem ElemType.total_add : ∀ (t : ElemType) (v : Value),
    t.total (fun f v => g f v + h f v) v = t.total g v + t.total h v
  | .unit fs, .unit vs => total_add fs vs
  | .unit _, .datum _ | .scalar _, _ | .bytes _, _ | .objectId, _ => rfl

theorem FieldKind.total_add : ∀ (k : FieldKind) (v : FieldValue),
    k.total (fun f v => g f v + h f v) v = k.total g v + k.total h v
  | .single t, .single v => ElemType.total_add t v
  | .counted t, .repeated l | .unpacked t, .repeated l => by
    have ht : ∀ v, t.total (fun f v => g f v + h f v) v = t.total g v + t.total h v :=
      ElemType.total_add t
    simp only [FieldKind.total, ht]
    exact sum_elim_add _ _ l
  | .single _, .unset | .single _, .repeated _ | .single _, .map _ => rfl
  | .counted _, .unset | .counted _, .single _ | .counted _, .map _ => rfl
  | .unpacked _, .unset | .unpacked _, .single _ | .unpacked _, .map _ => rfl
  | .packed _, _ | .map _ _, _ => rfl

theorem Field.total_add : ∀ (f : Field) (v : FieldValue),
    f.total (fun f v => g f v + h f v) v = f.total g v + f.total h v
  | .mk id required kind, v => by
    rw [Field.total, Field.total, Field.total, FieldKind.total_add kind v]
    omega

/-- **A sum of sums.** -/
theorem total_add : ∀ (fs : List Field) (vs : List FieldValue),
    total (fun f v => g f v + h f v) fs vs = total g fs vs + total h fs vs
  | f :: fs, v :: vs => by
    rw [total, total, total, Field.total_add f v, total_add fs vs]
    omega
  | [], _ | _ :: _, [] => rfl

end

/-- A field that is not set, or has `P`, has no share in the sum of `g`. -/
def VanishesOn (P : Nat → FieldKind → FieldValue → Prop) (g : Field → FieldValue → Nat) : Prop :=
  ∀ id required k v, (v.isSet = true → P id k v) → g (.mk id required k) v = 0

mutual

theorem ElemType.total_eq_zero (hg : VanishesOn P g) :
    ∀ {t : ElemType} {v : Value}, t.EachSet P v → t.total g v = 0
  | .unit _, .unit _, hv => total_eq_zero hg hv
  | .unit _, .datum _, _ | .scalar _, _, _ | .bytes _, _, _ | .objectId, _, _ => rfl

theorem FieldKind.total_eq_zero (hg : VanishesOn P g) :
    ∀ {k : FieldKind} {v : FieldValue}, k.EachSet P v → k.total g v = 0
  | .single _, .single _, hv => ElemType.total_eq_zero hg hv
  | .counted t, .repeated l, hv | .unpacked t, .repeated l, hv => by
    have ht : ∀ v, some v ∈ l → t.total g v = 0 := fun v hm => ElemType.total_eq_zero hg (hv v hm)
    refine List.sum_eq_zero fun n hn => ?_
    obtain ⟨v, hm, rfl⟩ := List.mem_map.mp hn
    cases v with
    | none => rfl
    | some v => exact ht v hm
  | .single _, .unset, _ | .single _, .repeated _, _ | .single _, .map _, _ => rfl
  | .counted _, .unset, _ | .counted _, .single _, _ | .counted _, .map _, _ => rfl
  | .unpacked _, .unset, _ | .unpacked _, .single _, _ | .unpacked _, .map _, _ => rfl
  | .packed _, _, _ | .map _ _, _, _ => rfl

theorem Field.total_eq_zero (hg : VanishesOn P g) :
    ∀ {f : Field} {v : FieldValue}, f.EachSet P v → f.total g v = 0
  | .mk id required kind, v, hv => by
    rw [Field.total, hg id required kind v hv.1, FieldKind.total_eq_zero hg hv.2]

/-- Where each set field has what makes its share zero, the sum is zero. -/
theorem total_eq_zero (hg : VanishesOn P g) :
    ∀ {fs : List Field} {vs : List FieldValue}, EachSet P fs vs → total g fs vs = 0
  | _ :: _, _ :: _, hv => by
    rw [total, Field.total_eq_zero hg hv.1, total_eq_zero hg hv.2]
  | [], _, _ | _ :: _, [], _ => rfl

end

end

/-! ### The ledger adds up -/

theorem packUint32_length (n : Nat) : (packUint32 n).length = uint32Size n :=
  packVarInt_length (by norm_num) (lt_trans (Nat.mod_lt n (by norm_num)) (by norm_num))

theorem tagBytes_length (id : Nat) (type : WireType) :
    (tagBytes id type).length = tagSize id type := packUint32_length _

theorem packVarInt64_length (n : Int) :
    (packVarInt64 (n % 2 ^ 64).toNat).length = varIntSize (n % 2 ^ 64).toNat :=
  packVarInt_length (by norm_num) (by omega)

theorem scalarBytes_length (t : ScalarType) (n : Int) : (scalarBytes t n).length = t.takes n := by
  cases t with
  | zigZag w =>
    rw [scalarBytes, ScalarType.takes]
    split
    · exact packVarInt_length (by norm_num) (lt_trans (BitVec.isLt _) (by norm_num))
    · exact packVarInt_length (by norm_num) (lt_trans (BitVec.isLt _) (by norm_num))
  | fixed32 | fixed64 => exact leBytes_length _ _
  | varInt | time | dateTime => exact packVarInt64_length n
  | date | dateRange => exact packUint32_length n.toNat

theorem unitBytes_length (l : List UInt8) : (unitBytes l).length = 5 + l.length := by
  rw [unitBytes, List.length_append, packSize_length]

/-- The length of several items, each as long as `size` says as long as it is not too long. -/
theorem encodeAll_length {α : Type} {encode : α → Option (List UInt8)} {size : α → Nat}
    {bound : Nat} : ∀ {xs : List α} {l : List UInt8}, encodeAll encode xs = some l →
    (∀ x ∈ xs, ∀ y, encode x = some y → y.length < bound → y.length = size x) →
    l.length < bound → l.length = (xs.map size).sum := by
  intro xs
  induction xs with
  | nil =>
    intro l hl _ _
    cases hl
    rfl
  | cons x xs ih =>
    intro l hl hx hb
    obtain ⟨y, hy, hrest⟩ := Option.bind_eq_some_iff.mp hl
    obtain ⟨z, hz, heq⟩ := Option.bind_eq_some_iff.mp hrest
    cases heq
    rw [List.length_append] at hb ⊢
    rw [List.map_cons, List.sum_cons, ← hx x List.mem_cons_self y hy (by omega),
      ← ih hz (fun x hm => hx x (List.mem_cons_of_mem _ hm)) (by omega)]

theorem mapDatumBytes_length : ∀ {t : MapType} {d : Datum} {l : List UInt8},
    mapDatumBytes t d = some l → l.length = t.takes d
  | .int signed w, .num n, _, h => by
    cases h
    exact scalarBytes_length (.varInt signed w) n
  | .string, .bytes b, _, h => by
    cases h
    rw [List.length_append, packUint32_length, MapType.takes]
  | .int _ _, .bytes _, _, h | .int _ _, .oid _, _, h => nomatch h
  | .string, .num _, _, h | .string, .oid _, _, h => nomatch h
  | .other, _, _, h => nomatch h

theorem uint32Size_eq_one {n : Nat} (h : n < 128) : uint32Size n = 1 := by
  rw [uint32Size, Nat.mod_eq_of_lt (by omega), varIntSize, Nat.log_of_lt h]

/-- The tags of keys and of values are single bytes. -/
theorem tagSize_map (t : MapType) : tagSize 1 t.wireType = 1 ∧ tagSize 2 t.wireType = 1 := by
  have htype : t.wireType = .varInt ∨ t.wireType = .withLength := by
    cases t <;> simp [MapType.wireType]
  rcases htype with h | h <;> rw [h] <;>
    exact ⟨uint32Size_eq_one (by decide), uint32Size_eq_one (by decide)⟩

theorem mapItemBytes_length {key value : MapType} {e : Datum × Datum} {l : List UInt8}
    (h : mapItemBytes key value e = some l) :
    l.length = 5 + ((1 + key.takes e.1) + (1 + value.takes e.2)) := by
  obtain ⟨k, hk, hrest⟩ := Option.bind_eq_some_iff.mp h
  obtain ⟨v, hv, heq⟩ := Option.bind_eq_some_iff.mp hrest
  cases heq
  rw [unitBytes_length]
  simp only [List.length_append, tagBytes_length, (tagSize_map key).1, (tagSize_map value).2,
    mapDatumBytes_length hk, mapDatumBytes_length hv]

theorem packedItem_length {t : ScalarType} : ∀ {v : Option Value} {l : List UInt8},
    packedItem t v = some l → l.length = v.elim 0 (ElemType.takes (.scalar t))
  | some (.datum (.num n)), _, h => by
    cases h
    exact scalarBytes_length t n
  | none, _, h | some (.unit _), _, h => nomatch h
  | some (.datum (.bytes _)), _, h | some (.datum (.oid _)), _, h => nomatch h

theorem packedBytes_length {l : List UInt8} (h : l.length < 2 ^ 31) :
    (packedBytes l).length =
      (if l.length = 0 then 0 else varIntSize l.length) + l.length := by
  rw [packedBytes, List.length_append]
  split
  · rfl
  · rw [packVarInt32, packVarInt_length (by norm_num) (lt_trans h (by norm_num))]

mutual

theorem ElemType.encode_length : ∀ {t : ElemType} {v : Value} {l : List UInt8},
    t.encode v = some l → l.length < 2 ^ 31 → l.length = t.takes v + t.total Field.takes v
  | .scalar t, .datum (.num n), _, h, _ => by
    cases h
    exact scalarBytes_length t n
  | .bytes _, .datum (.bytes b), _, h, _ => by
    cases h
    rw [List.length_append, packUint32_length]
    rfl
  | .objectId, .datum (.oid x), _, h, _ => by
    cases h
    rw [List.length_append, packUint32_length, ObjectId.serialize_length]
    rfl
  | .unit fs, .unit vs, _, h, hb => by
    obtain ⟨y, hy, heq⟩ := Option.bind_eq_some_iff.mp h
    cases heq
    rw [unitBytes_length] at hb ⊢
    rw [encodeFields_length hy (by omega)]
    rfl
  | .scalar _, .datum (.bytes _), _, h, _ | .scalar _, .datum (.oid _), _, h, _ => nomatch h
  | .bytes _, .datum (.num _), _, h, _ | .bytes _, .datum (.oid _), _, h, _ => nomatch h
  | .objectId, .datum (.num _), _, h, _ | .objectId, .datum (.bytes _), _, h, _ => nomatch h
  | .scalar _, .unit _, _, h, _ | .bytes _, .unit _, _, h, _
  | .objectId, .unit _, _, h, _ => nomatch h
  | .unit _, .datum _, _, h, _ => nomatch h

theorem FieldKind.encode_length {id : Nat} : ∀ {k : FieldKind} {v : FieldValue} {l : List UInt8},
    k.encode id v = some l → l.length < 2 ^ 31 → l.length = k.takes id v + k.total Field.takes v
  | .single t, .single v, _, h, hb => by
    obtain ⟨y, hy, heq⟩ := Option.bind_eq_some_iff.mp h
    cases heq
    rw [List.length_append] at hb ⊢
    rw [ElemType.encode_length hy (by omega), tagBytes_length, FieldKind.takes, FieldKind.total,
      Nat.add_assoc]
  | .counted t, .repeated l, _, h, hb => by
    have ht : ∀ {v : Value} {y : List UInt8}, t.encode v = some y → y.length < 2 ^ 31 →
      y.length = t.takes v + t.total Field.takes v := ElemType.encode_length
    obtain ⟨y, hy, heq⟩ := Option.bind_eq_some_iff.mp h
    cases heq
    simp only [List.length_append] at hb ⊢
    have hy31 : y.length < 2 ^ 31 := by omega
    have hlen : y.length =
        (l.map fun v => v.elim 0 fun v => t.takes v + t.total Field.takes v).sum := by
      refine encodeAll_length hy (fun v _ z hz hlt => ?_) hy31
      cases v with
      | none =>
        cases hz
        rfl
      | some v => exact ht hz hlt
    rw [hlen, sum_elim_add, tagBytes_length, packUint32_length]
    exact (Nat.add_assoc _ _ _).symm
  | .unpacked t, .repeated l, bytes, h, hb => by
    have ht : ∀ {v : Value} {y : List UInt8}, t.encode v = some y → y.length < 2 ^ 31 →
      y.length = t.takes v + t.total Field.takes v := ElemType.encode_length
    have hlen : bytes.length = (l.map fun v => (tagSize id t.wireType + v.elim 0 t.takes) +
        v.elim 0 fun v => t.total Field.takes v).sum := by
      refine encodeAll_length h (fun v _ z hz hlt => ?_) hb
      cases v with
      | none =>
        cases hz
        exact tagBytes_length id t.wireType
      | some v =>
        obtain ⟨y, hy, rfl⟩ := Option.map_eq_some_iff.mp hz
        rw [List.length_append] at hlt ⊢
        rw [ht hy (by omega), tagBytes_length, ← Nat.add_assoc]
        rfl
    rw [hlen, List.sum_map_add]
    rfl
  | .packed t, .repeated l, _, h, hb => by
    obtain ⟨y, hy, heq⟩ := Option.bind_eq_some_iff.mp h
    cases heq
    have hy31 : y.length < 2 ^ 31 := by
      simp only [packedBytes, List.length_append] at hb
      omega
    have hlen : y.length = packedTakes t l :=
      encodeAll_length hy (fun v _ z hz _ => packedItem_length hz) hy31
    rw [List.length_append, packedBytes_length hy31, tagBytes_length, hlen, ← Nat.add_assoc]
    rfl
  | .map key value, .map l, _, h, hb => by
    refine encodeAll_length h (fun e _ z hz _ => ?_) hb
    obtain ⟨y, hy, rfl⟩ := Option.map_eq_some_iff.mp hz
    rw [List.length_append, mapItemBytes_length hy, tagBytes_length]
  | .single _, .unset, _, h, _ | .single _, .repeated _, _, h, _
  | .single _, .map _, _, h, _ => nomatch h
  | .counted _, .unset, _, h, _ | .counted _, .single _, _, h, _
  | .counted _, .map _, _, h, _ => nomatch h
  | .unpacked _, .unset, _, h, _ | .unpacked _, .single _, _, h, _
  | .unpacked _, .map _, _, h, _ => nomatch h
  | .packed _, .unset, _, h, _ | .packed _, .single _, _, h, _
  | .packed _, .map _, _, h, _ => nomatch h
  | .map _ _, .unset, _, h, _ | .map _ _, .single _, _, h, _
  | .map _ _, .repeated _, _, h, _ => nomatch h

theorem Field.encode_length : ∀ {f : Field} {v : FieldValue} {l : List UInt8},
    f.encode v = some l → l.length < 2 ^ 31 → l.length = f.total Field.takes v
  | .mk id required kind, .unset, l, h, _ => by
    have hl : l = [] := by
      rw [Field.encode] at h
      split at h
      · cases h
      · exact (Option.some.inj h).symm
    rw [hl]
    cases kind <;> rfl
  | .mk id required kind, .single v, _, h, hb => FieldKind.encode_length (k := kind) h hb
  | .mk id required kind, .repeated v, _, h, hb => FieldKind.encode_length (k := kind) h hb
  | .mk id required kind, .map v, _, h, hb => FieldKind.encode_length (k := kind) h hb

/-- **The bytes of a unit** are what its fields take. -/
theorem encodeFields_length : ∀ {fs : List Field} {vs : List FieldValue} {l : List UInt8},
    encodeFields fs vs = some l → l.length < 2 ^ 31 → l.length = total Field.takes fs vs
  | f :: fs, v :: vs, _, h, hb => by
    obtain ⟨x, hx, hrest⟩ := Option.bind_eq_some_iff.mp h
    obtain ⟨y, hy, heq⟩ := Option.bind_eq_some_iff.mp hrest
    cases heq
    rw [List.length_append] at hb ⊢
    rw [Field.encode_length hx (by omega), encodeFields_length hy (by omega), total]
  | [], _, _, h, _ | _ :: _, [], _, h, _ => by
    cases h
    rfl

end

/-- Elements with a size of their own are told apart from those with that of their type. -/
theorem ElemType.total_of_size (g : Field → FieldValue → Nat) {t : ElemType}
    (h : t.isSizeIterateNeeded = false) (v : Value) : t.total g v = 0 := by
  cases t with
  | scalar | objectId => rfl
  | bytes | unit => nomatch h

theorem repeatedSize_add {t : ElemType} {a b : Value → Nat} (tag : Nat) (l : List (Option Value))
    (hb : t.isSizeIterateNeeded = false → ∀ v, b v = 0) :
    repeatedSize t (fun v => a v + b v) tag l =
      repeatedSize t a tag l + (l.map fun v => v.elim 0 b).sum := by
  rw [repeatedSize, repeatedSize]
  split
  · rw [← List.sum_map_add]
    congr 1
    refine List.map_congr_left fun v _ => ?_
    cases v with
    | none => rfl
    | some v => exact Nat.add_right_comm _ _ _
  · rename_i hsize
    have hzero : (l.map fun v => v.elim 0 b).sum = 0 := by
      refine List.sum_eq_zero fun n hn => ?_
      obtain ⟨v, -, rfl⟩ := List.mem_map.mp hn
      cases v with
      | none => rfl
      | some v => exact hb (Bool.eq_false_iff.mpr hsize) v
    rw [hzero, Nat.add_zero]

section
variable (unset : Field → Nat)

mutual

theorem ElemType.fieldSize_eq : ∀ (t : ElemType) (v : Value),
    t.fieldSize unset v = t.allows v + t.total (Field.allows unset) v
  | .unit fs, .unit vs => by
    rw [ElemType.fieldSize, ioSize_eq_total fs vs, Nat.add_comm]
    rfl
  | .scalar _, .datum _ | .scalar _, .unit _ | .objectId, .datum _ | .objectId, .unit _ => rfl
  | .bytes _, .datum (.bytes _) | .bytes _, .datum (.num _) | .bytes _, .datum (.oid _) => rfl
  | .bytes _, .unit _ | .unit _, .datum _ => rfl

theorem FieldKind.fieldSize_eq : ∀ (k : FieldKind) (v : FieldValue),
    k.fieldSize unset v = k.allows v + k.total (Field.allows unset) v
  | .single t, .single v => ElemType.fieldSize_eq t v
  | .counted t, .repeated l | .unpacked t, .repeated l => by
    have ht : ∀ v, t.fieldSize unset v = t.allows v + t.total (Field.allows unset) v :=
      ElemType.fieldSize_eq t
    simp only [FieldKind.fieldSize, ht]
    exact repeatedSize_add _ l (ElemType.total_of_size _)
  | .single _, .unset | .single _, .repeated _ | .single _, .map _ => rfl
  | .counted _, .unset | .counted _, .single _ | .counted _, .map _ => rfl
  | .unpacked _, .unset | .unpacked _, .single _ | .unpacked _, .map _ => rfl
  | .packed _, .unset | .packed _, .single _ | .packed _, .repeated _ | .packed _, .map _ => rfl
  | .map _ _, .unset | .map _ _, .single _ | .map _ _, .repeated _ | .map _ _, .map _ => rfl

theorem Field.fieldSize_eq : ∀ (f : Field) (v : FieldValue),
    5 + f.fieldSize unset v = f.total (Field.allows unset) v
  | .mk id required kind, .unset => by cases kind <;> rfl
  | .mk id required kind, .single v | .mk id required kind, .repeated v
  | .mk id required kind, .map v => by
    rw [Field.fieldSize, FieldKind.fieldSize_eq kind _, ← Nat.add_assoc]
    · rfl
    · nofun

/-- **`io::size`** is what is allowed for all the fields. -/
theorem ioSize_eq_total : ∀ (fs : List Field) (vs : List FieldValue),
    ioSize unset fs vs = total (Field.allows unset) fs vs
  | f :: fs, v :: vs => by
    rw [ioSize, Field.fieldSize_eq f v, ioSize_eq_total fs vs, total]
  | [], _ | _ :: _, [] => rfl

end

/-- The bytes that are taken beyond what is allowed. -/
def lack (f : Field) (v : FieldValue) : Nat := f.takes v - f.allows unset v

/-- The bytes that are allowed and not taken. -/
def spare (f : Field) (v : FieldValue) : Nat := f.allows unset v - f.takes v

theorem takes_add_spare (f : Field) (v : FieldValue) :
    f.takes v + spare unset f v = f.allows unset v + lack unset f v := by
  unfold lack spare
  omega

/-- **The ledger**: the bytes and what is spared are what is allowed and what it lacks. -/
theorem total_takes_add_spare (fs : List Field) (vs : List FieldValue) :
    total Field.takes fs vs + total (spare unset) fs vs =
      total (Field.allows unset) fs vs + total (lack unset) fs vs := by
  rw [← total_add, ← total_add]
  simp only [takes_add_spare]

theorem vanishesOn_lack : VanishesOn Fits (lack unset) := by
  intro id required k v h
  refine Nat.sub_eq_zero_of_le ?_
  cases v with
  | unset =>
    have htakes : k.takes id .unset = 0 := by cases k <;> rfl
    rw [Field.takes, htakes]
    exact Nat.zero_le _
  | single | repeated | map => exact h rfl

end

/-! ### Fields that fit -/

theorem varIntSize_le {k n : Nat} (hk : k ≠ 0) (h : n < 128 ^ k) : varIntSize n ≤ k := by
  have hlog : Nat.log 128 n < k := Nat.log_lt_of_lt_pow' hk h
  exact hlog

theorem uint32Size_le (n : Nat) : uint32Size n ≤ 5 :=
  varIntSize_le (by norm_num) (lt_trans (Nat.mod_lt n (by norm_num)) (by norm_num))

theorem time_lt {n : Nat} (h : Time.accepts n = true) : n < 240000000 := by
  simp only [Time.accepts, Bool.and_eq_true, decide_eq_true_eq] at h
  omega

/-- **Single numbers fit**, negative ones too, except for time points. -/
theorem fits_number {env : Env} {t : ScalarType} {n : Int} (id : Nat) (hn : t.Holds env n)
    (ht : t ≠ .dateTime) : Fits id (.single (.scalar t)) (.single (.datum (.num n))) := by
  have htag : tagSize id (ElemType.scalar t).wireType ≤ 5 := uint32Size_le _
  have hsize : t.takes n ≤ t.fieldSize := by
    cases t with
    | dateTime => exact absurd rfl ht
    | varInt | zigZag =>
      rw [← scalarBytes_length]
      exact scalarBytes_length_le _ _
    | fixed32 | fixed64 => exact le_rfl
    | date | dateRange => exact uint32Size_le n.toNat
    | time =>
      have hpos : 0 ≤ n := hn.1.1
      have hlt := time_lt hn.2
      have htime : varIntSize (n % 2 ^ 64).toNat ≤ 9 :=
        varIntSize_le (by norm_num) (by norm_num; omega)
      exact htime
  exact Nat.add_le_add htag hsize

/-- Object ids are written with their length, for which nothing is allowed. -/
theorem fits_objectId_iff (id : Nat) (x : ObjectId) :
    Fits id (.single .objectId) (.single (.datum (.oid x))) ↔ tagSize id .withLength ≤ 4 := by
  have hlength : uint32Size ObjectId.length = 1 := uint32Size_eq_one (by decide)
  show tagSize id .withLength + (uint32Size ObjectId.length + ObjectId.length) ≤
    5 + ObjectId.length ↔ _
  omega

/-- Bytes fit when their tag and their length take no more than nine bytes. -/
theorem fits_bytes_iff (id maxSize : Nat) (l : List UInt8) :
    Fits id (.single (.bytes maxSize)) (.single (.datum (.bytes l))) ↔
      tagSize id .withLength + uint32Size l.length ≤ 9 := by
  show tagSize id .withLength + (uint32Size l.length + l.length) ≤ 5 + (l.length + 4) ↔ _
  omega

/-- Three negative numbers in a counted field. -/
def negativesSchema : Schema where
  fields := [.mk 1 false (.counted (.scalar (.varInt true .w32)))]
  uniqueIds := by simp [EachUnit, fieldsEachUnit, Field.EachUnit, FieldKind.EachUnit,
    ElemType.EachUnit, UniqueIds, Field.id]

def negatives : negativesSchema.Unit sampleEnv where
  values := [.repeated (List.replicate 3 (some (.datum (.num (-1)))))]
  holds := by
    refine ⟨⟨by simp, fun v hv => ?_⟩, trivial⟩
    obtain rfl : v = .datum (.num (-1)) := by simpa using hv
    norm_num [ElemType.Holds, ScalarType.Holds, InRange, Width.bits]

/-- Thirty-two bytes, ten for each of the numbers. -/
def negativesBytes : Serialized negatives where
  buf :=
    let n : List UInt8 := List.replicate 9 0xFF ++ [1]
    ⟨[10, 3] ++ n ++ n ++ n, 32⟩
  eq := by decide +kernel

end Hatn.Dataunit
