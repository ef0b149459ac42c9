import Hatn.Dataunit.Serialize

/-!
# The bytes of a unit

The bytes that a value stands for on the wire, as plain concatenations: nothing is
reserved and patched, and no buffer is there.  `serialize_eq` says that the solid writers
append exactly these bytes, as long as the sizes of the buffer are numbers that an `int`
can hold.
-/

namespace Hatn.Dataunit

open Hatn.Common

/-- The bytes of a subunit whose fields have the bytes `l`. -/
def unitBytes (l : List UInt8) : List UInt8 := packSize l.length ++ l

/-- The bytes of packed scalars: without elements there is no length either. -/
def packedBytes (l : List UInt8) : List UInt8 :=
  (if l.length = 0 then [] else packVarInt32 l.length) ++ l

/-- Bytes of several items. -/
def encodeAll {α : Type} (encode : α → Option (List UInt8)) : List α → Option (List UInt8)
  | [] => some []
  | a :: l => do
    let x ← encode a
    let y ← encodeAll encode l
    return x ++ y

def mapDatumBytes : MapType → Datum → Option (List UInt8)
  | .int signed w, .num n => some (scalarBytes (.varInt signed w) n)
  | .string, .bytes l => some (packUint32 l.length ++ l)
  | _, _ => none

def mapItemBytes (key value : MapType) (e : Datum × Datum) : Option (List UInt8) := do
  let k ← mapDatumBytes key e.1
  let v ← mapDatumBytes value e.2
  return unitBytes (tagBytes 1 key.wireType ++ k ++ (tagBytes 2 value.wireType ++ v))

def packedItem (t : ScalarType) : Option Value → Option (List UInt8)
  | some (.datum (.num n)) => some (scalarBytes t n)
  | _ => none

mutual

def ElemType.encode : ElemType → Value → Option (List UInt8)
  | .scalar t, .datum (.num n) => some (scalarBytes t n)
  | .bytes _, .datum (.bytes l) => some (packUint32 l.length ++ l)
  | .objectId, .datum (.oid x) => some (packUint32 ObjectId.length ++ x.serialize)
  | .unit fs, .unit vs => do
    let l ← encodeFields fs vs
    return unitBytes l
  | _, _ => none

def FieldKind.encode (id : Nat) : FieldKind → FieldValue → Option (List UInt8)
  | .single t, .single v => do
    let l ← t.encode v
    return tagBytes id t.wireType ++ l
  | .counted t, .repeated l => do
    let x ← encodeAll (fun (v : Option Value) =>
      match v with
      | some v => t.encode v
      | none => some []) l
    return tagBytes id .withLength ++ packUint32 l.length ++ x
  | .unpacked t, .repeated l =>
    encodeAll (fun (v : Option Value) =>
      match v with
      | some v => (t.encode v).map (tagBytes id t.wireType ++ ·)
      | none => some (tagBytes id t.wireType)) l
  | .packed t, .repeated l => do
    let x ← encodeAll (packedItem t) l
    return tagBytes id .withLength ++ packedBytes x
  | .map key value, .map l =>
    encodeAll (fun e => (mapItemBytes key value e).map (tagBytes id .withLength ++ ·)) l
  | _, _ => none

def Field.encode : Field → FieldValue → Option (List UInt8)
  | .mk _ required _, .unset => if required then none else some []
  | .mk id _ kind, v => kind.encode id v

def encodeFields : List Field → List FieldValue → Option (List UInt8)
  | f :: fs, v :: vs => do
    let x ← f.encode v
    let y ← encodeFields fs vs
    return x ++ y
  | _, _ => some []

end

/-! ### The writers append these bytes -/

namespace WireBufSolid

/-- The size is that of the container. -/
def Consistent (w : WireBufSolid) : Prop := w.size = w.container.length

/-- The buffer with more bytes. -/
def extend (w : WireBufSolid) (l : List UInt8) : WireBufSolid :=
  ⟨w.container ++ l, (w.container ++ l).length⟩

@[simp] theorem extend_container (w : WireBufSolid) (l : List UInt8) :
    (w.extend l).container = w.container ++ l := rfl

@[simp] theorem extend_size (w : WireBufSolid) (l : List UInt8) :
    (w.extend l).size = w.container.length + l.length := List.length_append

@[simp] theorem put_container (l : List UInt8) (w : WireBufSolid) :
    (w.put l).container = w.container ++ l := rfl

theorem incSize_size (n : Int) (w : WireBufSolid) :
    (w.incSize n).size = (((w.size : Int) + toInt n) % 2 ^ 64).toNat := by
  rw [WireBufSolid.incSize]

theorem put_size (l : List UInt8) (w : WireBufSolid) :
    (w.put l).size = (((w.size : Int) + toInt l.length) % 2 ^ 64).toNat := by
  rw [WireBufSolid.put, incSize_size]

theorem extend_consistent (w : WireBufSolid) (l : List UInt8) : (w.extend l).Consistent := rfl

theorem extend_extend (w : WireBufSolid) (l l' : List UInt8) :
    (w.extend l).extend l' = w.extend (l ++ l') := by
  simp [extend]

theorem extend_nil {w : WireBufSolid} (h : w.Consistent) : w.extend [] = w := by
  ext1
  · simp [extend]
  · simpa [extend] using h.symm

end WireBufSolid

open WireBufSolid

/-- A writer that appends the bytes `r`, or none where there are none; `bound` limits
the length of the container. -/
structure Writes (bound : Nat) (p : WireBufSolid → Option WireBufSolid)
    (r : Option (List UInt8)) : Prop where
  grows : ∀ w w', p w = some w' → w.container.length ≤ w'.container.length
  appends : ∀ w w', w.Consistent → p w = some w' → w'.container.length < bound →
    ∃ l, r = some l ∧ w' = w.extend l

/-- A few bytes that are taken back. -/
theorem toInt_neg {k : Nat} (h : k ≤ 5) : toInt (-(5 - k : Nat)) = -(5 - k : Nat) :=
  Int.bmod_eq_of_le (by norm_num; omega) (by norm_num; omega)

namespace Writes

variable {bound : Nat} {p q : WireBufSolid → Option WireBufSolid} {r s : Option (List UInt8)}

theorem congr (h : Writes bound p r) (hr : r = s) : Writes bound p s := hr ▸ h

theorem fails : Writes bound (fun _ => none) r := ⟨nofun, nofun⟩

theorem nothing : Writes bound some (some []) := by
  refine ⟨fun w w' h => ?_, fun w w' hw h _ => ⟨[], rfl, ?_⟩⟩
  · cases h
    exact le_rfl
  · cases h
    exact (extend_nil hw).symm

theorem put_eq {l : List UInt8} {w : WireBufSolid} (hw : w.Consistent) (hl : l.length < 2 ^ 31)
    (h : (w.container ++ l).length < 2 ^ 63) : w.put l = w.extend l := by
  have hs : w.size = w.container.length := hw
  rw [List.length_append] at h
  ext1
  · exact put_container l w
  · rw [put_size, extend_size, toInt_of_lt (by omega) (by omega), hs,
      Int.emod_eq_of_lt (by omega) (by omega)]
    omega

theorem put (l : List UInt8) (hb : bound ≤ 2 ^ 63) (hl : bound ≤ 2 ^ 31 ∨ l.length < 2 ^ 31) :
    Writes bound (fun w => some (w.put l)) (some l) := by
  refine ⟨fun w w' h => ?_, fun w w' hw h hlt => ⟨l, rfl, ?_⟩⟩
  · cases h
    rw [put_container, List.length_append]
    omega
  · cases h
    rw [put_container] at hlt
    have hlen : l.length ≤ (w.container ++ l).length := by
      rw [List.length_append]
      omega
    exact put_eq hw (by omega) (by omega)

theorem bind (hp : Writes bound p r) (hq : Writes bound q s) :
    Writes bound (fun w => p w >>= q) (do let x ← r; let y ← s; return x ++ y) := by
  have split : ∀ {w w'}, (p w >>= q) = some w' → ∃ w₁, p w = some w₁ ∧ q w₁ = some w' :=
    fun h => Option.bind_eq_some_iff.mp h
  refine ⟨fun w w' h => ?_, fun w w' hw h hlt => ?_⟩
  · obtain ⟨w₁, h₁, h₂⟩ := split h
    exact le_trans (hp.grows w w₁ h₁) (hq.grows w₁ w' h₂)
  · obtain ⟨w₁, h₁, h₂⟩ := split h
    obtain ⟨x, rfl, rfl⟩ := hp.appends w w₁ hw h₁ (lt_of_le_of_lt (hq.grows _ w' h₂) hlt)
    obtain ⟨y, rfl, rfl⟩ := hq.appends _ w' (extend_consistent w x) h₂ hlt
    exact ⟨x ++ y, rfl, extend_extend w x y⟩

theorem all {α : Type} {write : α → WireBufSolid → Option WireBufSolid}
    {encode : α → Option (List UInt8)} (h : ∀ a, Writes bound (write a) (encode a)) :
    ∀ l, Writes bound (writeAll write l) (encodeAll encode l) := by
  intro l
  induction l with
  | nil => exact nothing
  | cons a l ih => exact (h a).bind ih

theorem bytes (l : List UInt8) : Writes (2 ^ 31) (fun w => some (writeBytes l w))
    (some (packUint32 l.length ++ l)) := by
  by_cases h : l.length = 0
  · have hl : l = [] := List.eq_nil_of_length_eq_zero h
    have he : (fun w => some (writeBytes l w)) =
        fun w : WireBufSolid => some (w.put (packUint32 l.length)) := by
      funext w
      rw [writeBytes, if_pos h]
    rw [he, hl, List.append_nil]
    exact put _ (by norm_num) (.inl le_rfl)
  · have he : (fun w => some (writeBytes l w)) =
        fun w : WireBufSolid => some (w.put (packUint32 l.length)) >>= fun w => some (w.put l) := by
      funext w
      rw [writeBytes, if_neg h]
      rfl
    rw [he]
    exact (put _ (by norm_num) (.inl le_rfl)).bind (put l (by norm_num) (.inl le_rfl))

theorem patch_length {w : WireBufSolid} {k : Nat} {l : List UInt8} :
    w.container.length ≤ (w.patch k l).container.length := by
  simp only [patch, List.length_append, List.length_take, List.length_drop]
  omega

theorem patch_extend (w : WireBufSolid) {z x : List UInt8} (l : List UInt8)
    (hx : x.length = z.length) :
    ((w.extend z).extend l).patch w.container.length x = w.extend (x ++ l) := by
  ext1
  · simp only [patch, extend_container]
    rw [List.drop_left' (by rw [List.length_append, hx]), List.append_assoc w.container z l,
      List.take_left' rfl, List.append_assoc]
  · simp only [patch, extend_size, extend_container, List.length_append]
    omega

/-- **A subunit** is its padded size and its fields. -/
theorem unit (h : Writes (2 ^ 31) p r) :
    Writes (2 ^ 31) (writeUnit p) (do let l ← r; return unitBytes l) := by
  have split : ∀ {w w'}, writeUnit p w = some w' → ∃ end_, p (w.put (List.replicate 5 0)) = some end_ ∧
      w' = end_.patch w.size
        (packSize (toInt ((end_.size : Int) - (w.put (List.replicate 5 0)).size)).toNat) := by
    intro w w' hw
    obtain ⟨end_, h₁, h₂⟩ := Option.bind_eq_some_iff.mp hw
    refine ⟨end_, h₁, ?_⟩
    dsimp only at h₂
    split at h₂
    · cases h₂
    · exact (Option.some.inj h₂).symm
  have hgrows : ∀ {w w'}, writeUnit p w = some w' →
      (w.put (List.replicate 5 0)).container.length ≤ w'.container.length := by
    intro w w' hw
    obtain ⟨end_, h₁, rfl⟩ := split hw
    exact le_trans (h.grows _ _ h₁) patch_length
  refine ⟨fun w w' hw => ?_, fun w w' hw hp hlt => ?_⟩
  · have hle := hgrows hw
    rw [put_container, List.length_append] at hle
    omega
  · have hle := hgrows hp
    obtain ⟨end_, h₁, rfl⟩ := split hp
    rw [put_container] at hle
    have hput : w.put (List.replicate 5 0) = w.extend (List.replicate 5 0) :=
      put_eq hw (by decide) (by omega)
    rw [hput] at h₁ hlt ⊢
    obtain ⟨l, rfl, rfl⟩ := h.appends _ _ (extend_consistent _ _) h₁
      (lt_of_le_of_lt patch_length hlt)
    have hs : w.size = w.container.length := hw
    have hlen : ((w.extend (List.replicate 5 0)).extend l).container.length < 2 ^ 31 :=
      lt_of_le_of_lt patch_length hlt
    simp only [extend_container, List.length_append, List.length_replicate] at hlen
    have hsize : toInt ((((w.extend (List.replicate 5 0)).extend l).size : Int) -
        (w.extend (List.replicate 5 0)).size) = l.length := by
      simp only [extend_size, extend_container, List.length_append, List.length_replicate]
      rw [← toInt_of_lt (n := l.length) (by omega) (by omega)]
      congr 1
      omega
    refine ⟨unitBytes l, rfl, ?_⟩
    rw [hsize, Int.toNat_natCast, hs, patch_extend w l (by simp), unitBytes]

/-- **Packed scalars** are their length and themselves. -/
theorem packed (h : Writes (2 ^ 63) p r) :
    Writes (2 ^ 31) (writePacked p) (do let l ← r; return packedBytes l) := by
  have split : ∀ {w w'}, writePacked p w = some w' →
      ∃ end_ header, p (w.put (List.replicate 5 0)) = some end_ ∧ header.length ≤ 5 ∧
        (w.Consistent → ∀ l, end_ = (w.extend (List.replicate 5 0)).extend l →
          l.length < 2 ^ 31 → header ++ l = packedBytes l) ∧
        w' = WireBufSolid.incSize (-(5 - header.length : Nat))
          { end_ with container := end_.container.take w.container.length ++ header ++
              end_.container.drop (w.container.length + 5) } := by
    intro w w' hw
    obtain ⟨end_, h₁, h₂⟩ := Option.bind_eq_some_iff.mp hw
    refine ⟨end_, _, h₁, ?_, ?_, (Option.some.inj h₂).symm⟩
    · split
      · simp
      · exact packVarInt_length_le 5 _
    · rintro hc l rfl hl
      have hs : w.size = w.container.length := hc
      have hlen : ((((w.extend (List.replicate 5 0)).extend l).size : Int) - w.size - 5) % 2 ^ 64 =
          l.length := by
        simp only [extend_size, extend_container, List.length_append, List.length_replicate, hs]
        rw [← Int.emod_eq_of_lt (a := l.length) (b := 2 ^ 64) (by omega) (by omega)]
        congr 1
        omega
      rw [hlen, Int.toNat_natCast, Nat.mod_eq_of_lt (by omega)]
      rfl
  have hsize : ∀ {w w'}, writePacked p w = some w' →
      ∃ end_, p (w.put (List.replicate 5 0)) = some end_ ∧
        w.container.length + 5 ≤ end_.container.length ∧
        end_.container.length ≤ w'.container.length + 5 ∧
        w.container.length ≤ w'.container.length := by
    intro w w' hw
    obtain ⟨end_, header, h₁, -, -, rfl⟩ := split hw
    have hle := h.grows _ _ h₁
    simp only [put_container, List.length_append, List.length_replicate] at hle
    refine ⟨end_, h₁, hle, ?_, ?_⟩
    · simp only [WireBufSolid.incSize, List.length_append, List.length_take, List.length_drop]
      omega
    · simp only [WireBufSolid.incSize, List.length_append, List.length_take, List.length_drop]
      omega
  refine ⟨fun w w' hw => ?_, fun w w' hw hp hlt => ?_⟩
  · obtain ⟨_, -, -, -, hle⟩ := hsize hw
    exact hle
  · obtain ⟨end_, h₁, hge, hle, -⟩ := hsize hp
    obtain ⟨end', header, h₂, h5, hheader, rfl⟩ := split hp
    have hput : w.put (List.replicate 5 0) = w.extend (List.replicate 5 0) :=
      put_eq hw (by decide) (by rw [List.length_append, List.length_replicate]; omega)
    rw [h₂] at h₁
    cases h₁
    rw [hput] at h₂
    obtain ⟨l, rfl, rfl⟩ := h.appends _ _ (extend_consistent _ _) h₂ (by omega)
    have hl : w.container.length + 5 + l.length < 2 ^ 31 + 5 := by
      have hend : ((w.extend (List.replicate 5 0)).extend l).container.length =
          w.container.length + 5 + l.length := by
        simp only [extend_container, List.length_append, List.length_replicate]
      omega
    refine ⟨packedBytes l, rfl, ?_⟩
    rw [← hheader hw l rfl (by omega)]
    ext1
    · simp only [WireBufSolid.incSize, extend_container]
      rw [List.drop_left' (by rw [List.length_append, List.length_replicate]),
        List.append_assoc w.container _ l, List.take_left' rfl, List.append_assoc]
    · rw [incSize_size, toInt_neg h5]
      simp only [extend_size, extend_container, List.length_append, List.length_replicate]
      rw [Int.emod_eq_of_lt (by omega) (by omega)]
      omega

/-- **The bytes of a value of a map item.** -/
theorem mapDatum (t : MapType) (d : Datum) :
    Writes (2 ^ 31) (writeMapDatum t d) (mapDatumBytes t d) := by
  match t, d with
  | .int signed w, .num n => exact put _ (by norm_num) (.inl le_rfl)
  | .string, .bytes l => exact bytes l
  | .int _ _, .bytes _ | .int _ _, .oid _ | .string, .num _ | .string, .oid _ | .other, _ =>
    exact fails

theorem tagged (tag : List UInt8) (h : Writes (2 ^ 31) p r) :
    Writes (2 ^ 31) (fun w => p (w.put tag)) (r.map (tag ++ ·)) := by
  have hb := (put tag (by norm_num) (.inl le_rfl)).bind h
  cases r <;> exact hb

theorem mapItem (key value : MapType) (e : Datum × Datum) :
    Writes (2 ^ 31) (writeMapItem key value e) (mapItemBytes key value e) := by
  have h := unit ((tagged (tagBytes 1 key.wireType) (mapDatum key e.1)).bind
    (tagged (tagBytes 2 value.wireType) (mapDatum value e.2)))
  have hr : mapItemBytes key value e = (do
      let l ← (do
        let x ← (mapDatumBytes key e.1).map (tagBytes 1 key.wireType ++ ·)
        let y ← (mapDatumBytes value e.2).map (tagBytes 2 value.wireType ++ ·)
        return x ++ y)
      return unitBytes l) := by
    rw [mapItemBytes]
    cases mapDatumBytes key e.1 with
    | none => rfl
    | some k => cases mapDatumBytes value e.2 <;> rfl
  rw [hr]
  exact h

end Writes

theorem scalarBytes_length_le (t : ScalarType) (n : Int) : (scalarBytes t n).length ≤ 10 := by
  cases t with
  | zigZag w =>
    rw [scalarBytes]
    split
    · exact packVarInt_length_le 10 _
    · exact le_trans (packVarInt_length_le 5 _) (by norm_num)
  | fixed32 | fixed64 => simp [scalarBytes]
  | varInt | date | time | dateTime | dateRange => exact packVarInt_length_le 10 _

theorem packedItem_writes (t : ScalarType) (v : Option Value) :
    Writes (2 ^ 63) (fun w =>
      match v with
      | some (.datum (.num n)) => some (w.put (scalarBytes t n))
      | _ => none) (packedItem t v) := by
  match v with
  | some (.datum (.num n)) =>
    exact .put _ le_rfl (.inr (lt_of_le_of_lt (scalarBytes_length_le t n) (by norm_num)))
  | some (.datum (.bytes _)) | some (.datum (.oid _)) | some (.unit _) | none => exact .fails

mutual

theorem ElemType.writes :
    ∀ (t : ElemType) (v : Value), Writes (2 ^ 31) (t.write v) (t.encode v)
  | .scalar t, .datum (.num n) => .put _ (by norm_num) (.inl le_rfl)
  | .bytes _, .datum (.bytes l) => .bytes l
  | .objectId, .datum (.oid x) =>
    (Writes.put _ (by norm_num) (.inl le_rfl)).bind (.put _ (by norm_num) (.inl le_rfl))
  | .unit fs, .unit vs => .unit (serializeFields_writes fs vs)
  | .scalar _, .datum (.bytes _) | .scalar _, .datum (.oid _) | .scalar _, .unit _ => .fails
  | .bytes _, .datum (.num _) | .bytes _, .datum (.oid _) | .bytes _, .unit _ => .fails
  | .objectId, .datum (.bytes _) | .objectId, .datum (.num _) | .objectId, .unit _ => .fails
  | .unit _, .datum _ => .fails

theorem FieldKind.writes (id : Nat) :
    ∀ (k : FieldKind) (v : FieldValue), Writes (2 ^ 31) (k.serialize id v) (k.encode id v)
  | .single t, .single v => by
    have h := (t.writes v).tagged (tagBytes id t.wireType)
    rw [FieldKind.encode]
    cases hv : t.encode v <;> rw [hv] at h <;> exact h
  | .counted t, .repeated l => by
    have h : Writes (2 ^ 31)
        (writeAll (fun (v : Option Value) w =>
          match v with
          | some v => t.write v w
          | none => some w) l)
        (encodeAll (fun (v : Option Value) =>
          match v with
          | some v => t.encode v
          | none => some []) l) := by
      refine .all (fun v => ?_) l
      cases v with
      | none => exact .nothing
      | some v => exact t.writes v
    refine ((h.tagged (packUint32 l.length)).tagged (tagBytes id .withLength)).congr ?_
    rw [FieldKind.encode]
    cases encodeAll _ l <;> simp
  | .unpacked t, .repeated l =>
    .all (fun (v : Option Value) =>
      match v with
      | some v => (t.writes v).tagged (tagBytes id t.wireType)
      | none => .put _ (by norm_num) (.inl le_rfl)) l
  | .packed t, .repeated l => by
    have h := ((Writes.all (packedItem_writes t) l).packed).tagged (tagBytes id .withLength)
    refine h.congr ?_
    rw [FieldKind.encode]
    cases encodeAll _ l <;> rfl
  | .map key value, .map l =>
    .all (fun e => (Writes.mapItem key value e).tagged (tagBytes id .withLength)) l
  | .single _, .unset | .single _, .repeated _ | .single _, .map _ => .fails
  | .counted _, .unset | .counted _, .single _ | .counted _, .map _ => .fails
  | .unpacked _, .unset | .unpacked _, .single _ | .unpacked _, .map _ => .fails
  | .packed _, .unset | .packed _, .single _ | .packed _, .map _ => .fails
  | .map _ _, .unset | .map _ _, .single _ | .map _ _, .repeated _ => .fails

theorem Field.writes :
    ∀ (f : Field) (v : FieldValue), Writes (2 ^ 31) (f.serialize v) (f.encode v)
  | .mk _ true _, .unset => .fails
  | .mk _ false _, .unset => .nothing
  | .mk id _ kind, .single v => kind.writes id (.single v)
  | .mk id _ kind, .repeated l => kind.writes id (.repeated l)
  | .mk id _ kind, .map l => kind.writes id (.map l)

theorem serializeFields_writes :
    ∀ (fs : List Field) (vs : List FieldValue),
      Writes (2 ^ 31) (serializeFields fs vs) (encodeFields fs vs)
  | f :: fs, v :: vs => (f.writes v).bind (serializeFields_writes fs vs)
  | [], _ => .nothing
  | _ :: _, [] => .nothing

end

/-- The size that is returned is an `int`. -/
theorem serialize_size_lt {fs : List Field} {vs : List FieldValue} {w : WireBufSolid} {n : Int}
    (h : serialize fs vs = some (w, n)) : n < 2 ^ 31 := by
  obtain ⟨w', -, he⟩ := Option.bind_eq_some_iff.mp h
  cases he
  exact toInt_lt w.size

/-- **The bytes that `serialize` produces**, when the size that it returns is theirs. -/
theorem serialize_eq {fs : List Field} {vs : List FieldValue} {w : WireBufSolid} {n : Int}
    (h : serialize fs vs = some (w, n)) (hn : n = w.container.length) :
    encodeFields fs vs = some w.container := by
  obtain ⟨w', hw, he⟩ := Option.bind_eq_some_iff.mp h
  cases he
  have hlt : (w.container.length : Int) < 2 ^ 31 := hn ▸ serialize_size_lt h
  obtain ⟨l, hl, rfl⟩ := (serializeFields_writes fs vs).appends .empty w rfl hw (by omega)
  exact hl

end Hatn.Dataunit
