import Hatn.Dataunit.Transfer
import Hatn.Dataunit.VarInts

/-!
# Packed lists

The writer of packed scalars looks for the end of the length that it has packed at the first byte
that is zero.  The length of an empty list is such a byte itself, so nothing of it is written and
the list does not come back (`packedLists_iff`).  Other lists have the shortest form of their
length in front of them, as long as the length is a number of 32 bits, and they are read again as
long as the bytes that are left are a number of an `int`.
-/

namespace Hatn.Dataunit

open Hatn.Common Hatn.Wire Hatn.Wire.Parser WireBufSolid

/-- The elements of a list of numbers. -/
def numbers (ns : List Int) : List (Option Value) := ns.map fun n => some (.datum (.num n))

/-- The bytes of all numbers. -/
def payload (t : ScalarType) (ns : List Int) : List UInt8 := ns.flatMap (scalarBytes t)

/-- The shortest form of a number. -/
structure Minimal (n : Nat) (l : List UInt8) : Prop where
  form : ∃ k, VarForm k n l
  shortest : ∀ k l', VarForm k n l' → l.length ≤ l'.length

/-- **What the writer is for**: a tag, the shortest form of the length, and the numbers. -/
def WritesPacked (t : ScalarType) (id : Nat) (ns : List Int) (w : WireBufSolid) : Prop :=
  ∃ w' header, (FieldKind.packed t).serialize id (.repeated (numbers ns)) w = some w' ∧
    Minimal (payload t ns).length header ∧
      w'.container = w.container ++ (tagBytes id .withLength ++ header ++ payload t ns)

/-- **The list comes back** from what is behind the tag, and from all of it. -/
def PackedTravels (env : Env) (t : ScalarType) (id : Nat) (ns : List Int) (w : WireBufSolid) :
    Prop :=
  ∃ w' header, (FieldKind.packed t).serialize id (.repeated (numbers ns)) w = some w' ∧
    Minimal (payload t ns).length header ∧
      w'.container = w.container ++ (tagBytes id .withLength ++ header ++ payload t ns) ∧
        ∀ (fuel : Nat) (x : FieldValue), (header ++ payload t ns).length < fuel →
          ((FieldKind.packed t).deserialize env (header ++ payload t ns) fuel x).outcome 0 =
            .ok (.repeated (numbers ns), (header ++ payload t ns).length)

/-! ### Shortest forms -/

/-- **The shortest form** is the one that is packed. -/
theorem minimal_packVarInt32 {n : Nat} (h : n < 2 ^ 32) : Minimal n (packVarInt32 n) := by
  have hlength : (packVarInt32 n).length = varIntSize n :=
    packVarInt_length (by norm_num) (lt_trans h (by norm_num))
  refine ⟨⟨5, .packVarInt32 h⟩, fun k l' hl => ?_⟩
  rw [hlength]
  exact hl.varIntSize_le

/-! ### Writing -/

theorem payload_cons (t : ScalarType) (n : Int) (ns : List Int) :
    payload t (n :: ns) = scalarBytes t n ++ payload t ns := rfl

/-- The length in front of the payload as the writer leaves it. -/
def packedHeader (n : Nat) : List UInt8 :=
  if n % 2 ^ 32 = 0 then [] else packVarInt32 (n % 2 ^ 32)

theorem minimal_packedHeader_iff (n : Nat) :
    Minimal n (packedHeader n) ↔ n ≠ 0 ∧ n < 2 ^ 32 := by
  unfold packedHeader
  constructor
  · rintro ⟨⟨k, hform⟩, -⟩
    split at hform
    · exact absurd hform.length_pos (by simp)
    · rename_i h0
      have hpack : VarForm 5 (n % 2 ^ 32) (packVarInt32 (n % 2 ^ 32)) :=
        .packVarInt32 (Nat.mod_lt n (by norm_num))
      have heq := hpack.value_unique hform
      omega
  · rintro ⟨h0, hlt⟩
    rw [Nat.mod_eq_of_lt hlt, if_neg h0]
    exact minimal_packVarInt32 hlt

theorem writeAll_numbers (t : ScalarType) : ∀ (ns : List Int) (w : WireBufSolid), ∃ w',
    writeAll (fun (v : Option Value) w =>
        match v with
        | some (.datum (.num n)) => some (w.put (scalarBytes t n))
        | _ => none) (numbers ns) w = some w' ∧
      w'.container = w.container ++ payload t ns ∧
        (w'.size : Int) % 2 ^ 64 = (w.size + (payload t ns).length) % 2 ^ 64 := by
  intro ns
  induction ns with
  | nil =>
    intro w
    exact ⟨w, rfl, (List.append_nil _).symm, by simp [payload]⟩
  | cons n ns ih =>
    intro w
    obtain ⟨w', hw, hcontainer, hsize⟩ := ih (w.put (scalarBytes t n))
    have hlen : (scalarBytes t n).length < 2 ^ 31 :=
      lt_of_le_of_lt (scalarBytes_length_le t n) (by norm_num)
    refine ⟨w', hw, ?_, ?_⟩
    · rw [hcontainer, put_container, List.append_assoc]
      rfl
    · rw [hsize, put_size, toInt_of_lt (by omega) (by omega), payload_cons, List.length_append]
      omega

/-- **What the writer of packed lists does.** -/
theorem serialize_packed (t : ScalarType) (id : Nat) (ns : List Int) (w : WireBufSolid) :
    ∃ w', (FieldKind.packed t).serialize id (.repeated (numbers ns)) w = some w' ∧
      w'.container = w.container ++
        (tagBytes id .withLength ++ packedHeader (payload t ns).length ++ payload t ns) := by
  obtain ⟨e, he, hcontainer, hsize⟩ := writeAll_numbers t ns
    ((w.put (tagBytes id .withLength)).put (List.replicate 5 0))
  have hlength : (((e.size : Int) - (w.put (tagBytes id .withLength)).size - 5) % 2 ^ 64).toNat %
      2 ^ 32 = (payload t ns).length % 2 ^ 32 := by
    rw [put_size (List.replicate 5 0), List.length_replicate, toInt_of_lt (by omega) (by omega)]
      at hsize
    omega
  rw [FieldKind.serialize, writePacked]
  refine ⟨_, Option.bind_eq_some_iff.mpr ⟨e, he, rfl⟩, ?_⟩
  -- the payload moves from behind the reserved bytes to the place behind the header
  have hmove : ∀ c z p header : List UInt8, z.length = 5 →
      (c ++ z ++ p).take c.length ++ header ++ (c ++ z ++ p).drop (c.length + 5) =
        c ++ (header ++ p) := by
    intro c z p header hz
    rw [List.append_assoc c z p, List.take_left' rfl, ← hz, ← List.length_append,
      ← List.append_assoc c z p, List.drop_left' rfl, List.append_assoc]
  show (e.container.take _ ++ _ ++ e.container.drop _) = _
  rw [hcontainer, put_container (List.replicate 5 0), hmove _ _ _ _ List.length_replicate, hlength]
  simp only [put_container, packedHeader, List.append_assoc]

/-! ### The two ways -/

theorem encodeAll_numbers (t : ScalarType) (ns : List Int) :
    encodeAll (packedItem t) (numbers ns) = some (payload t ns) := by
  induction ns with
  | nil => rfl
  | cons n ns ih =>
    show (encodeAll (packedItem t) (numbers ns)).bind _ = _
    rw [ih]
    rfl

theorem payload_ne_nil_iff (t : ScalarType) (ns : List Int) :
    (payload t ns).length ≠ 0 ↔ ns ≠ [] := by
  cases ns with
  | nil => simp [payload]
  | cons n ns =>
    have hpos := List.length_pos_iff.mpr (scalarBytes_ne_nil t n)
    rw [payload_cons, List.length_append]
    simp only [ne_eq, reduceCtorEq, not_false_eq_true, iff_true]
    omega

/-- The header is the only one that goes with the payload. -/
theorem header_unique {c tag header header' p : List UInt8}
    (h : c ++ (tag ++ header ++ p) = c ++ (tag ++ header' ++ p)) : header = header' := by
  rw [List.append_cancel_left_eq, List.append_assoc, List.append_assoc,
    List.append_cancel_left_eq, List.append_cancel_right_eq] at h
  exact h

theorem writesPacked_iff (t : ScalarType) (id : Nat) (ns : List Int) (w : WireBufSolid) :
    WritesPacked t id ns w ↔ ns ≠ [] ∧ (payload t ns).length < 2 ^ 32 := by
  obtain ⟨v, hv, hcontainer⟩ := serialize_packed t id ns w
  rw [← payload_ne_nil_iff t, ← minimal_packedHeader_iff]
  constructor
  · rintro ⟨w', header, hw, hminimal, hbytes⟩
    rw [hv, Option.some.injEq] at hw
    subst hw
    rw [hcontainer] at hbytes
    rwa [header_unique hbytes]
  · intro h
    exact ⟨v, _, hv, h, hcontainer⟩

/-- A length is read when the bytes that are left, as an `int`, have room for it. -/
theorem header_available {buf l : List UInt8} {k n : Nat} (h : VarForm k n l) (hk : k ≤ 10)
    {r : Except Failure (Nat × Nat)} (hr : (readUint32 (l ++ buf)).outcome 0 = r)
    (hok : ∀ e, r ≠ .error e) : buf.length % 2 ^ 32 + l.length < 2 ^ 31 := by
  have hlen := h.length_le
  rw [← le_toInt_iff h.length_pos (by omega), ← h.broken_iff (by omega : 7 * k ≤ 56 + 14) _ buf,
    Bool.eq_false_iff]
  intro hb
  have hread : (readVarInt unpackVarInt64 (l ++ buf)).outcome 0 = .error .rejected := by
    rw [readVarInt, outcome_bind_ok (outcome_offset 0)]
    dsimp only
    rw [outcome_bind_ok (outcome_log _ 0), unpackVarInt64, List.drop_zero, List.length_append,
      Nat.cast_zero, sub_zero, hb]
    rfl
  rw [readUint32, outcome_bind_error hread] at hr
  exact hok _ hr.symm

theorem packedHeader_eq {n : Nat} (h0 : n ≠ 0) (h : n < 2 ^ 32) :
    packedHeader n = packVarInt32 n := by
  rw [packedHeader, Nat.mod_eq_of_lt h, if_neg h0]

theorem packedTravels_iff {env : Env} {t : ScalarType} (id : Nat) {ns : List Int}
    (w : WireBufSolid) (hns : ∀ n ∈ ns, t.Holds env n) :
    PackedTravels env t id ns w ↔
      ns ≠ [] ∧ varIntSize (payload t ns).length + (payload t ns).length < 2 ^ 31 := by
  have hsize : ∀ n < 2 ^ 32, (packVarInt32 n).length = varIntSize n := fun n hn =>
    packVarInt_length (by norm_num) (lt_trans hn (by norm_num))
  obtain ⟨v, hv, hcontainer⟩ := serialize_packed t id ns w
  rw [← payload_ne_nil_iff t]
  constructor
  · rintro ⟨w', header, hw, hminimal, hbytes, hread⟩
    rw [hv, Option.some.injEq] at hw
    subst hw
    rw [hcontainer] at hbytes
    obtain rfl := header_unique hbytes
    obtain ⟨hne, hlt⟩ := (minimal_packedHeader_iff _).mp hminimal
    rw [packedHeader_eq hne hlt] at hread
    have hrun := hread _ .unset (Nat.lt_succ_self _)
    rw [FieldKind.deserialize] at hrun
    obtain ⟨length, o, hlength, -⟩ := outcome_bind_inv hrun
    have havailable := header_available (.packVarInt32 hlt) (by norm_num) hlength nofun
    rw [hsize _ hlt, Nat.mod_eq_of_lt hlt] at havailable
    exact ⟨hne, by omega⟩
  · rintro ⟨hne, hlt⟩
    have hlt32 : (payload t ns).length < 2 ^ 32 := by omega
    have hlen := hsize _ hlt32
    refine ⟨v, _, hv, (minimal_packedHeader_iff _).mpr ⟨hne, hlt32⟩, hcontainer,
      fun fuel x hf => ?_⟩
    have hnum : numbers ns ≠ [] := fun h => by
      rw [numbers, List.map_eq_nil_iff] at h
      exact (payload_ne_nil_iff t ns).mp hne h
    have hholds : ∀ v ∈ numbers ns, ∃ n, v = some (.datum (.num n)) ∧ t.Holds env n := by
      intro v hv
      obtain ⟨n, hn, rfl⟩ := List.mem_map.mp hv
      exact ⟨n, rfl, hns n hn⟩
    have hencode := encodeAll_numbers t ns
    rw [packedHeader_eq hne hlt32] at hf ⊢
    have hreads := reads_packed hnum hholds hencode (by omega)
      (packVarInt32 (payload t ns).length ++ payload t ns) 0 [] ⟨by rw [List.length_append]; omega, hf⟩
      (Nat.zero_le _) (by rw [packedBytes_eq hnum hencode, List.drop_zero, List.append_nil])
    rw [packedBytes_eq hnum hencode, Nat.zero_add] at hreads
    rw [FieldKind.deserialize]
    exact hreads

/-- **Packed lists are written with the shortest form of their length** when there is a number in
them and the length has 32 bits, and they come back when all the bytes are a number of an `int`. -/
theorem packedLists_iff : ∀ (env : Env) (t : ScalarType) (id : Nat) (ns : List Int)
    (w : WireBufSolid), (∀ n ∈ ns, t.Holds env n) →
      (WritesPacked t id ns w ↔ ns ≠ [] ∧ (payload t ns).length < 2 ^ 32) ∧
      (PackedTravels env t id ns w ↔
        ns ≠ [] ∧ varIntSize (payload t ns).length + (payload t ns).length < 2 ^ 31) := by
  intro env t id ns w hns
  exact ⟨writesPacked_iff t id ns w, packedTravels_iff id w hns⟩

/-- Two numbers, behind the bytes of some other field. -/
theorem packedLists_two :
    PackedTravels sampleEnv (.varInt true .w32) 3 [-1, 300] ⟨[8, 1], 2⟩ := by
  refine (packedLists_iff sampleEnv (.varInt true .w32) 3 [-1, 300] ⟨[8, 1], 2⟩ ?_).2.mpr ?_
  · intro n hn
    simp only [List.mem_cons, List.not_mem_nil, or_false] at hn
    rcases hn with rfl | rfl <;> norm_num [ScalarType.Holds, InRange, Width.bits]
  · have hlength : (payload (.varInt true .w32) [-1, 300]).length = 12 := by decide +kernel
    rw [hlength, varIntSize, Nat.log_of_lt (by norm_num)]
    exact ⟨List.cons_ne_nil _ _, by norm_num⟩

/-- Of a list without numbers there is a tag and no length. -/
theorem packedLists_empty : ¬ WritesPacked (.varInt true .w32) 3 [] ⟨[], 0⟩ := by
  rintro ⟨w', header, hw, ⟨⟨k, hform⟩, -⟩, hbytes⟩
  have hcontainer : w'.container = [26] := by
    rw [← Option.some.inj hw]
    decide +kernel
  rw [hcontainer] at hbytes
  have htag : tagBytes 3 .withLength = [26] := by decide +kernel
  rw [htag] at hbytes
  have hlen := congrArg List.length hbytes
  have hpos := hform.length_pos
  simp only [List.length_append, List.length_nil, List.length_cons] at hlen
  omega

end Hatn.Dataunit
