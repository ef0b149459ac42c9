import Hatn.Dataunit.RoundTrip

/-!
# Subunits that are serialized apart

`visitors::serializeAsSubunit` writes a unit with the tag of the field that is to hold it.  Its
bytes may stand next to the bytes of the other fields in any order.  A reader takes them as the
subunit, or as the bytes of one, where its field is of a unit of any type.
-/

namespace Hatn.Dataunit

open Hatn.Common Hatn.Wire Hatn.Wire.Parser

variable {fuel : Nat} {env : Env} {l : List UInt8}

/-- `visitors::serializeAsSubunit`: the buffer and the size that is returned, or none for -1. -/
def serializeAsSubunit (fs : List Field) (vs : List FieldValue) (fieldId : Nat)
    (w : WireBufSolid) : Option (WireBufSolid × Int) := do
  let prevSize := w.size
  let w' ← writeUnit (serializeFields fs vs) (w.put (tagBytes fieldId .withLength))
  return (w', toInt (w'.size - prevSize))

/-- **The bytes of a unit that is serialized apart**: the tag, the size and the fields. -/
theorem serializeAsSubunit_eq {fs : List Field} {vs : List FieldValue} {fieldId : Nat}
    {w : WireBufSolid} {n : Int} (h : serializeAsSubunit fs vs fieldId .empty = some (w, n))
    (hw : w.container.length < 2 ^ 31) :
    ∃ l, encodeFields fs vs = some l ∧
      w.container = tagBytes fieldId .withLength ++ unitBytes l := by
  obtain ⟨w', hw', he⟩ := Option.bind_eq_some_iff.mp h
  cases he
  obtain ⟨x, hx, rfl⟩ := ((serializeFields_writes fs vs).unit.tagged
    (tagBytes fieldId .withLength)).appends .empty w rfl hw' hw
  obtain ⟨y, hy, rfl⟩ := Option.map_eq_some_iff.mp hx
  obtain ⟨l, hl, he⟩ := Option.bind_eq_some_iff.mp hy
  cases he
  exact ⟨l, hl, rfl⟩

/-- The bytes of a buffer below 2^31 are those of the fields. -/
theorem serialize_container {fs : List Field} {vs : List FieldValue} {w : WireBufSolid} {n : Int}
    (h : serialize fs vs = some (w, n)) (hw : w.container.length < 2 ^ 31) :
    encodeFields fs vs = some w.container := by
  obtain ⟨w', hw', he⟩ := Option.bind_eq_some_iff.mp h
  cases he
  obtain ⟨l, hl, rfl⟩ := (serializeFields_writes fs vs).appends .empty w rfl hw' hw
  exact hl

theorem encodeFields_cons {f : Field} {fs : List Field} {v : FieldValue} {vs : List FieldValue}
    (h : encodeFields (f :: fs) (v :: vs) = some l) :
    ∃ x y, f.encode v = some x ∧ encodeFields fs vs = some y ∧ l = x ++ y := by
  rw [encodeFields] at h
  obtain ⟨x, hx, h⟩ := Option.bind_eq_some_iff.mp h
  obtain ⟨y, hy, he⟩ := Option.bind_eq_some_iff.mp h
  cases he
  exact ⟨x, y, hx, hy, rfl⟩

/-- The bytes of two groups of fields. -/
theorem encodeFields_append : ∀ {fs gs : List Field} {vs us : List FieldValue} {l : List UInt8},
    fs.length = vs.length → encodeFields (fs ++ gs) (vs ++ us) = some l →
    ∃ x y, encodeFields fs vs = some x ∧ encodeFields gs us = some y ∧ l = x ++ y := by
  intro fs
  induction fs with
  | nil =>
    intro gs vs us l hl h
    obtain rfl := List.eq_nil_of_length_eq_zero hl.symm
    exact ⟨[], l, rfl, h, rfl⟩
  | cons f fs ih =>
    intro gs vs us l hl h
    cases vs with
    | nil => cases hl
    | cons v vs =>
      obtain ⟨x, y, hx, hy, rfl⟩ := encodeFields_cons h
      obtain ⟨z, w, hz, hw, rfl⟩ := ih (Nat.succ.inj hl) hy
      refine ⟨x ++ z, w, ?_, hw, (List.append_assoc _ _ _).symm⟩
      rw [encodeFields, hx, hz]
      rfl

/-- A subunit is read as bytes by a field of a unit of any type. -/
theorem reads_unitBytes {view : Bool} (hl : l.length < 2 ^ 31) :
    Reads (Within fuel) (fun buf => readBytes view 0 buf) (unitBytes l) (.ok l) :=
  (reads_uint32 (.packSize (by omega)) (by omega)).bind_ok
    (reads_takeBytes (fun h => absurd h (lt_irrefl 0)) hl)

section Taken

variable {known : List Field} {f : Field}

/-- A field is read in one round, where its reader takes its bytes. -/
theorem taken_of_reads {r : Except Failure FieldValue} (hu : UniqueIds known) (hf : f ∈ known)
    (ht : TagFits f.id f.kind.wireType)
    (h : Reads (Within fuel) (fun buf => f.kind.deserialize env buf fuel .unset) l r) :
    Part.Taken fuel env known ⟨f.id, r, tagBytes f.id f.kind.wireType ++ l⟩ := by
  intro cur hcur
  have hstart : Function.update cur f.id .unset = cur := by rw [← hcur, Function.update_eq_self]
  have hslot : Slot env fuel (fun buf => findField (fieldParsers env buf fuel known)) f.id f.kind
      (fun v => slots known (Function.update cur f.id v)) := slot_of_mem hu hf cur
  have hround := hslot.reads ht .unset h
  rw [hstart] at hround
  exact .single (tagBytes_append_ne_nil _ _ _) hround

/-- **A subunit in the field of its type.** -/
theorem taken_subunit {fs : List Field} {us : List FieldValue} (hu : UniqueIds known)
    (hf : f ∈ known) (hk : f.kind = .single (.unit fs)) (ht : TagFits f.id .withLength)
    (h : Rounds (Within fuel)
      (fun x buf => fieldRound (findField (fieldParsers env buf fuel fs)) buf x) l
      (freshFields fs) (.ok us)) (hus : requiredSet fs us = true) (hl : l.length < 2 ^ 31) :
    Part.Taken fuel env known
      ⟨f.id, .ok (.single (.unit us)), tagBytes f.id .withLength ++ unitBytes l⟩ := by
  have hread := Reads.map Value.unit (reads_unit (requiredSet fs) h hl)
  rw [ok_bind, if_pos hus] at hread
  have htaken := taken_of_reads (r := .ok (.single (.unit us))) (l := unitBytes l) hu hf
    (by rwa [hk]) (by
      rw [hk]
      simp only [FieldKind.deserialize, ElemType.read]
      exact Reads.map FieldValue.single hread)
  rwa [hk] at htaken

/-- **A subunit in a field of any type**: its bytes are kept. -/
theorem taken_bytes (hu : UniqueIds known) (hf : f ∈ known) (hk : f.kind = .single (.bytes 0))
    (ht : TagFits f.id .withLength) (hl : l.length < 2 ^ 31) :
    Part.Taken fuel env known
      ⟨f.id, .ok (.single (.datum (.bytes l))), tagBytes f.id .withLength ++ unitBytes l⟩ := by
  have hbytes : Reads (Within fuel)
      (fun buf => readBytes (env.inlineBuffers && 0 == 0) 0 buf) (unitBytes l) (.ok l) :=
    reads_unitBytes hl
  have hread := Reads.map (fun x => Value.datum (.bytes x)) hbytes
  have htaken := taken_of_reads (r := .ok (.single (.datum (.bytes l)))) (l := unitBytes l) hu hf
    (by rwa [hk]) (by
      rw [hk]
      simp only [FieldKind.deserialize, ElemType.read]
      exact Reads.map FieldValue.single hread)
  rwa [hk] at htaken

end Taken

/-! ### Groups of fields -/

theorem assign_append : ∀ {fs gs : List Field} {vs us : List FieldValue} {cur : Nat → FieldValue},
    fs.length = vs.length → assign cur (fs ++ gs) (vs ++ us) = assign (assign cur fs vs) gs us := by
  intro fs
  induction fs with
  | nil =>
    intro gs vs us cur hl
    obtain rfl := List.eq_nil_of_length_eq_zero hl.symm
    rfl
  | cons f fs ih =>
    intro gs vs us cur hl
    cases vs with
    | nil => cases hl
    | cons v vs => exact ih (Nat.succ.inj hl)

/-- A part of the bytes of a unit with the fields `known`: its parts `ps` have the bytes `l` and
give the fields `fs` the values `us`. -/
structure FieldGroup (fuel : Nat) (env : Env) (known fs : List Field) (us : List FieldValue)
    (l : List UInt8) (ps : List Part) : Prop where
  length : fs.length = us.length
  taken : ∀ p ∈ ps, p.Taken fuel env known
  ids : (ps.map Part.id).Sublist (fs.map Field.id)
  bytes : ps.flatMap Part.bytes = l
  seen : ∀ cur qs, (∀ f ∈ fs, cur f.id = .unset) →
    partsSeen known cur (ps ++ qs) = partsSeen known (assign cur fs us) qs

namespace FieldGroup

variable {known fs gs : List Field} {us vs : List FieldValue} {x y : List UInt8}
  {ps qs : List Part}

theorem unset (f : Field) : FieldGroup fuel env known [f] [.unset] [] [] where
  length := rfl
  taken _ hp := absurd hp List.not_mem_nil
  ids := List.nil_sublist _
  bytes := rfl
  seen cur qs hcur := by
    show partsSeen known cur qs = partsSeen known (Function.update cur f.id .unset) qs
    rw [← hcur f (List.mem_singleton_self f), Function.update_eq_self]

theorem single {f : Field} {v : FieldValue} (h : Part.Taken fuel env known ⟨f.id, .ok v, l⟩) :
    FieldGroup fuel env known [f] [v] l [⟨f.id, .ok v, l⟩] where
  length := rfl
  taken p hp := by
    obtain rfl := List.mem_singleton.mp hp
    exact h
  ids := .refl _
  bytes := List.append_nil _
  seen _ _ _ := rfl

theorem partsSeen_unitParts : ∀ {fs : List Field} {vs us : List FieldValue}
    {xs : List (List UInt8)} {cur : Nat → FieldValue}, fieldForms fs vs xs →
    fieldsSeen fs vs = .ok us → fs.length = vs.length →
    partsSeen known cur (unitParts fs vs xs ++ qs) = partsSeen known (assign cur fs us) qs := by
  intro fs
  induction fs with
  | nil =>
    intro vs us xs cur _ hs _
    cases hs
    rfl
  | cons f fs ih =>
    intro vs us xs cur h hs hl
    cases vs with
    | nil => cases hl
    | cons v vs =>
      obtain ⟨x, rest, -, hrest, rfl⟩ := h
      rw [fieldsSeen] at hs
      cases hu : f.seen v with
      | error e => rw [hu] at hs; cases hs
      | ok u =>
        cases hus : fieldsSeen fs vs with
        | error e => rw [hu, hus] at hs; cases hs
        | ok ws =>
          rw [hu, hus] at hs
          cases hs
          rw [unitParts, List.cons_append, partsSeen, hu, ok_bind]
          exact ih hrest hus (Nat.succ.inj hl)

/-- **Fields that are serialized together.** -/
theorem of_encode (hk : UniqueIds known) (hsub : ∀ f ∈ fs, f ∈ known)
    (hu : fieldsEachUnit UniqueIds fs) (hv : fieldsHold env fs vs) (hr : EachSet Readable fs vs)
    (hs : fieldsSeen fs vs = .ok us) (he : encodeFields fs vs = some x) (hx : x.length < 2 ^ 31) :
    ∃ ps, FieldGroup fuel env known fs us x ps := by
  obtain ⟨xs, hxs, rfl⟩ := fieldForms_of_encode fs vs he
  have hl := fieldsHold_length hv
  refine ⟨unitParts fs vs xs, (hl.trans (fieldsSeen_length hl hs).symm), ?_, unitParts_ids, ?_, ?_⟩
  · exact fieldsTaken known fs vs xs hk hsub hu hv hr hxs fun y hy =>
      lt_of_le_of_lt (List.sublist_flatten_of_mem hy).length_le hx
  · rw [List.flatMap_def, unitParts_bytes hxs]
  · exact fun cur qs _ => partsSeen_unitParts hxs hs hl

/-- **Groups one after the other.** -/
theorem append (hp : FieldGroup fuel env known fs us x ps) (hq : FieldGroup fuel env known gs vs y qs)
    (hd : UniqueIds (fs ++ gs)) :
    FieldGroup fuel env known (fs ++ gs) (us ++ vs) (x ++ y) (ps ++ qs) where
  length := by rw [List.length_append, List.length_append, hp.length, hq.length]
  taken p h := (List.mem_append.mp h).elim (hp.taken p) (hq.taken p)
  ids := by
    rw [List.map_append, List.map_append]
    exact hp.ids.append hq.ids
  bytes := by rw [List.flatMap_append, hp.bytes, hq.bytes]
  seen cur rest hcur := by
    rw [List.append_assoc, hp.seen cur _ fun f hf => hcur f (List.mem_append_left _ hf),
      hq.seen _ _ fun f hf => ?_, assign_append hp.length]
    rw [UniqueIds, List.map_append] at hd
    rw [assign_of_not_mem fun h => (List.nodup_append'.mp hd).2.2 h (List.mem_map_of_mem hf)]
    exact hcur f (List.mem_append_right _ hf)

/-- **The groups of a unit are read in any order.** -/
theorem rounds (h : FieldGroup fuel env known fs us l ps) (hn : UniqueIds fs) :
    Rounds (Within fuel)
      (fun x buf => fieldRound (findField (fieldParsers env buf fuel known)) buf x) l
      (freshFields known) (.ok (slots known (assign (fun _ => .unset) fs us))) := by
  have hrounds := @rounds_parts fuel env known ps (fun _ => .unset) h.taken (h.ids.nodup hn)
    fun _ _ => rfl
  have hseen := h.seen (fun _ => .unset) [] fun _ _ => rfl
  rw [List.append_nil] at hseen
  rw [hseen, h.bytes] at hrounds
  exact hrounds

end FieldGroup

end Hatn.Dataunit
