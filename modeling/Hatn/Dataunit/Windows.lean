import Hatn.Dataunit.WindowReaders

/-!
# The window of a nested unit

The fields of a nested unit are parsed until the offset has reached the end of the unit, but the
readers of the fields test their lengths against the whole buffer.  So the last field may reach
over the end of the unit, and the unit is accepted all the same.  The parsers on the whole buffer
are compared with those on the buffer that is cut at the end of the unit: a nested unit keeps to
its window just when it is accepted in the cut buffer as well (`staysInside_iff`).
-/

namespace Hatn.Dataunit

open Hatn.Common Hatn.Wire Hatn.Wire.Parser

section
variable {buf : List UInt8} {m : Nat}

/-! ### Units -/

/-- A unit ends where its size says, or behind that. -/
theorem takeUnit_ends {α : Type} {inner : Nat → Reader α} {complete : α → Bool} {current x : α}
    {d o o' : Nat} (hi : ∀ {stop o o' x}, (inner stop).outcome o = .ok (x, o') → stop ≤ o')
    (h : (takeUnit inner complete buf current d).outcome o = .ok (x, o')) : o + d ≤ o' := by
  rw [takeUnit, outcome_bind_ok (outcome_offset o), outcome_bind_ok (outcome_log _ o)] at h
  split at h
  · rename_i h0
    split at h
    · cases h
      omega
    · cases h
  · split at h
    · cases h
    · exact hi h

/-- The size of a unit fits the buffer. -/
theorem takeUnit_fits {α : Type} {inner : Nat → Reader α} {complete : α → Bool} {current x : α}
    {d o o' : Nat} (ho : o ≤ buf.length)
    (h : (takeUnit inner complete buf current d).outcome o = .ok (x, o')) :
    o + d ≤ buf.length := by
  rw [takeUnit, outcome_bind_ok (outcome_offset o), outcome_bind_ok (outcome_log _ o)] at h
  split at h
  · omega
  · split at h
    · cases h
    · omega

theorem takeUnit_narrows {α : Type} {inner inner' : Nat → Reader α} (complete : α → Bool)
    (current : α) (d : Nat) (hm : m ≤ buf.length)
    (hi : ∀ stop, (window buf hm).Narrows (inner stop) (inner' stop))
    (hstop : ∀ {stop o o' x}, (inner stop).outcome o = .ok (x, o') → stop ≤ o') :
    (window buf hm).Narrows (takeUnit inner complete buf current d)
      (takeUnit inner' complete (buf.take m) current d) := by
  refine Window.Narrows.offset.bind fun o _ _ _ =>
    (Window.Narrows.log trivial).bind fun _ _ _ _ => ?_
  split
  · split
    · exact .pure _
    · exact .fail _ _
  · rw [length_take hm]
    split
    · exact .fail _ _
    · split
      · rename_i hfar
        exact (hi _).of_far _ fun h => lt_of_lt_of_le hfar (hstop h)
      · exact hi _

theorem readUnit_narrows {α : Type} {inner inner' : Nat → Reader α} (complete : α → Bool)
    (current : α) (hb : Addressable buf) (hm : m ≤ buf.length)
    (hi : ∀ stop, (window buf hm).Narrows (inner stop) (inner' stop))
    (hstop : ∀ {stop o o' x}, (inner stop).outcome o = .ok (x, o') → stop ≤ o') :
    (window buf hm).Narrows (readUnit inner complete buf current)
      (readUnit inner' complete (buf.take m) current) :=
  sized_narrows hb hm fun d _ => takeUnit_narrows complete current d hm hi hstop

/-- The two find the same fields, and the readers of these fields do the same on the window. -/
def FindsAlike (W : Window Event) {α : Type} (find find' : Nat → Option (UnitFieldParser α)) :
    Prop :=
  ∀ id, match find id, find' id with
    | some p, some p' => p.wireType = p'.wireType ∧ ∀ x, W.Narrows (p.fn x) (p'.fn x)
    | none, none => True
    | _, _ => False

theorem FindsAlike.cases {W : Window Event} {α : Type} {find find' : Nat → Option (UnitFieldParser α)}
    (h : FindsAlike W find find') (id : Nat) : (find id = none ∧ find' id = none) ∨
      ∃ p p', find id = some p ∧ find' id = some p' ∧ p.wireType = p'.wireType ∧
        ∀ x, W.Narrows (p.fn x) (p'.fn x) := by
  have hid := h id
  revert hid
  cases find id <;> cases find' id <;> intro hid
  · exact .inl ⟨rfl, rfl⟩
  · exact hid.elim
  · exact hid.elim
  · exact .inr ⟨_, _, rfl, rfl, hid⟩

theorem fieldStep_narrows {α : Type} {find find' : Nat → Option (UnitFieldParser α)}
    (hb : Addressable buf) (hm : m ≤ buf.length) (h : FindsAlike (window buf hm) find find')
    (x : α) :
    (window buf hm).Narrows (fieldStep find buf x) (fieldStep find' (buf.take m) x) := by
  refine Window.Narrows.offset.bind fun start _ _ _ =>
    (readUint32_narrows hb hm).bind fun tag _ _ _ => ?_
  split
  · exact .fail _ _
  rcases h.cases (tag >>> 3) with ⟨hp, hp'⟩ | ⟨p, p', hp, hp', hwire, hfn⟩
  · rw [hp, hp']
    exact (skipField_narrows start _ hb hm).map fun _ => x
  · rw [hp, hp']
    dsimp only
    rw [hwire]
    split
    · exact .fail _ _
    · exact hfn x

theorem fieldRound_narrows {α : Type} {find find' : Nat → Option (UnitFieldParser α)}
    (hb : Addressable buf) (hm : m ≤ buf.length) (h : FindsAlike (window buf hm) find find')
    (x : α) :
    (window buf hm).Narrows (fieldRound find buf x) (fieldRound find' (buf.take m) x) :=
  Window.Narrows.offset.bind fun _ _ _ _ => (fieldStep_narrows hb hm h x).bind fun y _ _ _ =>
    Window.Narrows.offset.bind fun _ _ _ _ => (Window.Narrows.log trivial).map fun _ => y

theorem deserializeFields_narrows {α : Type} {find find' : Nat → Option (UnitFieldParser α)}
    (complete : α → Bool) (fuel : Nat) (fresh : α) (size : Nat) (hb : Addressable buf)
    (hm : m ≤ buf.length) (h : FindsAlike (window buf hm) find find') :
    (window buf hm).Narrows (deserializeFields find complete buf fuel fresh size)
      (deserializeFields find' complete (buf.take m) fuel fresh size) := by
  refine (Window.Narrows.untilOffset (fieldRound_narrows hb hm h) fuel fresh).bind
    fun x _ _ _ => ?_
  split
  · exact .pure x
  · exact .fail _ _

theorem deserializeFields_ends {α : Type} {find : Nat → Option (UnitFieldParser α)}
    {complete : α → Bool} {fuel : Nat} {fresh x : α} {size o o' : Nat}
    (h : (deserializeFields find complete buf fuel fresh size).outcome o = .ok (x, o')) :
    size ≤ o' := by
  obtain ⟨y, o₁, h1, h2⟩ := outcome_bind_inv h
  split at h2
  · cases h2
    exact stop_le_of_untilOffset h1
  · cases h2

/-! ### Fields -/

theorem readMapDatum_narrows (t : MapType) (hb : Addressable buf) (hm : m ≤ buf.length) :
    (window buf hm).Narrows (readMapDatum buf t) (readMapDatum (buf.take m) t) := by
  cases t with
  | int signed w => exact (readVariable_narrows signed w hb hm).map _
  | string => exact (readBytes_narrows false 0 hb hm).map _
  | other => exact .fail _ _

theorem mapItemParser_alike (key value : MapType) (hb : Addressable buf) (hm : m ≤ buf.length) :
    FindsAlike (window buf hm) (mapItemParser key value buf)
      (mapItemParser key value (buf.take m)) := by
  intro id
  rw [mapItemParser, mapItemParser]
  by_cases h1 : id = 1
  · rw [if_pos h1, if_pos h1]
    exact ⟨rfl, fun x => (readMapDatum_narrows key hb hm).map _⟩
  · rw [if_neg h1, if_neg h1]
    exact ⟨rfl, fun x => (readMapDatum_narrows value hb hm).map _⟩

/-- The parsers of the same field. -/
structure FieldParser.Narrows (W : Window Event) (p p' : FieldParser) : Prop where
  id : p.id = p'.id
  wireType : p.wireType = p'.wireType
  fn : ∀ x, W.Narrows (p.fn x) (p'.fn x)

theorem find?_zipIdx_alike {W : Window Event} (id : Nat) : ∀ {ps ps' : List FieldParser},
    List.Forall₂ (FieldParser.Narrows W) ps ps' → ∀ n,
      Option.Rel (fun p p' => FieldParser.Narrows W p.1 p'.1 ∧ p.2 = p'.2)
        ((ps.zipIdx n).find? fun p => p.1.id == id)
        ((ps'.zipIdx n).find? fun p => p.1.id == id) := by
  intro ps ps' h
  induction h with
  | nil => exact fun _ => .none
  | @cons p p' ps ps' hp _ ih =>
    intro n
    rw [List.zipIdx_cons, List.zipIdx_cons, List.find?_cons, List.find?_cons]
    dsimp only
    rw [hp.id]
    cases p'.id == id with
    | true => exact .some ⟨hp, rfl⟩
    | false => exact ih (n + 1)

theorem findField_alike {W : Window Event} {ps ps' : List FieldParser}
    (h : List.Forall₂ (FieldParser.Narrows W) ps ps') :
    FindsAlike W (findField ps) (findField ps') := by
  intro id
  have hid := find?_zipIdx_alike id h 0
  rw [findField, findField]
  generalize ps.zipIdx.find? (fun p => p.1.id == id) = p at hid ⊢
  generalize ps'.zipIdx.find? (fun p => p.1.id == id) = p' at hid ⊢
  cases hid with
  | none => trivial
  | some hid =>
    obtain ⟨hn, hi⟩ := hid
    refine ⟨hn.wireType, fun x => ?_⟩
    dsimp only
    rw [hi]
    exact (hn.fn _).map _

theorem takePacked_narrows {element element' : Reader Int} (fuel length : Nat)
    (hm : m ≤ buf.length) (h : (window buf hm).Narrows element element') :
    (window buf hm).Narrows (takePacked element buf fuel length)
      (takePacked element' (buf.take m) fuel length) := by
  have hround : ∀ l, (window buf hm).Narrows (packedRound element l) (packedRound element' l) :=
    fun l => h.map _
  refine Window.Narrows.offset.bind fun o _ _ _ =>
    (Window.Narrows.log trivial).bind fun _ _ _ _ => ?_
  rw [length_take hm]
  have hloop : (window buf hm).Narrows
      (untilOffset .exhausted (o + length) (packedRound element) fuel [] >>= fun l =>
        pure (FieldValue.repeated l))
      (untilOffset .exhausted (o + length) (packedRound element') fuel [] >>= fun l =>
        pure (FieldValue.repeated l)) := (Window.Narrows.untilOffset hround fuel []).map _
  split
  · exact .fail _ _
  · split
    · rename_i hfar
      refine hloop.of_far _ fun hp => ?_
      obtain ⟨l, o', h1, h2⟩ := outcome_bind_inv hp
      cases h2
      have hend := stop_le_of_untilOffset h1
      show m < _
      omega
    · exact hloop

/-- The elements behind their count. -/
def elements (element : Reader Value) (count : Nat) : Reader FieldValue := do
  let l ← times element count
  return .repeated (l.map some)

theorem takeCounted_ok_iff {element : Reader Value} {count o : Nat} {r : FieldValue × Nat} :
    (takeCounted element buf count).outcome o = .ok r ↔
      o + count ≤ buf.length ∧ (elements element count).outcome o = .ok r := by
  rw [takeCounted, outcome_bind_ok (outcome_offset o)]
  split
  · exact ⟨(fun h => nomatch h), fun h => by omega⟩
  split
  · exact ⟨(fun h => nomatch h), fun h => by omega⟩
  · exact ⟨fun h => ⟨by omega, h⟩, And.right⟩

theorem takeCounted_trace {element : Reader Value} {count o : Nat} (h : o + count ≤ buf.length) :
    (takeCounted element buf count).trace o = (elements element count).trace o := by
  rw [takeCounted, trace_bind_ok (outcome_offset o), if_neg (by omega), if_neg (by omega)]
  rfl

/-- The count is tested against the bytes that are left, and each element takes some of these. -/
theorem takeCounted_narrows {element element' : Reader Value} (count : Nat) (hm : m ≤ buf.length)
    (h : (window buf hm).Narrows element element') (ha : (window buf hm).Advances element) :
    (window buf hm).Narrows (takeCounted element buf count)
      (takeCounted element' (buf.take m) count) := by
  have hbody : (window buf hm).Narrows (elements element count) (elements element' count) :=
    (h.times count).map _
  have hlen := length_take hm
  refine ⟨⟨?_, ?_, ?_⟩, ?_⟩
  · intro o x o' ho hp
    exact hbody.within ho (takeCounted_ok_iff.mp hp).2
  · intro o x o' hs ho hp hk ho'
    obtain ⟨hfit, hp⟩ := takeCounted_ok_iff.mp hp
    rw [Window.Keeps, takeCounted_trace hfit] at hk
    refine takeCounted_ok_iff.mpr ⟨?_, hbody.forth hs ho hp hk ho'⟩
    obtain ⟨l, o₁, h1, h2⟩ := outcome_bind_inv hp
    cases h2
    have hend := ha.times h.within (le_trans ho hm) h1 ((Window.keeps_bind_iff h1).mp hk).1
    rw [hlen]
    exact le_trans hend ho'
  · intro o x o' r ho hp hq
    obtain ⟨hfit, hp⟩ := takeCounted_ok_iff.mp hp
    rw [Window.Keeps, takeCounted_trace hfit]
    exact hbody.back ho hp (takeCounted_ok_iff.mp hq).2
  · intro o x o' ho hlt hp hk
    obtain ⟨hfit, hp⟩ := takeCounted_ok_iff.mp hp
    rw [Window.Keeps, takeCounted_trace hfit] at hk
    exact hbody.out ho hlt hp hk

theorem sized_advances {α : Type} {f : Nat → Reader α} (hb : Addressable buf)
    (hm : m ≤ buf.length)
    (hf : ∀ {d o a o'}, d < 2 ^ 32 → o ≤ buf.length → (f d).outcome o = .ok (a, o') →
      (window buf hm).Keeps (f d) o → o ≤ o') :
    (window buf hm).Advances (readUint32 buf >>= f) := by
  intro o a o' ho h hk
  obtain ⟨d, o₁, h1, h2⟩ := outcome_bind_inv h
  obtain ⟨hlt, hfit, -⟩ := (readUint32_run hb ho).ok h1
  have hkeeps := ((Window.keeps_bind_iff h1).mp hk).2
  exact lt_of_lt_of_le hlt (hf (readUint32_lt _ _ _ h1) hfit h2 hkeeps)

/-- **Each element takes something.** -/
theorem ElemType.read_advances (env : Env) (fuel : Nat) (hb : Addressable buf)
    (hm : m ≤ buf.length) (t : ElemType) (current : Value) :
    (window buf hm).Advances (t.read env buf fuel current) := by
  intro o v o' ho h hk
  cases t with
  | scalar t =>
    rw [ElemType.read] at h hk
    obtain ⟨n, o₁, h1, h2⟩ := outcome_bind_inv h
    cases h2
    exact ((readScalar_run env t hb ho).ok h1).1
  | bytes maxSize =>
    rw [ElemType.read] at h hk
    obtain ⟨l, o₁, h1, h2⟩ := outcome_bind_inv h
    cases h2
    refine sized_advances hb hm (fun hd ho h hk => ?_) ho h1 ((Window.keeps_bind_iff h1).mp hk).1
    rcases takeBytes_ok hb ho hd h with ⟨-, hend, -⟩ | ⟨-, -, -, e, he, hover⟩
    · omega
    · exact absurd ((hk e he).mono hm) hover
  | objectId =>
    rw [ElemType.read] at h hk
    obtain ⟨x, o₁, h1, h2⟩ := outcome_bind_inv h
    cases h2
    refine sized_advances hb hm (fun _ ho h _ => ?_) ho h1 ((Window.keeps_bind_iff h1).mp hk).1
    obtain ⟨-, -, -, hend⟩ := (takeObjectId_ok_iff hb ho).mp h
    omega
  | unit fs =>
    rw [ElemType.read] at h hk
    obtain ⟨vs, o₁, h1, h2⟩ := outcome_bind_inv h
    cases h2
    refine sized_advances hb hm (fun _ _ h _ => ?_) ho h1 ((Window.keeps_bind_iff h1).mp hk).1
    exact le_trans (Nat.le_add_right _ _) (takeUnit_ends deserializeFields_ends h)

/-- The readers that copy their bytes. -/
def copying (env : Env) : Env := { env with inlineBuffers := false }

mutual

theorem ElemType.read_narrows (env : Env) (fuel : Nat) (hb : Addressable buf)
    (hm : m ≤ buf.length) : ∀ (t : ElemType) (current : Value),
    (window buf hm).Narrows (t.read env buf fuel current)
      (t.read (copying env) (buf.take m) fuel current)
  | .scalar t, _ => by
    rw [ElemType.read, ElemType.read]
    exact (readScalar_narrows rfl t hb hm).map _
  | .bytes maxSize, _ => by
    rw [ElemType.read, ElemType.read]
    exact (readBytes_narrows _ maxSize hb hm).map _
  | .objectId, _ => by
    rw [ElemType.read, ElemType.read]
    exact (readObjectId_narrows hb hm).map _
  | .unit fs, current => by
    rw [ElemType.read, ElemType.read]
    exact (readUnit_narrows _ _ hb hm (fun stop => deserializeFields_narrows _ fuel _ stop hb hm
      (findField_alike (fieldParsers_narrows env fuel hb hm fs))) deserializeFields_ends).map _

theorem FieldKind.deserialize_narrows (env : Env) (fuel : Nat) (hb : Addressable buf)
    (hm : m ≤ buf.length) : ∀ (k : FieldKind) (x : FieldValue),
    (window buf hm).Narrows (k.deserialize env buf fuel x)
      (k.deserialize (copying env) (buf.take m) fuel x)
  | .single t, _ => by
    rw [FieldKind.deserialize, FieldKind.deserialize]
    exact (ElemType.read_narrows env fuel hb hm t _).map _
  | .counted t, _ => by
    rw [FieldKind.deserialize, FieldKind.deserialize]
    exact sized_narrows hb hm fun count _ => takeCounted_narrows count hm
      (ElemType.read_narrows env fuel hb hm t _) (ElemType.read_advances env fuel hb hm t _)
  | .unpacked t, _ => by
    rw [FieldKind.deserialize, FieldKind.deserialize]
    exact (ElemType.read_narrows env fuel hb hm t _).map _
  | .packed t, _ => by
    rw [FieldKind.deserialize, FieldKind.deserialize]
    exact sized_narrows hb hm fun length _ => takePacked_narrows fuel length hm
      (readScalar_narrows rfl t hb hm)
  | .map key value, _ => by
    rw [FieldKind.deserialize, FieldKind.deserialize]
    exact (readUnit_narrows _ _ hb hm (fun stop => deserializeFields_narrows _ fuel _ stop hb hm
      (mapItemParser_alike key value hb hm)) deserializeFields_ends).map _

theorem Field.parser_narrows (env : Env) (fuel : Nat) (hb : Addressable buf)
    (hm : m ≤ buf.length) : ∀ (f : Field),
    FieldParser.Narrows (window buf hm) (f.parser env buf fuel)
      (f.parser (copying env) (buf.take m) fuel)
  | .mk _ _ kind => by
    rw [Field.parser, Field.parser]
    exact ⟨rfl, rfl, FieldKind.deserialize_narrows env fuel hb hm kind⟩

/-- **The parsers of all fields** on the window. -/
theorem fieldParsers_narrows (env : Env) (fuel : Nat) (hb : Addressable buf)
    (hm : m ≤ buf.length) : ∀ (fs : List Field),
    List.Forall₂ (FieldParser.Narrows (window buf hm)) (fieldParsers env buf fuel fs)
      (fieldParsers (copying env) (buf.take m) fuel fs)
  | [] => by
    rw [fieldParsers, fieldParsers]
    exact .nil
  | f :: fs => by
    rw [fieldParsers, fieldParsers]
    exact .cons (Field.parser_narrows env fuel hb hm f) (fieldParsers_narrows env fuel hb hm fs)

end

end

/-! ### Nested units -/

/-- What `UnitSer::deserialize` parses: subunits, with the fields they had before, and the items
of maps. -/
inductive Nested
  | unit (fields : List Field) (current : List FieldValue)
  | item (key value : MapType)

namespace Nested

def Fields : Nested → Type
  | unit _ _ => List FieldValue
  | item _ _ => Datum × Datum

/-- `UnitSer::deserialize` -/
def deserialize (env : Env) (buf : List UInt8) (fuel : Nat) : (u : Nested) → Reader u.Fields
  | unit fs current =>
    readUnit (deserializeFields (findField (fieldParsers env buf fuel fs)) (requiredSet fs) buf fuel
      (freshFields fs)) (requiredSet fs) buf current
  | item key value =>
    readUnit (deserializeFields (mapItemParser key value buf) (fun _ => true) buf fuel
      (key.fresh, value.fresh)) (fun _ => true) buf (key.fresh, value.fresh)

variable {buf : List UInt8} {m : Nat}

theorem deserialize_narrows (env : Env) (fuel : Nat) (hb : Addressable buf) (hm : m ≤ buf.length) :
    ∀ u : Nested, (window buf hm).Narrows (u.deserialize env buf fuel)
      (u.deserialize (copying env) (buf.take m) fuel)
  | unit fs current => readUnit_narrows _ current hb hm (fun stop =>
      deserializeFields_narrows _ fuel _ stop hb hm
        (findField_alike (fieldParsers_narrows env fuel hb hm fs))) deserializeFields_ends
  | item key value => readUnit_narrows _ _ hb hm (fun stop =>
      deserializeFields_narrows _ fuel _ stop hb hm (mapItemParser_alike key value hb hm))
        deserializeFields_ends

theorem deserialize_eq (env : Env) (buf : List UInt8) (fuel : Nat) : ∀ u : Nested,
    ∃ f : Nat → Reader u.Fields, u.deserialize env buf fuel = readUint32 buf >>= f ∧
      ∀ {n o x stop}, o ≤ buf.length → (f n).outcome o = .ok (x, stop) →
        o + n ≤ stop ∧ o + n ≤ buf.length
  | unit _ _ => ⟨_, rfl, fun ho h => ⟨takeUnit_ends deserializeFields_ends h, takeUnit_fits ho h⟩⟩
  | item _ _ => ⟨_, rfl, fun ho h => ⟨takeUnit_ends deserializeFields_ends h, takeUnit_fits ho h⟩⟩

/-- A nested unit ends where its size says or behind that, and its size fits the buffer. -/
theorem deserialize_ends {env : Env} {fuel s n o stop : Nat} {u : Nested} {x : u.Fields}
    (hb : Addressable buf) (hs : s ≤ buf.length) (hn : (readUint32 buf).outcome s = .ok (n, o))
    (h : (u.deserialize env buf fuel).outcome s = .ok (x, stop)) :
    s ≤ o ∧ o + n ≤ stop ∧ o + n ≤ buf.length := by
  obtain ⟨hlt, ho, -⟩ := (readUint32_run hb hs).ok hn
  obtain ⟨f, heq, hf⟩ := deserialize_eq env buf fuel u
  rw [heq, outcome_bind_ok hn] at h
  exact ⟨hlt.le, hf ho h⟩

end Nested

/-- The run from `s` ends at `e`, and nothing at `e` or behind it was read. -/
def StaysInside {α : Type} (p : Reader α) (s e : Nat) : Prop :=
  (∃ x, p.outcome s = .ok (x, e)) ∧ ∀ event ∈ p.trace s, event.InBounds e

/-- A unit with a number. -/
def numberUnit : Nested := .unit [.mk 1 false (.single (.scalar (.varInt false .w32)))] [.unset]

def viewing : Env := ⟨true, fun _ => true⟩

end Hatn.Dataunit
