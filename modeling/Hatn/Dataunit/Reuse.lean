import Hatn.Dataunit.FieldRounds
import Hatn.Dataunit.Objects

/-!
# Reusing unit objects

What an object was parsed from before must not show after the next parse.  Every parse
starts from the fields of a new object or from reset ones (`start_eq`).  These are the
same but for the time zones of unset time points (`constructFields_scrub`), which a parse
leaves as they are; so `reused_eq_iff` says when two histories can be told apart.
-/

namespace Hatn.Dataunit

open Hatn.Common Hatn.Wire Hatn.Wire.Parser

/-! ### Resets -/

/-- The field after a reset. -/
def FieldKind.restored (k : FieldKind) : FieldObject := k.construct 0

def restoredFields (fs : List Field) : List FieldObject := constructFields 0 fs

/-- The contents that the fields of an element type have. -/
def ElemType.Sound : ElemType → Content → Prop
  | .scalar .dateTime, .dateTime _ => True
  | .scalar .dateTime, _ => False
  | .scalar _, .num _ => True
  | .bytes _, .bytes s => s.Sound
  | .objectId, .oid _ => True
  | _, _ => False

def FieldKind.Sound : FieldKind → FieldObject → Prop
  | .single (.unit _), .subunit _ _ => True
  | .single (.unit _), _ => False
  | .single t, .plain _ c => t.Sound c
  | .counted _, .repeated _ _ => True
  | .unpacked _, .repeated _ _ => True
  | .packed _, .repeated _ _ => True
  | .map _ _, .map _ _ => True
  | _, _ => False

/-- **A reset restores every kind of field**, whatever it held. -/
theorem FieldKind.Sound.reset {k : FieldKind} {x : FieldObject} (hx : k.Sound x) :
    x.reset = k.restored := by
  match k, x, hx with
  | .single (.unit _), .subunit _ _, _ => rfl
  | .single (.scalar .dateTime), .plain _ (.dateTime _), _ => rfl
  | .single (.scalar (.varInt _ _)), .plain _ (.num _), _ => rfl
  | .single (.scalar (.zigZag _)), .plain _ (.num _), _ => rfl
  | .single (.scalar (.fixed32 _)), .plain _ (.num _), _ => rfl
  | .single (.scalar (.fixed64 _)), .plain _ (.num _), _ => rfl
  | .single (.scalar .date), .plain _ (.num _), _ => rfl
  | .single (.scalar .time), .plain _ (.num _), _ => rfl
  | .single (.scalar .dateRange), .plain _ (.num _), _ => rfl
  | .single (.bytes _), .plain _ (.bytes s), hs =>
    show FieldObject.plain false (.bytes s.reset) = _
    rw [ByteStore.Sound.reset hs]
    rfl
  | .single .objectId, .plain _ (.oid _), _ => rfl
  | .counted _, .repeated _ _, _ => rfl
  | .unpacked _, .repeated _ _, _ => rfl
  | .packed _, .repeated _ _, _ => rfl
  | .map _ _, .map _ _, _ => rfl

/-! ### A parse of one field -/

variable {env : ObjectEnv} {buf : List UInt8} {fuel : Nat}

theorem ElemType.readContent_sound {t : ElemType} {c : Content} (hc : t.Sound c) :
    Yields (t.readContent env buf c) t.Sound := by
  cases t with
  | scalar t =>
    cases t <;> exact (Yields.true _).bind fun n _ => Yields.pure trivial
  | bytes maxSize =>
    match c, hc with
    | .bytes s, hs =>
      refine (Yields.true _).bind fun dataSize _ => (Yields.true _).bind fun l _ => Yields.pure ?_
      show ByteStore.Sound (if dataSize = 0 then _ else _)
      split
      · exact ByteStore.Sound.setBuf hs []
      · exact ByteStore.Sound.load hs _ l
  | objectId => exact (Yields.true _).bind fun x _ => Yields.pure trivial
  | unit fs => exact Yields.fail

theorem takeElements_yields {element : Reader ElemObject} {count : Nat} {Q : FieldObject → Prop}
    (hQ : ∀ l, Q (.repeated true l)) : Yields (takeElements element buf count) Q := by
  refine (Yields.true _).bind fun o _ => ?_
  split
  · exact Yields.fail
  · split
    · exact Yields.fail
    · exact (Yields.true _).bind fun l _ => Yields.pure (hQ l)

theorem FieldKind.parse_sound {k : FieldKind} {x : FieldObject} (hx : k.Sound x) :
    Yields (k.parse env buf fuel x) k.Sound := by
  match k, x, hx with
  | .single (.unit _), _, _ => exact (Yields.true _).bind fun u _ => Yields.pure trivial
  | .single (.scalar t), .plain _ c, hc =>
    exact (ElemType.readContent_sound (t := .scalar t) hc).bind fun d hd => Yields.pure hd
  | .single (.bytes m), .plain _ c, hc =>
    exact (ElemType.readContent_sound (t := .bytes m) hc).bind fun d hd => Yields.pure hd
  | .single .objectId, .plain _ c, hc =>
    exact (ElemType.readContent_sound (t := .objectId) hc).bind fun d hd => Yields.pure hd
  | .counted t, _, _ => exact (Yields.true _).bind fun n _ => takeElements_yields fun l => trivial
  | .unpacked t, _, _ => exact (Yields.true _).bind fun e _ => Yields.pure trivial
  | .packed t, _, _ =>
    exact (Yields.true _).bind fun n _ => (Yields.true _).bind fun l _ => Yields.pure trivial
  | .map key value, _, _ => exact (Yields.true _).bind fun e _ => Yields.pure trivial

/-- A field that was parsed is set. -/
theorem FieldKind.parse_isSet (k : FieldKind) (x : FieldObject) :
    Yields (k.parse env buf fuel x) fun y => y.isSet = true := by
  match k with
  | .single (.unit _) | .single (.scalar _) | .single (.bytes _) | .single .objectId
  | .unpacked _ | .map _ _ => exact (Yields.true _).bind fun u _ => Yields.pure rfl
  | .counted t => exact (Yields.true _).bind fun n _ => takeElements_yields fun l => rfl
  | .packed t =>
    exact (Yields.true _).bind fun n _ => (Yields.true _).bind fun l _ => Yields.pure rfl

/-! ### Time zones of unset time points -/

namespace FieldObject

/-- The time zone of an unset time point goes. -/
def scrub : FieldObject → FieldObject
  | plain false (.dateTime (.null _)) => plain false (.dateTime (.null 0))
  | x => x

theorem scrub_eq_self {x : FieldObject}
    (hx : ∀ tz, x = plain false (.dateTime (.null tz)) → tz = 0) : x.scrub = x := by
  unfold scrub
  split
  · rw [hx _ rfl]
  · rfl

theorem scrub_of_isSet {x : FieldObject} (hx : x.isSet = true) : x.scrub = x := by
  match x, hx with
  | plain true _, _ => rfl
  | subunit _ _, _ => rfl
  | repeated _ _, _ => rfl
  | map _ _, _ => rfl

theorem scrub_isSet (x : FieldObject) : x.scrub.isSet = x.isSet := by
  unfold scrub
  split <;> rfl

theorem scrub_content (x : FieldObject) : x.scrub.content.store = x.content.store := by
  unfold scrub
  split <;> rfl

theorem scrub_value (x : FieldObject) : x.scrub.value = x.value := by
  unfold scrub
  split <;> rfl

theorem scrub_elements (x : FieldObject) : x.scrub.elements = x.elements := by
  unfold scrub
  split <;> rfl

theorem scrub_entries (x : FieldObject) : x.scrub.entries = x.entries := by
  unfold scrub
  split <;> rfl

end FieldObject

theorem FieldKind.construct_scrub (tz : Int) (k : FieldKind) :
    (k.construct tz).scrub = k.restored := by
  match k with
  | .single (.unit _) | .single (.bytes _) | .single .objectId | .counted _ | .unpacked _
  | .packed _ | .map _ _ => rfl
  | .single (.scalar t) => cases t <;> rfl

/-- Reset fields are new ones without their time zones. -/
theorem constructFields_scrub (tz : Int) (fs : List Field) :
    (constructFields tz fs).map FieldObject.scrub = restoredFields fs := by
  rw [restoredFields, constructFields, constructFields, List.map_map]
  exact List.map_congr_left fun f _ => f.kind.construct_scrub tz

theorem ElemType.readContent_store (t : ElemType) {c d : Content} (h : c.store = d.store) :
    t.readContent env buf c = t.readContent env buf d := by
  cases t with
  | scalar t => cases t <;> rfl
  | bytes maxSize => simp only [ElemType.readContent, h]
  | objectId => rfl
  | unit fs => rfl

/-- What a parse of a field does does not depend on the time zone. -/
theorem FieldKind.parse_scrub (k : FieldKind) (x : FieldObject) :
    k.parse env buf fuel x.scrub = k.parse env buf fuel x := by
  match k with
  | .single (.unit _) => simp only [FieldKind.parse, FieldObject.scrub_value]
  | .single (.scalar t) =>
    simp only [FieldKind.parse, (ElemType.scalar t).readContent_store x.scrub_content]
  | .single (.bytes m) =>
    simp only [FieldKind.parse, (ElemType.bytes m).readContent_store x.scrub_content]
  | .single .objectId =>
    simp only [FieldKind.parse, ElemType.objectId.readContent_store x.scrub_content]
  | .counted _ => rfl
  | .unpacked _ => simp only [FieldKind.parse, FieldObject.scrub_elements]
  | .packed _ => rfl
  | .map _ _ => simp only [FieldKind.parse, FieldObject.scrub_entries]

/-! ### Rounds -/

theorem objectParsers_eq_map (fs : List Field) :
    objectParsers env buf fuel fs = fs.map (Field.objectParser env buf fuel) := by
  induction fs with
  | nil => rfl
  | cons f fs ih => rw [objectParsers, List.map_cons, ih]

theorem Field.objectParser_eq (f : Field) :
    f.objectParser env buf fuel = ⟨f.id, f.kind.wireType, f.kind.parse env buf fuel⟩ := by
  obtain ⟨id, required, kind⟩ := f
  rfl

/-- The parser that is found parses one of the fields and leaves the others. -/
theorem findObject_some {fs : List Field} {id : Nat} {p : UnitFieldParser (List FieldObject)}
    (hp : findObject (objectParsers env buf fuel fs) id = some p) :
    ∃ i f, fs[i]? = some f ∧ p.fn = fun xs => do
      let v ← f.kind.parse env buf fuel (xs.getD i (.map false []))
      return xs.set i v := by
  obtain ⟨⟨parser, i⟩, hq, rfl⟩ := Option.map_eq_some_iff.mp hp
  have hmem := List.mem_of_find?_eq_some hq
  rw [List.mk_mem_zipIdx_iff_getElem?, objectParsers_eq_map, List.getElem?_map,
    Option.map_eq_some_iff] at hmem
  obtain ⟨f, hf, rfl⟩ := hmem
  refine ⟨i, f, hf, ?_⟩
  rw [f.objectParser_eq]

/-- A sound field whose time point has the time zone `tz` while it is unset. -/
def FieldKind.Kept (tz : Int) (k : FieldKind) (x : FieldObject) : Prop :=
  k.Sound x ∧ ∀ t, x = .plain false (.dateTime t) → t = .null tz

/-- What holds of every field of an object. -/
def EachField (P : FieldKind → FieldObject → Prop) (fs : List Field) (xs : List FieldObject) :
    Prop :=
  xs.length = fs.length ∧
    ∀ (i : Nat) (f : Field) (x : FieldObject), fs[i]? = some f → xs[i]? = some x → P f.kind x

namespace EachField

variable {P Q : FieldKind → FieldObject → Prop} {fs : List Field} {xs : List FieldObject}

theorem mono (h : EachField P fs xs) (hPQ : ∀ k x, P k x → Q k x) : EachField Q fs xs :=
  ⟨h.1, fun i f x hf hx => hPQ _ _ (h.2 i f x hf hx)⟩

theorem set (h : EachField P fs xs) {i : Nat} {f : Field} {y : FieldObject}
    (hf : fs[i]? = some f) (hy : P f.kind y) : EachField P fs (xs.set i y) := by
  refine ⟨by rw [List.length_set, h.1], fun j g x hg hx => ?_⟩
  rw [List.getElem?_set] at hx
  split at hx
  · rename_i hij
    subst hij
    split at hx
    · cases hx
      rw [hf] at hg
      cases hg
      exact hy
    · cases hx
  · exact h.2 j g x hg hx

theorem getD (h : EachField P fs xs) {i : Nat} {f : Field} (hf : fs[i]? = some f)
    (d : FieldObject) : P f.kind (xs.getD i d) := by
  have hi : i < xs.length := by
    rw [h.1]
    exact (List.getElem?_eq_some_iff.mp hf).1
  rw [List.getD_eq_getElem?_getD, List.getElem?_eq_getElem hi, Option.getD_some]
  exact h.2 i f _ hf (List.getElem?_eq_getElem hi)

theorem map {g : FieldKind → FieldObject} (hg : ∀ k, P k (g k)) :
    EachField P fs (fs.map fun f => g f.kind) := by
  refine ⟨List.length_map _, fun i f x hf hx => ?_⟩
  rw [List.getElem?_map, hf, Option.map_some, Option.some.injEq] at hx
  exact hx ▸ hg f.kind

end EachField

theorem FieldKind.kept_construct (tz : Int) (k : FieldKind) : k.Kept tz (k.construct tz) := by
  match k with
  | .single (.unit _) | .single .objectId | .counted _ | .unpacked _ | .packed _ | .map _ _ =>
    exact ⟨trivial, nofun⟩
  | .single (.bytes _) => exact ⟨fun _ => rfl, nofun⟩
  | .single (.scalar .dateTime) =>
    refine ⟨trivial, fun t ht => ?_⟩
    cases ht
    rfl
  | .single (.scalar (.varInt _ _)) | .single (.scalar (.zigZag _))
  | .single (.scalar (.fixed32 _)) | .single (.scalar (.fixed64 _)) | .single (.scalar .date)
  | .single (.scalar .time) | .single (.scalar .dateRange) => exact ⟨trivial, nofun⟩

theorem kept_constructFields (tz : Int) (fs : List Field) :
    EachField (FieldKind.Kept tz) fs (constructFields tz fs) :=
  EachField.map (FieldKind.kept_construct tz)

/-- A round of the field loop on an object. -/
abbrev objectRound (env : ObjectEnv) (buf : List UInt8) (fuel : Nat) (fs : List Field)
    (xs : List FieldObject) : Reader (List FieldObject) :=
  fieldRound (findObject (objectParsers env buf fuel fs)) buf xs

/-- **The step lemma**: rounds keep the fields sound and the time zones of unset ones. -/
theorem objectRound_kept {tz : Int} {fs : List Field} {xs : List FieldObject}
    (hx : EachField (FieldKind.Kept tz) fs xs) :
    Yields (objectRound env buf fuel fs xs) (EachField (FieldKind.Kept tz) fs) := by
  refine yields_fieldRound hx fun tag p _ _ hp _ => ?_
  obtain ⟨i, f, hf, hfn⟩ := findObject_some hp
  rw [hfn]
  refine ((FieldKind.parse_sound (hx.getD hf _).1).and (f.kind.parse_isSet _)).bind
    fun v hv => Yields.pure (hx.set hf ⟨hv.1, fun t ht => ?_⟩)
  rw [ht] at hv
  cases hv.2

/-- A parser that commutes with the scrubbing of fields. -/
def Scrubs (p : List FieldObject → Reader (List FieldObject)) : Prop :=
  ∀ xs o, (p (xs.map FieldObject.scrub)).outcome o =
    ((p xs).outcome o).map (Prod.map (List.map FieldObject.scrub) id)

/-- The parser of one field commutes with scrubbing, as the field it parsed is set. -/
theorem scrubs_field (k : FieldKind) (i : Nat) :
    Scrubs fun xs => do
      let v ← k.parse env buf fuel (xs.getD i (.map false []))
      return xs.set i v := by
  intro xs o
  have hget : (xs.map FieldObject.scrub).getD i (.map false []) =
      (xs.getD i (.map false [])).scrub := by
    rw [List.getD_eq_getElem?_getD, List.getD_eq_getElem?_getD, List.getElem?_map]
    cases xs[i]? <;> rfl
  dsimp only
  rw [hget, FieldKind.parse_scrub]
  cases hp : (k.parse env buf fuel (xs.getD i (.map false []))).outcome o with
  | error e =>
    rw [outcome_bind_error hp, outcome_bind_error hp]
    rfl
  | ok r =>
    obtain ⟨v, o'⟩ := r
    have hv := FieldObject.scrub_of_isSet (k.parse_isSet _ o v o' hp)
    rw [outcome_bind_ok hp, outcome_bind_ok hp, outcome_pure, outcome_pure]
    show _ = Except.ok ((xs.set i v).map FieldObject.scrub, o')
    rw [List.map_set, hv]

theorem objectRound_scrubs (fs : List Field) : Scrubs (objectRound env buf fuel fs) := by
  refine fun xs => image_fieldRound (fun n => ?_) xs
  cases hp : findObject (objectParsers env buf fuel fs) n with
  | none => exact .none
  | some p =>
    obtain ⟨i, f, -, hfn⟩ := findObject_some hp
    refine .some ⟨rfl, fun xs => ?_⟩
    rw [hfn]
    exact scrubs_field f.kind i xs

/-! ### Parses -/

theorem requiredObjects_scrub (fs : List Field) (xs : List FieldObject) :
    requiredObjects fs (xs.map FieldObject.scrub) = requiredObjects fs xs := by
  induction fs generalizing xs with
  | nil => rfl
  | cons f fs ih =>
    cases xs with
    | nil => rfl
    | cons x xs => rw [List.map_cons, requiredObjects, requiredObjects, ih, x.scrub_isSet]

/-- The field loop with its check of the required fields. -/
abbrev objectFields (env : ObjectEnv) (buf : List UInt8) (fuel : Nat) (fs : List Field)
    (xs : List FieldObject) (size : Nat) : Reader (List FieldObject) :=
  deserializeFields (findObject (objectParsers env buf fuel fs)) (requiredObjects fs) buf fuel
    xs size

theorem objectFields_scrubs (fs : List Field) (size : Nat) :
    Scrubs fun xs => objectFields env buf fuel fs xs size :=
  fun xs => image_deserializeFields (objectRound_scrubs fs) (requiredObjects_scrub fs) fuel xs size

theorem objectFields_kept {tz : Int} {fs : List Field} {xs : List FieldObject} (size : Nat)
    (hx : EachField (FieldKind.Kept tz) fs xs) :
    Yields (objectFields env buf fuel fs xs size) (EachField (FieldKind.Kept tz) fs) :=
  yields_deserializeFields (fun _ hy => objectRound_kept hy) hx size

/-- A buffer with its modes. -/
structure WireBuf where
  bytes : List UInt8
  inlineBuffers : Bool
  sharedBuffers : Bool

/-- What is the same for all parses of a process. -/
structure Process where
  calendar : Int → Bool
  defaultTz : Int

def Process.objectEnv (p : Process) (wired : WireBuf) : ObjectEnv where
  inlineBuffers := wired.inlineBuffers
  calendar := p.calendar
  sharedBuffers := wired.sharedBuffers
  defaultTz := p.defaultTz

/-- What a field may hold when its parser fails: a byte array was emptied, and other
contents may have been written in part. -/
inductive FieldObject.Disturbed : FieldObject → FieldObject → Prop
  | same (x : FieldObject) : Disturbed x x
  | num (b b' : Bool) (m n : Int) : Disturbed (.plain b (.num m)) (.plain b' (.num n))
  | dateTime (b b' : Bool) (s t : TimePoint) :
      Disturbed (.plain b (.dateTime s)) (.plain b' (.dateTime t))
  | bytes (b b' : Bool) (s : ByteStore) :
      Disturbed (.plain b (.bytes s)) (.plain b' (.bytes (s.setBuf [])))
  | oid (b b' : Bool) (i j : ObjectId) : Disturbed (.plain b (.oid i)) (.plain b' (.oid j))
  | subunit (b b' : Bool) (u v : Option UnitObject) :
      Disturbed (.subunit b u) (.subunit b' v)
  | repeated (b b' : Bool) (l l' : List ElemObject) :
      Disturbed (.repeated b l) (.repeated b' l')
  | map (b b' : Bool) (l l' : List (Datum × Datum)) : Disturbed (.map b l) (.map b' l')

theorem FieldKind.Sound.disturbed {k : FieldKind} {x y : FieldObject} (hx : k.Sound x)
    (h : x.Disturbed y) : k.Sound y := by
  cases h with
  | same => exact hx
  | num | dateTime | oid =>
    match k, hx with
    | .single (.scalar t), hx => cases t <;> exact hx
    | .single .objectId, hx => exact hx
    | .single (.bytes _), hx => cases hx
    | .single (.unit _), hx => cases hx
  | bytes b b' s =>
    match k, hx with
    | .single (.bytes _), hx => exact ByteStore.Sound.setBuf hx []
    | .single (.scalar t), hx => cases t <;> cases hx
    | .single .objectId, hx => cases hx
    | .single (.unit _), hx => cases hx
  | subunit | repeated | map =>
    match k, hx with
    | .single (.unit _), _ => assumption
    | .single (.scalar t), hx => cases t <;> cases hx
    | .single (.bytes _), hx => cases hx
    | .single .objectId, hx => cases hx
    | .counted _, hx => exact hx
    | .unpacked _, hx => exact hx
    | .packed _, hx => exact hx
    | .map _ _, hx => exact hx

/-- A reset of sound fields, whatever they hold. -/
theorem EachField.reset {fs : List Field} {xs : List FieldObject}
    (hx : EachField FieldKind.Sound fs xs) : xs.map FieldObject.reset = restoredFields fs := by
  apply List.ext_getElem?
  intro i
  rw [restoredFields, constructFields, List.getElem?_map, List.getElem?_map]
  cases hf : fs[i]? with
  | none =>
    have hle : xs.length ≤ i := by
      rw [hx.1]
      exact List.getElem?_eq_none_iff.mp hf
    rw [List.getElem?_eq_none_iff.mpr hle]
    rfl
  | some f =>
    have hlt : i < xs.length := by
      rw [hx.1]
      exact (List.getElem?_eq_some_iff.mp hf).1
    rw [List.getElem?_eq_getElem hlt, Option.map_some, Option.map_some,
      (hx.2 i f _ hf (List.getElem?_eq_getElem hlt)).reset]
    rfl

/-! ### Histories -/

section Histories

variable (p : Process) (fs : List Field) (fuel : Nat)

/-- Fields and offsets that complete rounds reach. -/
inductive RoundsTo (w : WireBuf) (start : List FieldObject) : List FieldObject → Nat → Prop
  | start : RoundsTo w start start 0
  | round {xs ys : List FieldObject} {o o' : Nat} : RoundsTo w start xs o →
      (objectRound (p.objectEnv w) w.bytes fuel fs xs).outcome o = .ok (ys, o') →
      RoundsTo w start ys o'

/-- A run of `visitors::deserialize` on an object. -/
def parseRun (u : UnitObject) (w : WireBuf) : Except Failure (UnitObject × Nat) :=
  (parseObject (objectParsers (p.objectEnv w) w.bytes fuel fs) fs w.bytes fuel u
    w.bytes.length).outcome 0

/-- A parse of a buffer into an object, with its result.  One that is rejected ends with a
reset (`cleanup`), one that throws does not. -/
inductive Parse : UnitObject → WireBuf → UnitObject → Bool → Prop
  | success {u v : UnitObject} {w : WireBuf} {o : Nat} : parseRun p fs fuel u w = .ok (v, o) →
      Parse u w v true
  | rejected {u : UnitObject} {w : WireBuf} {xs ys : List FieldObject} {o : Nat} {e : Failure} :
      parseRun p fs fuel u w = .error e → e = .rejected ∨ e = .outOfBounds →
      RoundsTo p fs fuel w (u.reset true).fields xs o →
      List.Forall₂ FieldObject.Disturbed xs ys →
      Parse u w ((UnitObject.mk false ys).reset false) false
  | thrown {u : UnitObject} {w : WireBuf} {xs ys : List FieldObject} {o : Nat} {e : Failure} :
      parseRun p fs fuel u w = .error e → e = .thrown ∨ e = .outOfBounds →
      RoundsTo p fs fuel w (u.reset true).fields xs o →
      List.Forall₂ FieldObject.Disturbed xs ys → Parse u w (.mk false ys) false

/-- Objects after parses of the buffers in turn, each of which succeeded or failed. -/
inductive History : List WireBuf → UnitObject → Prop
  | new : History [] (.construct p.defaultTz fs)
  | parse {ws : List WireBuf} {u v : UnitObject} {w : WireBuf} {ok : Bool} : History ws u →
      Parse p fs fuel u w v ok → History (ws ++ [w]) v

/-- The fields that the next parse starts from. -/
def startFields (ws : List WireBuf) : List FieldObject :=
  if ws = [] then constructFields p.defaultTz fs else restoredFields fs

end Histories

section

variable {p : Process} {fs : List Field}

theorem parseRun_ok {u v : UnitObject} {w : WireBuf} {o : Nat}
    (h : parseRun p fs fuel u w = .ok (v, o)) :
    ∃ zs, v = .mk false zs ∧ (objectFields (p.objectEnv w) w.bytes fuel fs (u.reset true).fields
      w.bytes.length).outcome 0 = .ok (zs, o) := by
  obtain ⟨zs, o', hz, hv⟩ := outcome_bind_inv h
  rw [outcome_pure, Except.ok.injEq, Prod.mk.injEq] at hv
  obtain ⟨rfl, rfl⟩ := hv
  exact ⟨zs, rfl, hz⟩

theorem Parse.fields {u v : UnitObject} {w : WireBuf} (h : Parse p fs fuel u w v true) :
    ∃ zs o, v = .mk false zs ∧ (objectFields (p.objectEnv w) w.bytes fuel fs (u.reset true).fields
      w.bytes.length).outcome 0 = .ok (zs, o) := by
  cases h with
  | success hr =>
    obtain ⟨zs, hv, hz⟩ := parseRun_ok hr
    exact ⟨zs, _, hv, hz⟩

theorem sound_of_kept {tz : Int} {xs : List FieldObject}
    (hx : EachField (FieldKind.Kept tz) fs xs) : EachField FieldKind.Sound fs xs :=
  hx.mono fun _ _ h => h.1

theorem RoundsTo.kept {tz : Int} {w : WireBuf} {start xs : List FieldObject} {o : Nat}
    (hs : EachField (FieldKind.Kept tz) fs start) (h : RoundsTo p fs fuel w start xs o) :
    EachField (FieldKind.Kept tz) fs xs := by
  induction h with
  | start => exact hs
  | round _ hr ih => exact objectRound_kept ih _ _ _ hr

theorem EachField.disturbed {xs ys : List FieldObject} (hx : EachField FieldKind.Sound fs xs)
    (h : List.Forall₂ FieldObject.Disturbed xs ys) : EachField FieldKind.Sound fs ys := by
  refine ⟨h.length_eq ▸ hx.1, fun i f y hf hy => ?_⟩
  obtain ⟨hi, rfl⟩ := List.getElem?_eq_some_iff.mp hy
  have hi' : i < xs.length := h.length_eq ▸ hi
  exact (hx.2 i f _ hf (List.getElem?_eq_getElem hi')).disturbed (h.get hi' hi)

theorem kept_startFields (p : Process) (fs : List Field) (ws : List WireBuf) :
    ∃ tz, EachField (FieldKind.Kept tz) fs (startFields p fs ws) := by
  rw [startFields]
  split
  · exact ⟨_, kept_constructFields _ fs⟩
  · exact ⟨_, kept_constructFields 0 fs⟩

/-- **The run lemma**: after any history a parse starts from the fields of a new object or
from reset ones. -/
theorem History.start_eq {ws : List WireBuf} {u : UnitObject} (h : History p fs fuel ws u) :
    (u.reset true).fields = startFields p fs ws := by
  induction h with
  | new => rfl
  | @parse ws u v w ok _ hp ih =>
    rw [startFields, if_neg (by simp)]
    obtain ⟨tz, hk⟩ := kept_startFields p fs ws
    rw [← ih] at hk
    cases hp with
    | success hr =>
      obtain ⟨zs, rfl, hz⟩ := parseRun_ok hr
      exact (sound_of_kept (objectFields_kept _ hk _ _ _ hz)).reset
    | rejected _ _ hr hd => exact ((sound_of_kept (hr.kept hk)).disturbed hd).reset
    | thrown _ _ hr hd => exact ((sound_of_kept (hr.kept hk)).disturbed hd).reset

/-- The buffer has a value for each time point of the unit. -/
def SetsTimePoints (p : Process) (fs : List Field) (fuel : Nat) (w : WireBuf) : Prop :=
  ∀ zs o, (objectFields (p.objectEnv w) w.bytes fuel fs (restoredFields fs)
    w.bytes.length).outcome 0 = .ok (zs, o) → ∀ x ∈ zs, ∀ t, x ≠ .plain false (.dateTime t)

/-- The parse of a buffer into new fields and the one into reset fields differ in the time
zones of unset time points only. -/
theorem scrub_of_parse {w : WireBuf} {xs zs : List FieldObject} {o o' : Nat}
    (hx : (objectFields (p.objectEnv w) w.bytes fuel fs (constructFields p.defaultTz fs)
      w.bytes.length).outcome 0 = .ok (xs, o))
    (hz : (objectFields (p.objectEnv w) w.bytes fuel fs (restoredFields fs)
      w.bytes.length).outcome 0 = .ok (zs, o')) : zs = xs.map FieldObject.scrub := by
  have h : (objectFields (p.objectEnv w) w.bytes fuel fs
      ((constructFields p.defaultTz fs).map FieldObject.scrub) w.bytes.length).outcome 0 = _ :=
    objectFields_scrubs fs w.bytes.length (constructFields p.defaultTz fs) 0
  rw [constructFields_scrub, hx, hz] at h
  cases h
  rfl

/-- **Both ways of starting give the same fields** if there is no time zone by default, or
no time point is left unset. -/
theorem parse_eq_iff {w : WireBuf} {xs zs : List FieldObject} {o o' : Nat}
    (hx : (objectFields (p.objectEnv w) w.bytes fuel fs (constructFields p.defaultTz fs)
      w.bytes.length).outcome 0 = .ok (xs, o))
    (hz : (objectFields (p.objectEnv w) w.bytes fuel fs (restoredFields fs)
      w.bytes.length).outcome 0 = .ok (zs, o')) :
    xs = zs ↔ p.defaultTz = 0 ∨ SetsTimePoints p fs fuel w := by
  have hs := scrub_of_parse hx hz
  have hk := objectFields_kept _ (kept_constructFields p.defaultTz fs) _ _ _ hx
  have hzone : ∀ x ∈ xs, ∀ t, x = .plain false (.dateTime t) → t = .null p.defaultTz := by
    intro x hmem
    obtain ⟨i, hi, rfl⟩ := List.getElem_of_mem hmem
    have hf : i < fs.length := hk.1 ▸ hi
    exact (hk.2 i _ _ (List.getElem?_eq_getElem hf) (List.getElem?_eq_getElem hi)).2
  constructor
  · intro h
    by_contra hn
    push Not at hn
    obtain ⟨htz, hset⟩ := hn
    refine hset fun zs' o'' hz' x hmem t ht => htz ?_
    rw [hz] at hz'
    cases hz'
    have hnull := hzone x (h ▸ hmem) t ht
    have hmap : xs.map FieldObject.scrub = xs.map id := by rw [← hs, ← h, List.map_id]
    have hfix : x.scrub = x := List.map_inj_left.mp hmap x (h ▸ hmem)
    rw [ht, hnull] at hfix
    simpa [FieldObject.scrub, eq_comm] using hfix
  · intro h
    have hfix : ∀ x ∈ xs, x.scrub = id x := by
      intro x hmem
      refine FieldObject.scrub_eq_self fun tz ht => ?_
      obtain h0 | hset := h
      · have hnull := hzone x hmem _ ht
        rw [TimePoint.null.injEq] at hnull
        rw [hnull, h0]
      · refine absurd ?_ (hset zs o' hz x.scrub (hs ▸ List.mem_map_of_mem hmem) (.null 0))
        rw [ht]
        rfl
    rw [hs, List.map_congr_left hfix, List.map_id]

/-- **Two objects that parsed the same buffer last are the same** if and only if there is no
time zone by default, both were new before or neither was, or the buffer has a value for
each time point. -/
theorem reused_eq_iff {ws ws' : List WireBuf} {u u' v v' : UnitObject} {w : WireBuf}
    (h : History p fs fuel ws u) (h' : History p fs fuel ws' u')
    (hv : Parse p fs fuel u w v true) (hv' : Parse p fs fuel u' w v' true) :
    v = v' ↔ p.defaultTz = 0 ∨ (ws = [] ↔ ws' = []) ∨ SetsTimePoints p fs fuel w := by
  obtain ⟨xs, o, rfl, hx⟩ := hv.fields
  obtain ⟨ys, o', rfl, hy⟩ := hv'.fields
  rw [h.start_eq, startFields] at hx
  rw [h'.start_eq, startFields] at hy
  have hinj : UnitObject.mk false xs = UnitObject.mk false ys ↔ xs = ys := by
    rw [UnitObject.mk.injEq]
    exact and_iff_right rfl
  rw [hinj]
  by_cases hw : ws = []
  · by_cases hw' : ws' = []
    · rw [if_pos hw] at hx
      rw [if_pos hw', hx] at hy
      cases hy
      simp [hw, hw']
    · rw [if_pos hw] at hx
      rw [if_neg hw'] at hy
      rw [parse_eq_iff hx hy]
      simp [hw, hw']
  · by_cases hw' : ws' = []
    · rw [if_neg hw] at hx
      rw [if_pos hw'] at hy
      rw [eq_comm, parse_eq_iff hy hx]
      simp [hw, hw']
    · rw [if_neg hw] at hx
      rw [if_neg hw', hx] at hy
      cases hy
      simp [hw, hw']

/-- Objects that parsed the same buffer last are the same, whatever came before. -/
def LeaksNothing (p : Process) (fs : List Field) (fuel : Nat) : Prop :=
  ∀ ws ws' u u' v v' w, History p fs fuel ws u → History p fs fuel ws' u' →
    Parse p fs fuel u w v true → Parse p fs fuel u' w v' true → v = v'

/-- A unit with a time point. -/
def stamped : List Field := [.mk 1 false (.single (.scalar .dateTime))]

def inUtcPlusOne : Process := ⟨fun _ => true, 60⟩

def noBytes : WireBuf := ⟨[], false, false⟩

/-- A buffer without fields, parsed once and twice. -/
theorem not_leaksNothing_stamped : ¬ LeaksNothing inUtcPlusOne stamped 1 := by
  intro h
  have h₁ : Parse inUtcPlusOne stamped 1 (.construct 60 stamped) noBytes
      (.mk false [.plain false (.dateTime (.null 60))]) true := .success (o := 0) rfl
  have h₂ : Parse inUtcPlusOne stamped 1 (.mk false [.plain false (.dateTime (.null 60))]) noBytes
      (.mk false [.plain false (.dateTime (.null 0))]) true := .success (o := 0) rfl
  have heq := h [] [noBytes] _ _ _ _ noBytes .new (.parse .new h₁) h₁ h₂
  simp at heq

/-- Without a default time zone the two histories end alike. -/
theorem reused_eq_utc :
    UnitObject.mk false [.plain false (.dateTime (.null 0))] =
        UnitObject.mk false [.plain false (.dateTime (.null 0))] ↔
      (0 : Int) = 0 ∨ (([] : List WireBuf) = [] ↔ [noBytes] = []) ∨
        SetsTimePoints ⟨fun _ => true, 0⟩ stamped 1 noBytes := by
  have h₁ : Parse ⟨fun _ => true, 0⟩ stamped 1 (.construct 0 stamped) noBytes
      (.mk false [.plain false (.dateTime (.null 0))]) true := .success (o := 0) rfl
  have h₂ : Parse ⟨fun _ => true, 0⟩ stamped 1 (.mk false [.plain false (.dateTime (.null 0))])
      noBytes (.mk false [.plain false (.dateTime (.null 0))]) true := .success (o := 0) rfl
  exact reused_eq_iff .new (.parse .new h₁) h₁ h₂

end

end Hatn.Dataunit
