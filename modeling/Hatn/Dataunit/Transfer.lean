import Hatn.Dataunit.Results

/-!
# Which units come back

A unit comes back from its bytes just when each of its set fields is seen as set.
Repeated fields and maps that write a tag for each element or item write nothing when
they are set without any, and repeated units that are not set write no bytes of their own.
-/

namespace Hatn.Dataunit

open Hatn.Common Hatn.Wire Hatn.Wire.Parser

variable {env : Env} {l : List UInt8}

/-- The field comes back from its bytes. -/
def Travels (id : Nat) (k : FieldKind) (v : FieldValue) : Prop :=
  Found id k v ∧ (∀ t, k = .unpacked t → v.elements ≠ []) ∧
    ∀ key value, k = .map key value → v.entries ≠ []

theorem encodeAll_mem {α : Type} {encode : α → Option (List UInt8)} : ∀ {as : List α}
    {l : List UInt8}, encodeAll encode as = some l → ∀ a ∈ as, ∃ x, encode a = some x := by
  intro as
  induction as with
  | nil => intro l _ a ha; cases ha
  | cons b as ih =>
    intro l h a ha
    obtain ⟨x, y, hx, hy, -⟩ := encodeAll_cons h
    rcases List.mem_cons.mp ha with rfl | ha
    · exact ⟨x, hx⟩
    · exact ih hy a ha

theorem requiredSet_of_encode : ∀ {fs : List Field} {vs : List FieldValue} {l : List UInt8},
    encodeFields fs vs = some l → requiredSet fs vs = true := by
  intro fs
  induction fs with
  | nil => intro vs l _; rfl
  | cons f fs ih =>
    intro vs l h
    cases vs with
    | nil => rfl
    | cons v vs =>
      obtain ⟨x, hx, h⟩ := Option.bind_eq_some_iff.mp h
      obtain ⟨y, hy, -⟩ := Option.bind_eq_some_iff.mp h
      rw [requiredSet, ih hy, Bool.and_true, Bool.or_eq_true, Bool.not_eq_true']
      obtain ⟨id, required, kind⟩ := f
      cases v with
      | unset =>
        cases required with
        | true => cases hx
        | false => exact .inl rfl
      | single | repeated | map => exact .inr rfl

theorem elementsSeen_eq_iff {seen : Value → Except Failure Value} : ∀ (vs : List (Option Value)),
    none ∉ vs → ((elementsSeen seen vs).map (fun us => us.map some) = .ok vs ↔
      ∀ v, some v ∈ vs → seen v = .ok v) := by
  intro vs
  induction vs with
  | nil => intro _; simp [elementsSeen, Except.map]
  | cons v vs ih =>
    intro hn
    have ih := ih fun h => hn (List.mem_cons_of_mem _ h)
    cases v with
    | none => exact absurd (by simp) hn
    | some v =>
      have hall : (∀ w, some w ∈ some v :: vs → seen w = .ok w) ↔
          seen v = .ok v ∧ ∀ w, some w ∈ vs → seen w = .ok w := by
        simp [or_imp, forall_and]
      rw [hall, ← ih, elementsSeen]
      cases hu : seen v with
      | error e => exact ⟨fun h => (by cases h), fun h => by cases h.1⟩
      | ok u =>
        cases hus : elementsSeen seen vs with
        | error e => exact ⟨fun h => (by cases h), fun h => by cases h.2⟩
        | ok us =>
          show (Except.ok (((u :: us).map some)) = Except.ok (some v :: vs)) ↔ _
          simp [Except.map]

mutual

theorem ElemType.seen_eq_iff : ∀ {t : ElemType} {v : Value} {l : List UInt8}, t.Holds env v →
    t.EachSet Found v → t.encode v = some l → (t.seen v = .ok v ↔ t.EachSet Travels v)
  | .scalar _, _, _, _, _, _ | .bytes _, _, _, _, _, _ | .objectId, _, _, _, _, _ =>
    ⟨fun _ => trivial, fun _ => rfl⟩
  | .unit _, .datum _, _, hv, _, _ => hv.elim
  | .unit fs, .unit vs, l, hv, hf, he => by
    obtain ⟨x, hx, -⟩ := Option.bind_eq_some_iff.mp he
    rw [ElemType.EachSet, ← fieldsSeen_eq_iff hv hf hx, ElemType.seen]
    cases hus : fieldsSeen fs vs with
    | error e => exact ⟨nofun, nofun⟩
    | ok us =>
      rw [ok_bind]
      constructor
      · intro h
        split at h
        · cases h
          rfl
        · cases h
      · intro h
        cases h
        rw [if_pos (requiredSet_of_encode hx)]

/-- A set field is seen as it is if its elements are and there are some that are seen. -/
theorem FieldKind.seen_eq_iff {id : Nat} : ∀ {k : FieldKind} {v : FieldValue} {l : List UInt8},
    k.Holds env v → Found id k v → k.EachSet Found v → k.encode id v = some l →
    (k.seen v = .ok v ↔ Travels id k v ∧ k.EachSet Travels v)
  | .single t, .single v, l, hv, hf, hs, he => by
    obtain ⟨x, hx, -⟩ := Option.bind_eq_some_iff.mp he
    have ht : Travels id (.single t) (.single v) := ⟨hf, nofun, nofun⟩
    rw [and_iff_right ht, FieldKind.EachSet, ← ElemType.seen_eq_iff hv hs hx, FieldKind.seen]
    cases t.seen v <;> simp [Except.map]
  | .counted t, .repeated vs, l, hv, hf, hs, he => by
    obtain ⟨x, hx, -⟩ := Option.bind_eq_some_iff.mp he
    have ht : Travels id (.counted t) (.repeated vs) := ⟨hf, nofun, nofun⟩
    have hall : (∀ v, some v ∈ vs → t.seen v = .ok v) ↔ ∀ v, some v ∈ vs → t.EachSet Travels v :=
      forall₂_congr fun v hm =>
        have ⟨_, hb⟩ := encodeAll_mem hx (some v) hm
        ElemType.seen_eq_iff (hv.2 v hm) (hs v hm) hb
    rw [and_iff_right ht, FieldKind.EachSet, ← hall, ← elementsSeen_eq_iff vs hf.2,
      FieldKind.seen]
    cases elementsSeen (fun v => t.seen v) vs <;> simp [Except.map]
  | .unpacked t, .repeated vs, l, hv, hf, hs, he => by
    by_cases hnil : vs = []
    · subst hnil
      exact ⟨nofun, fun h => absurd rfl (h.1.2.1 t rfl)⟩
    · have ht : Travels id (.unpacked t) (.repeated vs) := ⟨hf, fun _ _ => hnil, nofun⟩
      have hall : (∀ v, some v ∈ vs → t.seen v = .ok v) ↔ ∀ v, some v ∈ vs → t.EachSet Travels v :=
        forall₂_congr fun v hm =>
          have ⟨_, hb⟩ := encodeAll_mem he (some v) hm
          have ⟨_, hb, _⟩ := Option.map_eq_some_iff.mp hb
          ElemType.seen_eq_iff (hv.2 v hm) (hs v hm) hb
      rw [and_iff_right ht, FieldKind.EachSet, ← hall, ← elementsSeen_eq_iff vs hf.2,
        FieldKind.seen, if_neg (by simpa using hnil)]
      cases elementsSeen (fun v => t.seen v) vs <;> simp [Except.map]
  | .packed t, .repeated vs, l, hv, hf, hs, he =>
    ⟨fun _ => ⟨⟨hf, nofun, nofun⟩, trivial⟩, fun _ => rfl⟩
  | .map key value, .map es, l, hv, hf, hs, he => by
    by_cases hnil : es = []
    · subst hnil
      exact ⟨nofun, fun h => absurd rfl (h.1.2.2 key value rfl)⟩
    · rw [FieldKind.seen, if_neg (by simpa using hnil)]
      exact ⟨fun _ => ⟨⟨hf, nofun, fun _ _ _ => hnil⟩, trivial⟩, fun _ => rfl⟩
  | .single _, .unset, _, _, _, _, he | .single _, .repeated _, _, _, _, _, he
  | .single _, .map _, _, _, _, _, he => nomatch he
  | .counted _, .unset, _, _, _, _, he | .counted _, .single _, _, _, _, _, he
  | .counted _, .map _, _, _, _, _, he => nomatch he
  | .unpacked _, .unset, _, _, _, _, he | .unpacked _, .single _, _, _, _, _, he
  | .unpacked _, .map _, _, _, _, _, he => nomatch he
  | .packed _, .unset, _, _, _, _, he | .packed _, .single _, _, _, _, _, he
  | .packed _, .map _, _, _, _, _, he => nomatch he
  | .map _ _, .unset, _, _, _, _, he | .map _ _, .single _, _, _, _, _, he
  | .map _ _, .repeated _, _, _, _, _, he => nomatch he

theorem Field.seen_eq_iff : ∀ {f : Field} {v : FieldValue} {l : List UInt8}, f.Holds env v →
    f.EachSet Found v → f.encode v = some l → (f.seen v = .ok v ↔ f.EachSet Travels v)
  | .mk id _ kind, .unset, _, _, _, _ =>
    ⟨fun _ => ⟨nofun, kind.eachSet_unset⟩, fun _ => by cases kind <;> rfl⟩
  | .mk id _ kind, .single v, l, hv, hf, he =>
    (FieldKind.seen_eq_iff hv (hf.1 rfl) hf.2 he).trans
      (and_congr_left' ⟨fun h _ => h, fun h => h rfl⟩)
  | .mk id _ kind, .repeated vs, l, hv, hf, he =>
    (FieldKind.seen_eq_iff hv (hf.1 rfl) hf.2 he).trans
      (and_congr_left' ⟨fun h _ => h, fun h => h rfl⟩)
  | .mk id _ kind, .map es, l, hv, hf, he =>
    (FieldKind.seen_eq_iff hv (hf.1 rfl) hf.2 he).trans
      (and_congr_left' ⟨fun h _ => h, fun h => h rfl⟩)

theorem fieldsSeen_eq_iff : ∀ {fs : List Field} {vs : List FieldValue} {l : List UInt8},
    fieldsHold env fs vs → EachSet Found fs vs → encodeFields fs vs = some l →
    (fieldsSeen fs vs = .ok vs ↔ EachSet Travels fs vs)
  | f :: fs, v :: vs, l, hv, hf, he => by
    obtain ⟨x, hx, he⟩ := Option.bind_eq_some_iff.mp he
    obtain ⟨y, hy, -⟩ := Option.bind_eq_some_iff.mp he
    rw [EachSet, ← Field.seen_eq_iff hv.1 hf.1 hx, ← fieldsSeen_eq_iff hv.2 hf.2 hy, fieldsSeen]
    cases hu : f.seen v with
    | error e => exact ⟨nofun, fun h => nomatch h.1⟩
    | ok u =>
      cases hus : fieldsSeen fs vs with
      | error e => exact ⟨nofun, fun h => nomatch h.2⟩
      | ok us =>
        show Except.ok (u :: us) = Except.ok (v :: vs) ↔ _
        simp
  | [], [], _, _, _, _ => ⟨fun _ => trivial, fun _ => rfl⟩
  | [], _ :: _, _, hv, _, _ | _ :: _, [], _, hv, _, _ => hv.elim

end

/-! ### Units that come back -/

/-- A unit type. -/
structure Schema where
  fields : List Field
  uniqueIds : EachUnit UniqueIds fields

/-- A unit of this type. -/
structure Schema.Unit (S : Schema) (env : Env) where
  values : List FieldValue
  holds : fieldsHold env S.fields values

/-- No field of the unit is packed. -/
def NoPacked (fs : List Field) : Prop := ∀ f ∈ fs, ∀ t, f.kind ≠ .packed t

/-- The bytes of a serialized unit, whose number `serialize` returns. -/
structure Serialized {S : Schema} (x : S.Unit env) where
  buf : WireBufSolid
  eq : serialize S.fields x.values = some (buf, (buf.container.length : Int))

theorem Serialized.encode {S : Schema} {x : S.Unit env} (w : Serialized x) :
    encodeFields S.fields x.values = some w.buf.container :=
  serialize_eq w.eq rfl

theorem Serialized.length_lt {S : Schema} {x : S.Unit env} (w : Serialized x) :
    w.buf.container.length < 2 ^ 31 := by
  have hlt := serialize_size_lt w.eq
  omega

/-- **A unit comes back from its bytes**, from all of them, just when its set fields do. -/
theorem deserialize_serialize_iff {S : Schema} (hS : EachUnit NoPacked S.fields) (x : S.Unit env)
    (w : Serialized x) {fuel : Nat} (hf : w.buf.container.length < fuel) :
    (deserialize env S.fields w.buf.container fuel).outcome 0 =
        .ok (x.values, w.buf.container.length) ↔
      EachSet Travels S.fields x.values := by
  have hlen := w.length_lt
  have hreadable : EachSet Found S.fields x.values → EachSet Readable S.fields x.values :=
    EachSet.imp (Q := NoPacked)
      (fun fs hfs f hm v hv => ⟨hv.1, hv.2, fun t ht => absurd ht (hfs f hm t)⟩) hS
  have hseen : EachSet Found S.fields x.values →
      ((deserialize env S.fields w.buf.container fuel).outcome 0 =
        .ok (x.values, w.buf.container.length) ↔ EachSet Travels S.fields x.values) := by
    intro hfound
    rw [outcome_deserialize S.uniqueIds x.holds (hreadable hfound) w.encode hlen hf,
      ← fieldsSeen_eq_iff x.holds hfound w.encode, seen]
    cases hus : fieldsSeen S.fields x.values with
    | error e => exact ⟨nofun, nofun⟩
    | ok us =>
      rw [ok_bind]
      constructor
      · intro h
        split at h
        · cases h
          rfl
        · cases h
      · intro h
        cases h
        rw [if_pos (requiredSet_of_encode w.encode)]
        rfl
  constructor
  · intro h
    exact (hseen (deserialize_yields S.fields 0 _ _ h)).mp h
  · intro h
    have hfound : EachSet Found S.fields x.values :=
      EachSet.imp (Q := NoPacked) (fun _ _ _ _ _ hv => hv.1) hS h
    exact (hseen hfound).mpr h

/-- A number and a repeated unit. -/
def sampleSchema : Schema where
  fields := [.mk 1 true (.single (.scalar (.varInt false .w32))),
    .mk 2 false (.counted (.unit [.mk 1 false (.single (.bytes 0))]))]
  uniqueIds := by simp [EachUnit, fieldsEachUnit, Field.EachUnit, FieldKind.EachUnit,
    ElemType.EachUnit, UniqueIds, Field.id]

def sampleEnv : Env := ⟨false, fun _ => true⟩

def sampleUnit : sampleSchema.Unit sampleEnv where
  values := [.single (.datum (.num 300)),
    .repeated [some (.unit [.single (.datum (.bytes [7]))]), some (.unit [.unset])]]
  holds := by
    refine ⟨⟨by norm_num, by norm_num [Width.bits]⟩, ⟨fun _ => trivial, fun v hv => ?_⟩, trivial⟩
    simp only [List.mem_cons, List.not_mem_nil, or_false, Option.some.injEq] at hv
    rcases hv with rfl | rfl
    · exact ⟨nofun, trivial⟩
    · exact ⟨trivial, trivial⟩

theorem noPacked_sample : EachUnit NoPacked sampleSchema.fields := by
  simp [EachUnit, fieldsEachUnit, Field.EachUnit, FieldKind.EachUnit, ElemType.EachUnit, NoPacked,
    Field.kind, sampleSchema]

def sampleBytes : Serialized sampleUnit where
  buf := ⟨[8, 0xAC, 2, 18, 2, 0x83, 0x80, 0x80, 0x80, 0, 10, 1, 7, 0x80, 0x80, 0x80, 0x80, 0], 18⟩
  eq := by decide +kernel

theorem deserialize_sample :
    (deserialize sampleEnv sampleSchema.fields sampleBytes.buf.container 19).outcome 0 =
      .ok (sampleUnit.values, 18) := by
  refine (deserialize_serialize_iff noPacked_sample sampleUnit sampleBytes (by decide)).mpr ?_
  refine ⟨⟨fun _ => ?_, trivial⟩, ⟨fun _ => ?_, fun v hv => ?_⟩, trivial⟩
  · exact ⟨⟨⟨by norm_num, .inl (by norm_num)⟩, List.not_mem_nil⟩, nofun, nofun⟩
  · exact ⟨⟨⟨by norm_num, .inl (by norm_num)⟩, by simp [FieldValue.elements]⟩, nofun, nofun⟩
  · simp only [List.mem_cons, List.not_mem_nil, or_false, Option.some.injEq] at hv
    rcases hv with rfl | rfl
    · refine ⟨⟨fun _ => ?_, trivial⟩, trivial⟩
      exact ⟨⟨⟨by norm_num, .inl (by norm_num)⟩, List.not_mem_nil⟩, nofun, nofun⟩
    · exact ⟨⟨nofun, trivial⟩, trivial⟩

/-- A repeated unit with one element that is not set. -/
def unsetElement : sampleSchema.Unit sampleEnv where
  values := [.single (.datum (.num 1)), .repeated [none]]
  holds := by
    refine ⟨⟨by norm_num, by norm_num [Width.bits]⟩, ⟨fun _ => trivial, fun v hv => ?_⟩, trivial⟩
    simp at hv

def unsetElementBytes : Serialized unsetElement where
  buf := ⟨[8, 1, 18, 1], 4⟩
  eq := by decide +kernel

/-- The element is counted, but it has no bytes. -/
theorem unsetElement_rejected :
    ¬ ∀ (S : Schema), EachUnit NoPacked S.fields → ∀ (x : S.Unit sampleEnv) (w : Serialized x)
      (fuel : Nat), w.buf.container.length < fuel →
      (deserialize sampleEnv S.fields w.buf.container fuel).outcome 0 =
        .ok (x.values, w.buf.container.length) := by
  intro h
  have h := h sampleSchema noPacked_sample unsetElement unsetElementBytes 5 (by decide)
  have hr : ((deserialize sampleEnv sampleSchema.fields unsetElementBytes.buf.container 5).outcome
      0).map Prod.snd = .error .rejected := by
    decide +kernel
  rw [h] at hr
  cases hr

end Hatn.Dataunit
