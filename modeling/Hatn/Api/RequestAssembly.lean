import Hatn.Api.ClientRequest
import Hatn.Dataunit.Results

/-!
# Assembled requests as the server reads them

The buffers of a request are parts of one request unit that stand in an order of their own.  Each
part is taken by its field, so the order does not matter.  Sizes are `int` numbers in the readers:
from 2^31 bytes on the first tag is not read any more.
-/

namespace Hatn.Api.Client

open Hatn.Common Hatn.Dataunit Hatn.Wire Hatn.Wire.Parser

variable {fuel : Nat} {env : Env}

theorem uniqueIds_auth : UniqueIds authFields := by
  rw [UniqueIds]
  decide

theorem uniqueIds_request : UniqueIds requestFields := by
  rw [UniqueIds]
  decide

/-- A value without subunits: one datum, or none. -/
def Plain (v : FieldValue) : Prop := v = .unset ∨ ∃ d, v = .single (.datum d)

theorem Plain.seen {v : FieldValue} (hv : Plain v) {f : Dataunit.Field} {t : ElemType}
    (hk : f.kind = .single t) : f.seen v = .ok v := by
  obtain ⟨id, required, k⟩ := f
  obtain rfl : k = .single t := hk
  obtain rfl | ⟨d, rfl⟩ := hv
  · rfl
  · cases t <;> rfl

theorem Plain.readable {v : FieldValue} (hv : Plain v) {f : Dataunit.Field} {t : ElemType}
    (hk : f.kind = .single t) (hid : 0 < f.id ∧ f.id < 2 ^ 29) : f.EachSet Readable v := by
  obtain ⟨id, required, k⟩ := f
  obtain rfl : k = .single t := hk
  have hreadable : Readable id (.single t) v := by
    refine ⟨⟨hid.2, .inl (Nat.ne_of_gt hid.1)⟩, ?_, nofun⟩
    obtain rfl | ⟨d, rfl⟩ := hv <;> exact List.not_mem_nil
  refine ⟨fun _ => hreadable, ?_⟩
  obtain rfl | ⟨d, rfl⟩ := hv
  · trivial
  · cases t <;> trivial

/-- Fields of one element each, with ids that tags can have. -/
def SingleFields (fs : List Dataunit.Field) : Prop :=
  ∀ f ∈ fs, (∃ t, f.kind = .single t) ∧ 0 < f.id ∧ f.id < 2 ^ 29

theorem SingleFields.seen : ∀ {fs : List Dataunit.Field} {vs : List FieldValue},
    SingleFields fs → (∀ v ∈ vs, Plain v) → fs.length = vs.length → fieldsSeen fs vs = .ok vs := by
  intro fs
  induction fs with
  | nil =>
    intro vs _ _ hl
    obtain rfl := List.eq_nil_of_length_eq_zero hl.symm
    rfl
  | cons f fs ih =>
    intro vs hf hv hl
    cases vs with
    | nil => cases hl
    | cons v vs =>
      obtain ⟨⟨t, hk⟩, -⟩ := hf f List.mem_cons_self
      rw [fieldsSeen, (hv v List.mem_cons_self).seen hk,
        ih (fun g hg => hf g (List.mem_cons_of_mem _ hg))
          (fun w hw => hv w (List.mem_cons_of_mem _ hw)) (Nat.succ.inj hl)]
      rfl

theorem SingleFields.readable : ∀ {fs : List Dataunit.Field} {vs : List FieldValue},
    SingleFields fs → (∀ v ∈ vs, Plain v) → EachSet Readable fs vs := by
  intro fs
  induction fs with
  | nil => exact fun _ _ => trivial
  | cons f fs ih =>
    intro vs hf hv
    cases vs with
    | nil => trivial
    | cons v vs =>
      obtain ⟨⟨t, hk⟩, hid⟩ := hf f List.mem_cons_self
      exact ⟨(hv v List.mem_cons_self).readable hk hid,
        ih (fun g hg => hf g (List.mem_cons_of_mem _ hg))
          fun w hw => hv w (List.mem_cons_of_mem _ hw)⟩

/-- Numbers of 32 bits are typed. -/
theorem uint32Value_holds (env : Env) (n : UInt32) :
    (FieldKind.single (.scalar (.varInt false .w32))).Holds env (uint32Value n) :=
  ⟨Int.natCast_nonneg _, by exact_mod_cast n.toNat_lt⟩

theorem fixedString_eq {length : Nat} {l : Bytes} {v : FieldValue}
    (h : fixedString length l = some v) : v = bytesValue l ∧ l.length ≤ length := by
  rw [fixedString] at h
  split at h
  · cases h
  · cases h
    exact ⟨rfl, by omega⟩

section Headers

/-- The content of a header is kept as bytes. -/
theorem content_group (fuel : Nat) (env : Env) (content : Option DataUnit) {x : Bytes}
    (h : (contentField content).encode (contentValue content) = some x) (hx : x.length < 2 ^ 31) :
    ∃ v ps, receivedContent content = some v ∧
      FieldGroup fuel env authFields [.mk 3 false (.single (.bytes 0))] [v] x ps := by
  cases content with
  | none =>
    obtain rfl : [] = x := Option.some.inj h
    exact ⟨.unset, [], rfl, .unset _⟩
  | some u =>
    obtain ⟨y, hy, he⟩ := Option.bind_eq_some_iff.mp h
    obtain ⟨l, hl, hb⟩ := Option.bind_eq_some_iff.mp hy
    cases hb
    cases he
    have hlt : l.length < 2 ^ 31 := by
      rw [List.length_append, unitBytes, List.length_append] at hx
      omega
    have hf : Dataunit.Field.mk 3 false (.single (.bytes 0)) ∈ authFields := by
      simp [authFields]
    exact ⟨bytesValue l, _, congrArg (Option.map bytesValue) hl,
      .single (taken_bytes uniqueIds_auth hf rfl ⟨by decide, .inl (by decide)⟩ hlt)⟩

/-- The protocol of a header with its version. -/
theorem protocol_group (fuel : Nat) (env : Env) {a : AuthHeader} {x : Bytes} (hp : a.protocol.length ≤ 8)
    (h : encodeFields authProtocolFields [bytesValue a.protocol, uint32Value a.protocolVersion] =
      some x) (hx : x.length < 2 ^ 31) :
    ∃ ps, FieldGroup fuel env authFields authProtocolFields
      [bytesValue a.protocol, uint32Value a.protocolVersion] x ps := by
  have hhold : fieldsHold env authProtocolFields
      [bytesValue a.protocol, uint32Value a.protocolVersion] :=
    ⟨fun _ => hp, uint32Value_holds env _, trivial⟩
  have hsingle : SingleFields authProtocolFields := by
    simp [SingleFields, authProtocolFields, Field.kind, Field.id]
  have hplain : ∀ v ∈ [bytesValue a.protocol, uint32Value a.protocolVersion], Plain v := by
    simp [Plain, bytesValue, uint32Value]
  exact FieldGroup.of_encode uniqueIds_auth (fun f hf => List.mem_append_left _ hf)
    ⟨trivial, trivial, trivial⟩ hhold (hsingle.readable hplain) (hsingle.seen hplain rfl) h hx

/-- **A header is read by its field.** -/
theorem header_taken {f : Dataunit.Field} (hf : f ∈ requestFields)
    (hk : f.kind = .single (.unit authFields)) (ht : TagFits f.id .withLength) {a : AuthHeader}
    {x : Bytes} (h : serializeAuthHeader f.id a = some x) (hx : x.length < 2 ^ 31) :
    ∃ v, a.received = some v ∧ Part.Taken fuel env requestFields ⟨f.id, .ok v, x⟩ := by
  obtain ⟨protocol, hp, h⟩ := Option.bind_eq_some_iff.mp h
  obtain ⟨⟨w, n⟩, hw, he⟩ := Option.bind_eq_some_iff.mp h
  cases he
  obtain ⟨rfl, hle⟩ := fixedString_eq hp
  obtain ⟨l, hl, hbytes⟩ := serializeAsSubunit_eq hw hx
  have hlt : l.length < 2 ^ 31 := by
    rw [hbytes, List.length_append, unitBytes, List.length_append] at hx
    omega
  have hsplit : encodeFields (authProtocolFields ++ [contentField a.content])
      ([bytesValue a.protocol, uint32Value a.protocolVersion] ++ [contentValue a.content]) =
      some l := hl
  obtain ⟨y, z, hy, hz, rfl⟩ := encodeFields_append rfl hsplit
  obtain ⟨z, _, hcontent, hnil, rfl⟩ := encodeFields_cons hz
  obtain rfl : [] = _ := Option.some.inj hnil
  rw [List.append_nil] at hlt hbytes
  have hlen : (y ++ z).length = y.length + z.length := List.length_append
  obtain ⟨ps, hps⟩ := protocol_group fuel env hle hy (by omega)
  obtain ⟨v, qs, hv, hqs⟩ := content_group fuel env a.content hcontent (by omega)
  have hrounds := (hps.append hqs uniqueIds_auth).rounds uniqueIds_auth
  refine ⟨.single (.unit [bytesValue a.protocol, uint32Value a.protocolVersion, v]), ?_, ?_⟩
  · rw [AuthHeader.received, hv]
    rfl
  · rw [hbytes]
    exact taken_subunit uniqueIds_request hf hk ht hrounds rfl hlt

/-- The header of a session or of a method, or none. -/
theorem header_group {f : Dataunit.Field} (hf : f ∈ requestFields)
    (hk : f.kind = .single (.unit authFields)) (ht : TagFits f.id .withLength)
    {a : Option AuthHeader} {x : Option Bytes} (h : header f.id a = some x)
    (hx : x.toList.flatten.length < 2 ^ 31) (fuel : Nat) (env : Env) :
    ∃ v ps, receivedHeader a = some v ∧
      FieldGroup fuel env requestFields [f] [v] x.toList.flatten ps := by
  cases a with
  | none =>
    cases h
    exact ⟨.unset, [], rfl, .unset _⟩
  | some a =>
    obtain ⟨y, hy, rfl⟩ := Option.map_eq_some_iff.mp h
    have hflat : (some y).toList.flatten = y := List.append_nil y
    rw [hflat] at hx ⊢
    obtain ⟨v, hv, htaken⟩ := header_taken hf hk ht hy hx
    exact ⟨v, _, hv, .single htaken⟩

end Headers

section Rest

/-- The fields that `Request::serialize` sets, and those that nobody sets. -/
def restFields : List Dataunit.Field :=
  [.mk 2 true (.single .objectId), .mk 3 true (.single (.bytes 16)),
    .mk 4 false (.single (.scalar (.varInt false .w32))), .mk 5 true (.single (.bytes 32)),
    .mk 7 false (.single (.bytes 0)), .mk 8 false (.single (.bytes 0)),
    .mk 10 false (.single (.bytes 0)), .mk 11 false (.single (.bytes 16)),
    .mk 12 false (.single (.bytes 32)), .mk 50 false (.single (.unit proxyRequestFields))]

/-- The values that `Request::serialize` sets. -/
structure RestValues where
  service : Bytes
  serviceVersion : FieldValue
  method : Bytes
  topic : FieldValue
  typeName : Bytes
  tenancy : FieldValue

namespace RestValues

def values (v : RestValues) (id : ObjectId) : List FieldValue :=
  [oidValue id, bytesValue v.service, v.serviceVersion, bytesValue v.method, v.topic,
    bytesValue v.typeName, .unset, .unset, v.tenancy, .unset]

/-- `m_unit` -/
def unit (v : RestValues) (id : ObjectId) : List FieldValue :=
  [.unset, oidValue id, bytesValue v.service, v.serviceVersion, bytesValue v.method, .unset,
    v.topic, bytesValue v.typeName, .unset, .unset, .unset, v.tenancy, .unset]

/-- Each value is unset or one that its field can hold. -/
structure Typed (v : RestValues) : Prop where
  service : v.service.length ≤ 16
  serviceVersion : v.serviceVersion = .unset ∨ ∃ n, v.serviceVersion = uint32Value n
  method : v.method.length ≤ 32
  topic : v.topic = .unset ∨ ∃ l, v.topic = bytesValue l
  tenancy : v.tenancy = .unset ∨ ∃ l : Bytes, v.tenancy = bytesValue l ∧ l.length ≤ 32

theorem encode_unit (v : RestValues) (id : ObjectId) :
    encodeFields requestFields (v.unit id) = encodeFields restFields (v.values id) := by
  have hskip : ∀ (i : Nat) (k : FieldKind) (fs : List Dataunit.Field) (vs : List FieldValue),
      encodeFields (.mk i false k :: fs) (.unset :: vs) = encodeFields fs vs := by
    intro i k fs vs
    rw [encodeFields, Field.encode]
    cases encodeFields fs vs <;> rfl
  have hcons : ∀ {f : Dataunit.Field} {u : FieldValue} {fs gs : List Dataunit.Field}
      {vs us : List FieldValue}, encodeFields fs vs = encodeFields gs us →
      encodeFields (f :: fs) (u :: vs) = encodeFields (f :: gs) (u :: us) := by
    intro f u fs gs vs us h
    rw [encodeFields, encodeFields, h]
  refine (hskip 1 _ _ _).trans (hcons (hcons (hcons (hcons ?_))))
  refine (hskip 6 _ _ _).trans (hcons (hcons ?_))
  exact hskip 9 _ _ _

theorem holds {v : RestValues} (hv : v.Typed) {id : ObjectId} (hid : id.Fits) :
    fieldsHold env restFields (v.values id) := by
  refine ⟨hid, fun _ => hv.service, ?_, fun _ => hv.method, ?_, nofun, trivial, trivial, ?_,
    trivial, trivial⟩
  · obtain h | ⟨n, h⟩ := hv.serviceVersion
    · rw [h]
      trivial
    · rw [h]
      exact uint32Value_holds env n
  · obtain h | ⟨l, h⟩ := hv.topic
    · rw [h]
      trivial
    · rw [h]
      exact nofun
  · obtain h | ⟨l, h, hl⟩ := hv.tenancy
    · rw [h]
      trivial
    · rw [h]
      exact fun _ => hl

theorem plain {v : RestValues} (hv : v.Typed) (id : ObjectId) : ∀ u ∈ v.values id, Plain u := by
  have hversion : Plain v.serviceVersion := hv.serviceVersion.imp_right fun ⟨_, h⟩ => ⟨_, h⟩
  have htopic : Plain v.topic := hv.topic.imp_right fun ⟨_, h⟩ => ⟨_, h⟩
  have htenancy : Plain v.tenancy := hv.tenancy.imp_right fun ⟨_, h, _⟩ => ⟨_, h⟩
  have hunset : Plain .unset := .inl rfl
  have hsingle : ∀ d, Plain (.single (.datum d)) := fun d => .inr ⟨d, rfl⟩
  simp only [values, List.forall_mem_cons, oidValue, bytesValue, hsingle, hunset, hversion, htopic,
    htenancy, true_and]
  exact fun _ h => absurd h List.not_mem_nil

/-- **The rest of the request unit** is read by its fields. -/
theorem group {v : RestValues} (hv : v.Typed) {id : ObjectId} (hid : id.Fits) {x : Bytes}
    (h : encodeFields requestFields (v.unit id) = some x) (hx : x.length < 2 ^ 31) (fuel : Nat)
    (env : Env) : ∃ ps, FieldGroup fuel env requestFields restFields (v.values id) x ps := by
  have hsingle : SingleFields restFields := by
    simp [SingleFields, restFields, Field.kind, Field.id]
  have hsub : ∀ f ∈ restFields, f ∈ requestFields := by
    simp [restFields, requestFields]
  have hproxy : UniqueIds proxyRequestFields := by
    rw [UniqueIds]
    decide
  have hunits : fieldsEachUnit UniqueIds restFields :=
    ⟨trivial, trivial, trivial, trivial, trivial, trivial, trivial, trivial, trivial,
      ⟨hproxy, trivial, trivial, trivial⟩, trivial⟩
  rw [encode_unit] at h
  exact FieldGroup.of_encode uniqueIds_request hsub hunits (holds hv hid)
    (hsingle.readable (plain hv id)) (hsingle.seen (plain hv id) rfl) h hx

end RestValues

end Rest

section Client

/-- The unit of the request is the one with these values, and its bytes are in the buffer. -/
structure Request.Written (r : Request) (v : RestValues) (id : ObjectId) : Prop where
  unit : r.unit = some (v.unit id)
  data : ∃ w n, Dataunit.serialize requestFields (v.unit id) = some (w, n) ∧
    r.requestData = w.container

/-- What the steps of a request leave alone. -/
structure Request.Same (r s : Request) : Prop where
  message : s.message = r.message
  session : s.session = r.session
  methodAuth : s.methodAuth = r.methodAuth

theorem write_written {r s : Request} {v : RestValues} {id : ObjectId} {n : Int}
    (h : r.write (v.unit id) = some (s, n)) : s.Written v id ∧ r.Same s := by
  obtain ⟨⟨w, m⟩, hw, he⟩ := Option.bind_eq_some_iff.mp h
  cases he
  exact ⟨⟨rfl, w, n, hw, rfl⟩, rfl, rfl, rfl⟩

theorem regenId_written {r s : Request} {v : RestValues} {id id' : ObjectId}
    (hr : r.Written v id) (h : r.regenId id' = some s) : s.Written v id' ∧ r.Same s := by
  rw [Request.regenId, hr.unit] at h
  obtain ⟨⟨t, n⟩, ht, he⟩ := Option.bind_eq_some_iff.mp h
  cases he
  exact write_written ht

theorem regenIds_written : ∀ {ids : List ObjectId} {r s : Request} {v : RestValues}
    {id : ObjectId}, r.Written v id → r.regenIds ids = some s →
    s.Written v (ids.getLastD id) ∧ r.Same s := by
  intro ids
  induction ids with
  | nil =>
    intro r s v id hr h
    cases h
    exact ⟨hr, rfl, rfl, rfl⟩
  | cons id' ids ih =>
    intro r s v id hr h
    obtain ⟨t, ht, h⟩ := Option.bind_eq_some_iff.mp h
    obtain ⟨hw, hsame⟩ := regenId_written hr ht
    obtain ⟨hw', hsame'⟩ := ih hw h
    rw [List.getLastD_cons]
    exact ⟨hw', hsame'.message.trans hsame.message, hsame'.session.trans hsame.session,
      hsame'.methodAuth.trans hsame.methodAuth⟩

/-- The values that the call gives to the rest of the unit. -/
def Call.rest (c : Call) : RestValues where
  service := c.service
  serviceVersion := if c.serviceVersion ≠ 1 then uint32Value c.serviceVersion else .unset
  method := c.method
  topic := if c.topic.isEmpty then .unset else bytesValue c.topic
  typeName := c.name.getD c.unitName
  tenancy := if c.tenancyId.isEmpty then .unset else bytesValue c.tenancyId

/-- **What the request of a call consists of.** -/
structure Call.Assembled (c : Call) (id : ObjectId) (r : Request) : Prop where
  session : header 1 (c.session.bind fun a => a) = some (r.session.bind fun x => x)
  methodAuth : header 6 c.methodAuth = some r.methodAuth
  message : ∃ w n, serializeAsSubunit c.message.fields c.message.values 9 .empty = some (w, n) ∧
    r.message.content = some w.container
  typed : c.rest.Typed
  written : r.Written c.rest id

theorem serialize_written {c : Call} {r s : Request} {id : ObjectId}
    (hservice : r.service = c.service) (hversion : r.serviceVersion = c.serviceVersion)
    (hmethod : r.method = c.method) (hname : r.message.typeName = some (c.name.getD c.unitName))
    (h : r.serialize c.topic c.tenancyId id = some s) :
    c.rest.Typed ∧ s.Written c.rest id ∧ r.Same s := by
  obtain ⟨service, hs, h₁⟩ := Option.bind_eq_some_iff.mp h
  obtain ⟨method, hm, h₂⟩ := Option.bind_eq_some_iff.mp h₁
  obtain ⟨tenancy, ht, h₃⟩ := Option.bind_eq_some_iff.mp h₂
  obtain ⟨typeName, hn, h₄⟩ := Option.bind_eq_some_iff.mp h₃
  obtain ⟨⟨t, ok⟩, hw, h₅⟩ := Option.bind_eq_some_iff.mp h₄
  obtain ⟨rfl, hservice16⟩ := fixedString_eq hs
  obtain ⟨rfl, hmethod32⟩ := fixedString_eq hm
  rw [hname] at hn
  obtain rfl := Option.some.inj hn
  rw [hservice] at hservice16
  rw [hmethod] at hmethod32
  have htenancy : tenancy = c.rest.tenancy ∧
      (c.rest.tenancy = .unset ∨ ∃ l : Bytes, c.rest.tenancy = bytesValue l ∧ l.length ≤ 32) := by
    rw [optionalFixedString] at ht
    by_cases he : c.tenancyId.isEmpty = true
    · rw [if_pos he] at ht
      cases ht
      exact ⟨(if_pos he).symm, .inl (if_pos he)⟩
    · rw [if_neg he] at ht
      obtain ⟨rfl, hle⟩ := fixedString_eq ht
      exact ⟨(if_neg he).symm, .inr ⟨_, if_neg he, hle⟩⟩
  have hst : t = s := by
    dsimp only at h₅
    split at h₅
    · cases h₅
    · exact Option.some.inj h₅
  subst hst
  have hwrite : r.write (c.rest.unit id) = some (t, ok) := by
    rw [hservice, hversion, hmethod, htenancy.1] at hw
    exact hw
  obtain ⟨hwritten, hsame⟩ := write_written hwrite
  refine ⟨⟨hservice16, ?_, hmethod32, ?_, htenancy.2⟩, hwritten, hsame⟩
  · by_cases he : c.serviceVersion ≠ 1
    · exact .inr ⟨_, if_pos he⟩
    · exact .inl (if_neg he)
  · by_cases he : c.topic.isEmpty = true
    · exact .inl (if_pos he)
    · exact .inr ⟨_, if_neg he⟩

theorem request_assembled {c : Call} {r : Request} {id : ObjectId} {ids : List ObjectId}
    (h : c.request id ids = some r) : c.Assembled (ids.getLastD id) r := by
  obtain ⟨session, hsession, h₁⟩ := Option.bind_eq_some_iff.mp h
  obtain ⟨methodAuth, hmethod, h₂⟩ := Option.bind_eq_some_iff.mp h₁
  obtain ⟨message, hmessage, h₃⟩ := Option.bind_eq_some_iff.mp h₂
  obtain ⟨s, hs, h₄⟩ := Option.bind_eq_some_iff.mp h₃
  obtain ⟨⟨w, n⟩, hw, he⟩ := Option.bind_eq_some_iff.mp hmessage
  cases he
  obtain ⟨htyped, hwritten, hsame⟩ := serialize_written (c := c) rfl rfl rfl
    (congrArg some (by cases c.name <;> rfl)) hs
  obtain ⟨hwritten, hsame'⟩ := regenIds_written hwritten h₄
  refine ⟨?_, ?_, ⟨w, n, hw, ?_⟩, htyped, hwritten⟩
  · rw [hsame'.session, hsame.session]
    cases hc : c.session with
    | none =>
      rw [hc] at hsession
      cases hsession
      rfl
    | some a =>
      rw [hc] at hsession
      obtain ⟨x, hx, rfl⟩ := Option.map_eq_some_iff.mp hsession
      exact hx
  · rw [hsame'.methodAuth, hsame.methodAuth]
    exact hmethod
  · rw [hsame'.message, hsame.message]

end Client

section Parse

variable {c : Call} {r : Request} {id : ObjectId}

theorem flatten_spanBuffers (r : Request) : r.spanBuffers.flatten =
    (r.session.bind fun x => x).toList.flatten ++ (r.methodAuth.toList.flatten ++
      (r.message.content.toList.flatten ++ r.requestData)) := by
  have hdata : (if r.requestData.isEmpty then [] else [r.requestData]).flatten = r.requestData := by
    cases r.requestData with
    | nil => rfl
    | cons b l => exact List.append_nil _
  rw [Request.spanBuffers, List.flatten_append, List.flatten_append, List.flatten_append, hdata,
    List.append_assoc, List.append_assoc]

def sessionField : Dataunit.Field := .mk 1 false (.single (.unit authFields))
def methodField : Dataunit.Field := .mk 6 false (.single (.unit authFields))
def messageField : Dataunit.Field := .mk 9 false (.single (.bytes 0))

/-- **The message is read by its field.** -/
theorem message_group (h : c.Assembled id r) (hl : r.message.content.toList.flatten.length < 2 ^ 31)
    (fuel : Nat) (env : Env) :
    ∃ l ps, c.message.bytes = some l ∧ FieldGroup fuel env requestFields [messageField]
      [bytesValue l] r.message.content.toList.flatten ps := by
  obtain ⟨w, n, hw, hcontent⟩ := h.message
  have hflat : r.message.content.toList.flatten = w.container := by
    rw [hcontent]
    exact List.append_nil _
  rw [hflat] at hl ⊢
  obtain ⟨l, hbytes, hw⟩ := serializeAsSubunit_eq hw hl
  have hlt : l.length < 2 ^ 31 := by
    rw [hw, List.length_append, unitBytes, List.length_append] at hl
    omega
  have hf : messageField ∈ requestFields := by
    simp [messageField, requestFields]
  rw [hw]
  exact ⟨l, _, hbytes,
    .single (taken_bytes uniqueIds_request hf rfl ⟨by decide, .inl (by decide)⟩ hlt)⟩

/-- **All buffers of a request are groups of fields of its unit.** -/
theorem request_group (h : c.Assembled id r) (hid : id.Fits)
    (hl : r.spanBuffers.flatten.length < 2 ^ 31) (fuel : Nat) (env : Env) :
    ∃ s m l ps, receivedHeader (c.session.bind fun a => a) = some s ∧
      receivedHeader c.methodAuth = some m ∧ c.message.bytes = some l ∧
      FieldGroup fuel env requestFields
        ([sessionField] ++ ([methodField] ++ ([messageField] ++ restFields)))
        ([s] ++ ([m] ++ ([bytesValue l] ++ c.rest.values id))) r.spanBuffers.flatten ps := by
  rw [flatten_spanBuffers] at hl ⊢
  simp only [List.length_append] at hl
  obtain ⟨w, n, hw, hdata⟩ := h.written.data
  have hencode : encodeFields requestFields (c.rest.unit id) = some r.requestData := by
    rw [hdata]
    exact serialize_container hw (by rw [← hdata]; omega)
  have hsession : sessionField ∈ requestFields := by
    simp [sessionField, requestFields]
  have hmethod : methodField ∈ requestFields := by
    simp [methodField, requestFields]
  obtain ⟨s, ps, hs, hps⟩ := header_group hsession rfl ⟨by decide, .inl (by decide)⟩ h.session
    (by omega) fuel env
  obtain ⟨m, qs, hm, hqs⟩ := header_group hmethod rfl ⟨by decide, .inl (by decide)⟩ h.methodAuth
    (by omega) fuel env
  obtain ⟨l, rs, hl', hrs⟩ := message_group h (by omega) fuel env
  obtain ⟨ts, hts⟩ := RestValues.group h.typed hid hencode (by omega) fuel env
  have hids : UniqueIds ([sessionField] ++ ([methodField] ++ ([messageField] ++ restFields))) := by
    rw [UniqueIds]
    decide
  have hids₁ : UniqueIds ([methodField] ++ ([messageField] ++ restFields)) := (List.nodup_cons.mp hids).2
  have hids₂ : UniqueIds ([messageField] ++ restFields) := (List.nodup_cons.mp hids₁).2
  exact ⟨s, m, l, _, hs, hm, hl', hps.append (hqs.append (hrs.append hts hids₂) hids₁) hids⟩

/-- **The server reads the request unit that the call stands for.** -/
theorem parsed_of_small (h : c.Assembled id r) (hid : id.Fits)
    (hl : r.spanBuffers.flatten.length < 2 ^ 31) (hf : r.spanBuffers.flatten.length < fuel) :
    ∃ vs, c.received id = some vs ∧
      (deserialize env requestFields r.spanBuffers.flatten fuel).outcome 0 =
        .ok (vs, r.spanBuffers.flatten.length) := by
  obtain ⟨s, m, l, ps, hs, hm, hbytes, hgroup⟩ := request_group h hid hl fuel env
  have hids : UniqueIds ([sessionField] ++ ([methodField] ++ ([messageField] ++ restFields))) := by
    rw [UniqueIds]
    decide
  have hread := outcome_deserializeFields (hgroup.rounds hids) (requiredSet requestFields) ⟨hl, hf⟩
    (Nat.zero_le _) (List.append_nil _).symm
  rw [Nat.zero_add] at hread
  refine ⟨_, ?_, hread⟩
  rw [Call.received, hs, hm, hbytes]
  rfl

end Parse

section Failures

/-- In a buffer of 2^31 bytes and more the number of available bytes is negative. -/
theorem readUint32_big {buf : Bytes} (h : 2 ^ 31 ≤ buf.length) (h' : buf.length < 2 ^ 32) :
    (readUint32 buf).outcome 0 = .error .rejected := by
  obtain ⟨b, l, rfl⟩ := List.exists_cons_of_length_pos (show 0 < buf.length by omega)
  have havailable : toInt (((b :: l).length : Int) - (0 : Nat)) ≤ (VarInt.start).processedSize := by
    rw [toInt_of_ge (by omega) (by omega)]
    have hstart : VarInt.start.processedSize = 0 := rfl
    omega
  have hbroken : (unpackVarInt64 ((b :: l).drop 0) (((b :: l).length : Int) - (0 : Nat))).broken =
      true := by
    rw [unpackVarInt64, List.drop_zero, unpackLoop, if_pos havailable]
    rfl
  have hread : (readVarInt unpackVarInt64 (b :: l)).outcome 0 = .error .rejected := by
    rw [readVarInt, outcome_bind_ok (outcome_offset 0), outcome_bind_ok (outcome_log _ 0), hbroken]
    rfl
  exact outcome_bind_error hread

/-- **Nothing is read from a buffer of 2^31 bytes and more.** -/
theorem outcome_deserialize_big {fs : List Dataunit.Field} {buf : Bytes} (h : 2 ^ 31 ≤ buf.length)
    (h' : buf.length < 2 ^ 32) (hf : 0 < fuel) :
    (deserialize env fs buf fuel).outcome 0 = .error .rejected := by
  obtain ⟨n, rfl⟩ := Nat.exists_eq_add_one.mpr hf
  have hround : ∀ (find : Nat → Option (UnitFieldParser (List FieldValue))) (x : List FieldValue),
      (fieldRound find buf x).outcome 0 = .error .rejected := by
    intro find x
    have hstep : (fieldStep find buf x).outcome 0 = .error .rejected := by
      rw [fieldStep, outcome_bind_ok (outcome_offset 0)]
      exact outcome_bind_error (readUint32_big h h')
    rw [fieldRound, outcome_bind_ok (outcome_offset 0)]
    exact outcome_bind_error hstep
  refine outcome_bind_error ?_
  rw [untilOffset, outcome_bind_ok (outcome_offset 0), if_neg (by omega)]
  exact outcome_bind_error (hround _ _)

theorem yields_objectId {buf : Bytes} : Yields (readObjectId buf) ObjectId.Fits := by
  refine (Yields.true _).bind fun dataSize _ => (Yields.true _).bind fun o _ =>
    (Yields.true _).bind fun _ _ => ?_
  split
  · exact Yields.fail
  split
  · exact Yields.fail
  refine (Yields.true _).bind fun _ _ => (Yields.true _).bind fun _ _ => ?_
  split
  · exact Yields.fail
  split
  · exact Yields.fail
  cases hp : ObjectId.parse ((buf.drop o).take dataSize) with
  | none => exact Yields.fail
  | some x => exact Yields.pure (ObjectId.parse_fits hp)

/-- The id of a request unit fits its digits. -/
def IdFits (x : List FieldValue) : Prop := ∀ id, x[1]? = some (oidValue id) → id.Fits

theorem yields_value {buf : Bytes} {i : Nat} {f : Dataunit.Field} (hf : requestFields[i]? = some f)
    (v : FieldValue) :
    Yields (f.kind.deserialize env buf fuel v) fun u => i = 1 → ∀ id, u = oidValue id → id.Fits := by
  by_cases hi : i = 1
  · subst hi
    cases hf
    show Yields (FieldKind.deserialize env buf fuel (.single .objectId) v) _
    simp only [FieldKind.deserialize, ElemType.read]
    refine (yields_objectId.bind fun x hx => Yields.pure (Q := fun w => ∀ id,
      w = Value.datum (.oid id) → id.Fits) ?_).bind fun w hw => Yields.pure fun _ id he => ?_
    · rintro id he
      cases he
      exact hx
    · cases he
      exact hw id rfl
  · exact fun _ _ _ _ h => absurd h hi

theorem yields_round_id {buf : Bytes} {x : List FieldValue} (hx : IdFits x) :
    Yields (fieldRound (findField (fieldParsers env buf fuel requestFields)) buf x) IdFits := by
  refine yields_fieldRound hx fun tag p _ _ hfind _ => ?_
  obtain ⟨i, f, hf, -, rfl⟩ := findField_eq_some hfind
  refine (yields_value hf _).bind fun v hv => Yields.pure fun id he => ?_
  rw [List.getElem?_set] at he
  split at he
  · next hi =>
    split at he
    · exact hv hi id (Option.some.inj he)
    · cases he
  · exact hx id he

/-- **The id that the server reads fits its digits.** -/
theorem deserialize_idFits {buf : Bytes} : Yields (deserialize env requestFields buf fuel) IdFits := by
  have hfresh : IdFits (freshFields requestFields) := by
    intro id he
    cases he
  exact yields_deserializeFields (fun _ h => yields_round_id h) hfresh _

end Failures

theorem received_id {c : Call} {id : ObjectId} {vs : List FieldValue}
    (h : c.received id = some vs) : vs[1]? = some (oidValue id) := by
  obtain ⟨s, -, h₁⟩ := Option.bind_eq_some_iff.mp h
  obtain ⟨m, -, h₂⟩ := Option.bind_eq_some_iff.mp h₁
  obtain ⟨l, -, h₃⟩ := Option.bind_eq_some_iff.mp h₂
  cases h₃
  rfl

/-- The server reads the unit that the call stands for, to its end. -/
def Call.Parsed (c : Call) (id : ObjectId) (env : Env) (r : Request) : Prop :=
  ∃ vs, c.received id = some vs ∧
    (deserialize env requestFields r.spanBuffers.flatten (r.spanBuffers.flatten.length + 1)).outcome
      0 = .ok (vs, r.spanBuffers.flatten.length)

theorem not_parsed_of_big {c : Call} {id : ObjectId} {r : Request}
    (h : 2 ^ 31 ≤ r.spanBuffers.flatten.length) (h' : r.spanBuffers.flatten.length < 2 ^ 32) :
    ¬ c.Parsed id env r := by
  rintro ⟨vs, -, hout⟩
  rw [outcome_deserialize_big h h' (Nat.succ_pos _)] at hout
  cases hout

theorem fits_of_parsed {c : Call} {id : ObjectId} {r : Request} (h : c.Parsed id env r) :
    id.Fits := by
  obtain ⟨vs, hvs, hout⟩ := h
  exact deserialize_idFits 0 vs _ hout id (received_id hvs)

/-- **The server reads the request unit that the call stands for if and only if its buffers have
less than 2^31 bytes and the parts of its id fit their digits**, also behind new ids. -/
theorem request_parsed_iff (c : Call) (id : ObjectId) (ids : List ObjectId) (env : Env)
    (r : Request) (hr : c.request id ids = some r)
    (hsize : r.spanBuffers.flatten.length < 2 ^ 32) :
    c.Parsed (ids.getLastD id) env r ↔
      r.spanBuffers.flatten.length < 2 ^ 31 ∧ (ids.getLastD id).Fits := by
  constructor
  · intro h
    refine ⟨?_, fits_of_parsed h⟩
    by_contra hbig
    exact not_parsed_of_big (Nat.le_of_not_lt hbig) hsize h
  · rintro ⟨hsmall, hfits⟩
    exact parsed_of_small (request_assembled hr) hfits hsmall (Nat.lt_succ_self _)

def sampleContent : DataUnit := ⟨[.mk 1 false (.single (.bytes 0))], [bytesValue [0x74]]⟩

def sampleCall (topic : Bytes) : Call where
  service := [0x73]
  serviceVersion := 2
  method := [0x6d]
  topic := topic
  tenancyId := []
  message := sampleContent
  unitName := [0x75]
  name := none
  session := none
  methodAuth := none

def sampleId (seq : Nat) : ObjectId := ⟨1, Fin.ofNat _ seq, 5⟩

def sampleEnv : Env := ⟨true, fun _ => true⟩

def sampleSessionCall : Call :=
  { sampleCall [0x74] with session := some (some ⟨[0x70], 1, some sampleContent⟩) }

theorem request_parsed_sample :
    ∃ r, sampleSessionCall.request (sampleId 1) [sampleId 2] = some r ∧
      sampleSessionCall.Parsed (sampleId 2) sampleEnv r := by
  refine ⟨_, rfl, ?_⟩
  exact (request_parsed_iff sampleSessionCall (sampleId 1) [sampleId 2] sampleEnv _ rfl
    (by decide)).mpr ⟨by decide, by decide⟩

theorem writeBytes_big {l : Bytes} (hl : l.length = 2 ^ 31) {w : WireBufSolid}
    (h : w.size < 2 ^ 30) :
    (writeBytes l w).container.length = w.container.length + 5 + 2 ^ 31 ∧
      (writeBytes l w).size = 2 ^ 64 - 2 ^ 31 + w.size + 5 := by
  have hpack : (packUint32 (2 ^ 31)).length = 5 := by decide
  have hbig : toInt ((2 ^ 31 : Nat) : Int) = -2147483648 := by
    rw [toInt_of_ge (by norm_num) (by norm_num)]
    norm_num
  have hfive : toInt ((5 : Nat) : Int) = 5 := toInt_of_lt (by norm_num) (by norm_num)
  rw [writeBytes, if_neg (by omega), hl]
  simp only [WireBufSolid.put_container, WireBufSolid.put_size, List.length_append, hpack, hl, hbig,
    hfive]
  refine ⟨trivial, ?_⟩
  have hinner : (((w.size : Int) + 5) % 2 ^ 64).toNat = w.size + 5 := by
    rw [Int.emod_eq_of_lt (by omega) (by omega)]
    omega
  have houter : (((w.size + 5 : Nat) : Int) + -2147483648) % 2 ^ 64 =
      2 ^ 64 - 2147483648 + w.size + 5 := by
    rw [← Int.add_emod_right, Int.emod_eq_of_lt (by push_cast; omega) (by push_cast; omega)]
    push_cast
    ring
  rw [hinner, houter]
  omega

theorem write_big {l : Bytes} (hl : l.length = 2 ^ 31) :
    ∃ w, serializeFields requestFields ((sampleCall l).rest.unit (sampleId 1)) .empty = some w ∧
      w.container.length = 44 + 2 ^ 31 ∧ toInt w.size ≠ 0 := by
  have he : ¬ l.isEmpty = true := by
    rw [List.isEmpty_iff_length_eq_zero]
    omega
  have htopic : (sampleCall l).rest.topic = bytesValue l := if_neg he
  rw [RestValues.unit, htopic]
  refine ⟨_, rfl, ?_⟩
  generalize hfront : WireBufSolid.put (tagBytes 7 (ElemType.bytes 0).wireType) _ = w
  have hsize : w.size = 36 ∧ w.container.length = 36 := by
    have hservice : (sampleCall l).rest.service = [0x73] := rfl
    have hmethod : (sampleCall l).rest.method = [0x6d] := rfl
    have hversion : (sampleCall l).serviceVersion = 2 := rfl
    rw [hservice, hmethod, hversion] at hfront
    subst hfront
    decide
  obtain ⟨hlength, hwritten⟩ := writeBytes_big hl (w := w) (by omega)
  have hname : ∀ v : WireBufSolid, writeBytes (sampleCall l).rest.typeName
      (v.put (tagBytes 8 (ElemType.bytes 0).wireType)) = ((v.put [0x42]).put [0x01]).put [0x75] :=
    fun _ => rfl
  have hone : toInt ((1 : Nat) : Int) = 1 := toInt_of_lt (by norm_num) (by norm_num)
  rw [hname]
  simp only [WireBufSolid.put_container, WireBufSolid.put_size, List.length_append,
    List.length_singleton, hone, hlength, hwritten]
  refine ⟨by omega, ?_⟩
  rw [hsize.1]
  decide

def sampleUnsent : Request where
  service := [0x73]
  serviceVersion := 2
  method := [0x6d]
  message := ⟨some [0x75], some [0x4a, 0x83, 0x80, 0x80, 0x80, 0x00, 0x0a, 0x01, 0x74]⟩
  session := none
  methodAuth := none
  unit := none
  requestData := []

theorem request_big {l : Bytes} (hl : l.length = 2 ^ 31) :
    ∃ r, (sampleCall l).request (sampleId 1) [] = some r ∧
      r.spanBuffers.flatten.length = 53 + 2 ^ 31 := by
  obtain ⟨w, hw, hlength, hne⟩ := write_big hl
  have hwrite : ∀ r : Request, r.write ((sampleCall l).rest.unit (sampleId 1)) =
      some ({ r with
        unit := some ((sampleCall l).rest.unit (sampleId 1))
        requestData := w.container }, toInt w.size) := by
    intro r
    rw [Request.write, Dataunit.serialize, hw]
    rfl
  have hserialize : ∀ r : Request, r.service = [0x73] → r.serviceVersion = 2 → r.method = [0x6d] →
      r.message.typeName = some [0x75] → r.serialize l [] (sampleId 1) =
      some { r with
        unit := some ((sampleCall l).rest.unit (sampleId 1))
        requestData := w.container } := by
    intro r hs hv hm hn
    have hunit : r.serialize l [] (sampleId 1) =
        (r.write ((sampleCall l).rest.unit (sampleId 1))).bind fun x =>
          if x.2 = 0 then none else some x.1 := by
      rw [Request.serialize, hs, hm, hn, hv]
      rfl
    rw [hunit, hwrite, Option.bind_some, if_neg hne]
  have hrequest : (sampleCall l).request (sampleId 1) [] =
      (sampleUnsent.serialize l [] (sampleId 1)).bind fun r => some r := rfl
  rw [hserialize sampleUnsent rfl rfl rfl rfl, Option.bind_some] at hrequest
  refine ⟨_, hrequest, ?_⟩
  have hmessage : sampleUnsent.message.content.toList.flatten.length = 9 := rfl
  rw [flatten_spanBuffers]
  simp only [List.length_append, hlength, hmessage]
  show 0 + (0 + (9 + (44 + 2 ^ 31))) = 53 + 2 ^ 31
  omega

/-- A topic of 2^31 bytes, and an id whose sequence number has more than 24 bits. -/
theorem request_misread :
    (∃ r, (sampleCall (List.replicate (2 ^ 31) 0x74)).request (sampleId 1) [] = some r ∧
      r.spanBuffers.flatten.length < 2 ^ 32 ∧
      ¬ (sampleCall (List.replicate (2 ^ 31) 0x74)).Parsed (sampleId 1) sampleEnv r) ∧
    ∃ r, (sampleCall [0x74]).request (sampleId (2 ^ 24)) [] = some r ∧
      r.spanBuffers.flatten.length < 2 ^ 32 ∧
      ¬ (sampleCall [0x74]).Parsed (sampleId (2 ^ 24)) sampleEnv r := by
  constructor
  · obtain ⟨r, hr, hlength⟩ := request_big List.length_replicate
    exact ⟨r, hr, by omega, not_parsed_of_big (by omega) (by omega)⟩
  · exact ⟨_, rfl, by decide, fun h => absurd (fits_of_parsed h) (by decide)⟩

end Hatn.Api.Client
