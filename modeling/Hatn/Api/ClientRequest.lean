import Hatn.Dataunit.Subunits

/-!
# Requests of a client

A request is sent as a list of buffers: the headers of the session and of the method, the message
and the rest of the request unit, each serialized apart.  The server parses their bytes as one
request unit.  In its fields of the type `TYPE_DATAUNIT` the bytes of the subunit are kept as they
are, so these fields are byte arrays here.
-/

namespace Hatn.Api.Client

open Hatn.Dataunit

abbrev Bytes := List UInt8

/-- A unit with its type. -/
structure DataUnit where
  fields : List Dataunit.Field
  values : List FieldValue

def DataUnit.bytes (u : DataUnit) : Option Bytes := encodeFields u.fields u.values

/-- The fields of `auth` but for the content. -/
def authProtocolFields : List Dataunit.Field :=
  [.mk 1 false (.single (.bytes 8)), .mk 2 false (.single (.scalar (.varInt false .w32)))]

/-- `auth` -/
def authFields : List Dataunit.Field := authProtocolFields ++ [.mk 3 false (.single (.bytes 0))]

def proxyRequestFields : List Dataunit.Field :=
  [.mk 1 false (.single (.bytes 32)), .mk 2 false (.single (.scalar (.varInt false .w16)))]

/-- `request` -/
def requestFields : List Dataunit.Field :=
  [.mk 1 false (.single (.unit authFields)), .mk 2 true (.single .objectId),
    .mk 3 true (.single (.bytes 16)), .mk 4 false (.single (.scalar (.varInt false .w32))),
    .mk 5 true (.single (.bytes 32)), .mk 6 false (.single (.unit authFields)),
    .mk 7 false (.single (.bytes 0)), .mk 8 false (.single (.bytes 0)),
    .mk 9 false (.single (.bytes 0)), .mk 10 false (.single (.bytes 0)),
    .mk 11 false (.single (.bytes 16)), .mk 12 false (.single (.bytes 32)),
    .mk 50 false (.single (.unit proxyRequestFields))]

def bytesValue (l : Bytes) : FieldValue := .single (.datum (.bytes l))

def uint32Value (n : UInt32) : FieldValue := .single (.datum (.num n.toNat))

def oidValue (id : ObjectId) : FieldValue := .single (.datum (.oid id))

/-- A fixed string throws when more is set than it holds. -/
def fixedString (length : Nat) (l : Bytes) : Option FieldValue :=
  if length < l.length then none else some (bytesValue l)

/-- A fixed string that is set only when it is not empty. -/
def optionalFixedString (length : Nat) (l : Bytes) : Option FieldValue :=
  if l.isEmpty then some .unset else fixedString length l

/-- What `serializeAuthHeader` is given. -/
structure AuthHeader where
  protocol : Bytes
  protocolVersion : UInt32
  content : Option DataUnit

/-- The field of the content has the type of the content. -/
def contentField : Option DataUnit → Dataunit.Field
  | some u => .mk 3 false (.single (.unit u.fields))
  | none => .mk 3 false (.single (.bytes 0))

def contentValue : Option DataUnit → FieldValue
  | some u => .single (.unit u.values)
  | none => .unset

/-- `Auth::serializeAuthHeader`: the header that is kept. -/
def serializeAuthHeader (fieldId : Nat) (a : AuthHeader) : Option Bytes := do
  let protocol ← fixedString 8 a.protocol
  let (buf, _) ← serializeAsSubunit (authProtocolFields ++ [contentField a.content])
    [protocol, uint32Value a.protocolVersion, contentValue a.content] fieldId .empty
  return buf.container

structure Message where
  typeName : Option Bytes
  content : Option Bytes

/-- `Message::setContent` -/
def Message.setContent (m : Message) (message : DataUnit) (unitName : Bytes)
    (name : Option Bytes) : Option Message := do
  let (buf, _) ← serializeAsSubunit message.fields message.values 9 .empty
  let typeName :=
    match name, m.typeName with
    | some n, _ => n
    | none, some n => n
    | none, none => unitName
  return ⟨some typeName, some buf.container⟩

structure Request where
  service : Bytes
  serviceVersion : UInt32
  method : Bytes
  message : Message
  /-- the session, and its header -/
  session : Option (Option Bytes)
  methodAuth : Option Bytes
  /-- `m_unit` -/
  unit : Option (List FieldValue)
  requestData : Bytes

namespace Request

/-- `io::serialize` of the unit to `requestData`, with what it returns. -/
def write (r : Request) (unit : List FieldValue) : Option (Request × Int) := do
  let (buf, ok) ← Dataunit.serialize requestFields unit
  return ({ r with unit := some unit, requestData := buf.container }, ok)

/-- `Request::serialize`; `id` is the new object id. -/
def serialize (r : Request) (topic tenancyId : Bytes) (id : ObjectId) : Option Request := do
  let service ← fixedString 16 r.service
  let method ← fixedString 32 r.method
  let tenancy ← optionalFixedString 32 tenancyId
  let typeName ← r.message.typeName
  let (r, ok) ← r.write [.unset, oidValue id, service,
    if r.serviceVersion ≠ 1 then uint32Value r.serviceVersion else .unset, method, .unset,
    if topic.isEmpty then .unset else bytesValue topic, bytesValue typeName, .unset, .unset, .unset,
    tenancy, .unset]
  if ok = 0 then none else some r

def regenId (r : Request) (id : ObjectId) : Option Request :=
  match r.unit with
  | none => some r
  | some unit => do
    let (r, _) ← r.write (unit.set 1 (oidValue id))
    return r

def regenIds : Request → List ObjectId → Option Request
  | r, [] => some r
  | r, id :: ids => do
    let r ← r.regenId id
    r.regenIds ids

/-- `RequestContext::spanBuffers` -/
def spanBuffers (r : Request) : List Bytes :=
  let authHeader := r.session.bind fun header => header
  authHeader.toList ++ r.methodAuth.toList ++ r.message.content.toList ++
    if r.requestData.isEmpty then [] else [r.requestData]

end Request

/-- What a caller gives for a request. -/
structure Call where
  service : Bytes
  serviceVersion : UInt32
  method : Bytes
  topic : Bytes
  tenancyId : Bytes
  message : DataUnit
  unitName : Bytes
  name : Option Bytes
  session : Option (Option AuthHeader)
  methodAuth : Option AuthHeader

/-- The header of a session or of a method, where there is one. -/
def header (fieldId : Nat) : Option AuthHeader → Option (Option Bytes)
  | none => some none
  | some a => (serializeAuthHeader fieldId a).map some

def sessionHeader : Option (Option AuthHeader) → Option (Option (Option Bytes))
  | none => some none
  | some a => (header 1 a).map some

/-- The request of a call: its headers and its message are serialized, then the rest with the id
`id`, and again with each of the ids `ids`. -/
def Call.request (c : Call) (id : ObjectId) (ids : List ObjectId) : Option Request := do
  let session ← sessionHeader c.session
  let methodAuth ← header 6 c.methodAuth
  let message ← Message.setContent ⟨none, none⟩ c.message c.unitName c.name
  let r : Request :=
    ⟨c.service, c.serviceVersion, c.method, message, session, methodAuth, none, []⟩
  let r ← r.serialize c.topic c.tenancyId id
  r.regenIds ids

def receivedContent : Option DataUnit → Option FieldValue
  | some u => u.bytes.map bytesValue
  | none => some .unset

/-- The header as the server reads it. -/
def AuthHeader.received (a : AuthHeader) : Option FieldValue := do
  let content ← receivedContent a.content
  return .single (.unit [bytesValue a.protocol, uint32Value a.protocolVersion, content])

def receivedHeader : Option AuthHeader → Option FieldValue
  | none => some .unset
  | some a => a.received

/-- The request unit that the call stands for: each field holds what was serialized for it. -/
def Call.received (c : Call) (id : ObjectId) : Option (List FieldValue) := do
  let session ← receivedHeader (c.session.bind fun a => a)
  let methodAuth ← receivedHeader c.methodAuth
  let message ← c.message.bytes
  return [session, oidValue id, bytesValue c.service,
    if c.serviceVersion ≠ 1 then uint32Value c.serviceVersion else .unset, bytesValue c.method,
    methodAuth, if c.topic.isEmpty then .unset else bytesValue c.topic,
    bytesValue (c.name.getD c.unitName), bytesValue message, .unset, .unset,
    if c.tenancyId.isEmpty then .unset else bytesValue c.tenancyId, .unset]

end Hatn.Api.Client
