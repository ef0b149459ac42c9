import Mathlib.Logic.Basic

/-!
# Responses and their errors

The server puts the status of a request and its error into a response unit; the client makes
a response of that unit again.  `parseResponse` moves the response into the request first and
attaches the error to the object that it was moved from, so the response that the request
keeps never has an error.

The serializer of units is a parameter.
-/

namespace Hatn.Api

/-- `HATN_API_RESPONSE_STATUS` -/
inductive ResponseStatus
  | success
  | generic
  | authError
  | forbidden
  | internalServerError
  | formatError
  | validationError
  | routingError
  | requestTooBig
  | unknownMethod
  | invalidMessageType
  | messageMissing
  | execFailed
  | retryLater
  | foreignServerFailed
  deriving DecidableEq

/-! ### Errors of the server -/

/-- The messages are those for the translator of the request. -/
structure ApiErrorCategory where
  family : String
  status : Int → String
  message : Int → String

/-- Without a category a message is that of no code. -/
def ApiErrorCategory.messageOf (cat? : Option ApiErrorCategory) (code : Int) : String :=
  (cat?.map fun cat => cat.message code).getD ""

structure ApiError where
  category : Option ApiErrorCategory
  code : Int
  data : Option (List UInt8)
  dataType : String
  descriptionText : String
  statusText : String
  familyText : String
  nestedMessage : Bool

namespace ApiError

def status (e : ApiError) : String :=
  match e.category with
  | none => e.statusText
  | some cat => if e.statusText ≠ "" then e.statusText else cat.status e.code

def family (e : ApiError) : String :=
  match e.category with
  | none => e.familyText
  | some cat => if e.familyText ≠ "" then e.familyText else cat.family

/-- A nested message stands behind that of the code. -/
def nested (e : ApiError) (text : String) : String :=
  if e.nestedMessage then ApiErrorCategory.messageOf e.category e.code ++ ": " ++ text else text

def message (e : ApiError) : String :=
  if e.descriptionText ≠ "" then e.nested e.descriptionText
  else if e.statusText ≠ "" then e.nested e.statusText
  else ApiErrorCategory.messageOf e.category e.code

end ApiError

/-- `ResponseError`; the error is owned or borrowed. -/
structure ResponseError where
  status : ResponseStatus
  apiError : Option ApiError

/-! ### Units -/

/-- `response_error_message` -/
structure ErrorUnit where
  code : Int
  family : String
  status : Option String
  description : Option String
  dataType : Option String
  data : Option (List UInt8)
  deriving DecidableEq

/-- `response`, its message as it is serialized. -/
structure ResponseUnit where
  id : Option String
  status : Option ResponseStatus
  messageType : Option String
  message : Option (List UInt8)
  deriving DecidableEq

/-- The serialization of the two units; a parser may fail. -/
structure Serializer where
  response : ResponseUnit → List UInt8
  parseResponse : List UInt8 → Option ResponseUnit
  error : ErrorUnit → List UInt8
  parseError : List UInt8 → Option ErrorUnit

def errorMessageName : String := "response_error_message"

/-- The unit of an error, its type of data only with data. -/
def ApiError.toUnit (e : ApiError) : ErrorUnit where
  code := e.code
  family := e.family
  status := some e.status
  description := some e.message
  dataType := e.data.map fun _ => e.dataType
  data := e.data

namespace ResponseUnit

/-- `Response::setStatus` -/
def setStatus (s : Serializer) (status : ResponseStatus) (apiError : Option ApiError)
    (unit : ResponseUnit) : ResponseUnit :=
  let unit := { unit with status := some status }
  let unit := if status ≠ .success then { unit with message := none, messageType := none } else unit
  match apiError with
  | none => unit
  | some e => { unit with messageType := some errorMessageName, message := some (s.error e.toUnit) }

/-- `Request::setResponseStatus` -/
def setResponseStatus (s : Serializer) (responseError : Option ResponseError)
    (unit : ResponseUnit) : ResponseUnit :=
  match responseError with
  | some e => unit.setStatus s e.status e.apiError
  | none => unit.setStatus s .success none

end ResponseUnit

/-! ### The client -/

/-- The errors that `parseResponse` makes: of the library, with an error of the API or
without one. -/
structure ClientError where
  code : String
  apiError : Option ErrorUnit
  deriving DecidableEq

/-- `client::Response` -/
structure ClientResponse where
  id : String
  status : ResponseStatus
  messageType : String
  messageData : Option (List UInt8)
  error : Option ClientError
  deriving DecidableEq

namespace ClientResponse

def isSuccess (resp : ClientResponse) : Bool := resp.status = .success

/-- What a response is behind a move: its status only. -/
def movedFrom (resp : ClientResponse) : ClientResponse where
  id := ""
  status := resp.status
  messageType := ""
  messageData := none
  error := none

/-- The error of the response: of the message, or of the status alone. -/
def parseError (s : Serializer) (genericStatus : ResponseStatus → ErrorUnit)
    (resp : ClientResponse) : ClientError :=
  match resp.messageData with
  | none => ⟨"SERVER_RESPONDED_WITH_ERROR", some (genericStatus resp.status)⟩
  | some data =>
    if resp.messageType ≠ errorMessageName then
      ⟨"SERVER_RESPONDED_WITH_ERROR", some (genericStatus resp.status)⟩
    else match s.parseError data with
      | none => ⟨"FAILED_DESERIALIZE_RESPONSE_ERROR", none⟩
      | some unit => ⟨"SERVER_RESPONDED_WITH_ERROR", some unit⟩

end ClientResponse

/-- What `parseResponse` leaves: the response of the request, and the local object. -/
structure Parsed where
  response : ClientResponse
  resp : ClientResponse

/-- `RawTransport::parseResponse`; `genericStatus` is the error of `ApiGenericErrorCategory` for
a status. -/
def parseResponse (s : Serializer) (genericStatus : ResponseStatus → ErrorUnit)
    (responseData : List UInt8) : Option Parsed := do
  let respUnit ← s.parseResponse responseData
  let resp : ClientResponse :=
    { id := respUnit.id.getD ""
      status := respUnit.status.getD .success
      messageType := respUnit.messageType.getD ""
      messageData := respUnit.message
      error := none }
  -- the response is moved into the request here
  let parsed : Parsed := ⟨resp, resp.movedFrom⟩
  if !parsed.resp.isSuccess then
    let error := parsed.resp.parseError s genericStatus
    return { parsed with resp := { parsed.resp with error := some error } }
  return parsed

/-! ### What survives -/

/-- The status that a request is answered with. -/
def answeredStatus (responseError : Option ResponseError) : ResponseStatus :=
  (responseError.map (·.status)).getD .success

def attachedError (responseError : Option ResponseError) : Option ApiError :=
  responseError.bind (·.apiError)

/-- The response of the client has the id and the status, an error if and only if the status is
no success, and with that the error that was attached. -/
structure Survives (unit : ResponseUnit) (responseError : Option ResponseError)
    (resp : ClientResponse) : Prop where
  id : resp.id = unit.id.getD ""
  status : resp.status = answeredStatus responseError
  error : resp.error = none ↔ answeredStatus responseError = .success
  apiError : ∀ e, attachedError responseError = some e →
    ∃ ec, resp.error = some ec ∧ ec.apiError = some e.toUnit

theorem setStatus_status (s : Serializer) (status : ResponseStatus) (apiError : Option ApiError)
    (unit : ResponseUnit) : (unit.setStatus s status apiError).status = some status := by
  cases apiError <;> by_cases h : status = .success <;> simp [ResponseUnit.setStatus, h]

theorem setStatus_id (s : Serializer) (status : ResponseStatus) (apiError : Option ApiError)
    (unit : ResponseUnit) : (unit.setStatus s status apiError).id = unit.id := by
  cases apiError <;> by_cases h : status = .success <;> simp [ResponseUnit.setStatus, h]

theorem setResponseStatus_status (s : Serializer) (responseError : Option ResponseError)
    (unit : ResponseUnit) :
    (unit.setResponseStatus s responseError).status = some (answeredStatus responseError) := by
  cases responseError with
  | none => exact setStatus_status s _ _ unit
  | some e => exact setStatus_status s _ _ unit

theorem setResponseStatus_id (s : Serializer) (responseError : Option ResponseError)
    (unit : ResponseUnit) : (unit.setResponseStatus s responseError).id = unit.id := by
  cases responseError with
  | none => exact setStatus_id s _ _ unit
  | some e => exact setStatus_id s _ _ unit

/-- The response of the request is that of the unit, and has no error. -/
theorem parseResponse_response {s : Serializer} (genericStatus : ResponseStatus → ErrorUnit)
    {responseData : List UInt8} {unit : ResponseUnit} (h : s.parseResponse responseData = some unit) :
    ∃ parsed, parseResponse s genericStatus responseData = some parsed ∧
      parsed.response.id = unit.id.getD "" ∧ parsed.response.status = unit.status.getD .success ∧
      parsed.response.error = none := by
  rw [parseResponse, h]
  simp only [Option.bind_eq_bind, Option.bind_some, Option.pure_def]
  split
  · exact ⟨_, rfl, rfl, rfl, rfl⟩
  · exact ⟨_, rfl, rfl, rfl, rfl⟩

/-- **The answer to a request survives the wire if and only if it is a success** without an
error attached. -/
theorem survives_iff {s : Serializer} {genericStatus : ResponseStatus → ErrorUnit}
    {unit : ResponseUnit} {responseError : Option ResponseError}
    (h : s.parseResponse (s.response (unit.setResponseStatus s responseError)) =
      some (unit.setResponseStatus s responseError)) :
    (∃ parsed, parseResponse s genericStatus
      (s.response (unit.setResponseStatus s responseError)) = some parsed ∧
        Survives unit responseError parsed.response) ↔
    answeredStatus responseError = .success ∧ attachedError responseError = none := by
  obtain ⟨parsed, hp, hid, hstatus, herror⟩ := parseResponse_response genericStatus h
  rw [setResponseStatus_id] at hid
  rw [setResponseStatus_status, Option.getD_some] at hstatus
  constructor
  · rintro ⟨parsed', hp', hs⟩
    rw [hp] at hp'
    injection hp' with hp'
    subst hp'
    refine ⟨hs.error.mp herror, ?_⟩
    rw [Option.eq_none_iff_forall_ne_some]
    intro e he
    obtain ⟨ec, hec, -⟩ := hs.apiError e he
    rw [herror] at hec
    cases hec
  · rintro ⟨h1, h2⟩
    refine ⟨parsed, hp, hid, hstatus, iff_of_true herror h1, ?_⟩
    intro e he
    rw [h2] at he
    cases he

/-- A serializer that knows one unit, as bytes and as a unit. -/
def sampleSerializer (data : List UInt8) (unit : ResponseUnit) : Serializer :=
  ⟨fun _ => data, fun _ => some unit, fun _ => [], fun _ => none⟩

def sampleUnit : ResponseUnit := ⟨some "1", some .success, none, none⟩

def sampleData : List UInt8 := [0x0a, 0x01, 0x31, 0x10, 0x00]

def sampleGeneric (_ : ResponseStatus) : ErrorUnit := ⟨1, "generic", none, none, none, none⟩

theorem survives_success : ∃ parsed,
    parseResponse (sampleSerializer sampleData sampleUnit) sampleGeneric sampleData = some parsed ∧
      Survives sampleUnit none parsed.response :=
  have h : (sampleSerializer sampleData sampleUnit).parseResponse sampleData = some sampleUnit := rfl
  (survives_iff h).mpr ⟨rfl, rfl⟩

/-- The unit of a request that is forbidden. -/
def forbiddenUnit : ResponseUnit := ⟨some "1", some .forbidden, none, none⟩

def forbiddenData : List UInt8 := [0x0a, 0x01, 0x31, 0x10, 0x03]

/-- It is answered, and the client finds no error. -/
theorem forbidden_without_error :
    sampleUnit.setResponseStatus (sampleSerializer forbiddenData forbiddenUnit)
      (some ⟨.forbidden, none⟩) = forbiddenUnit ∧
    (∃ parsed, parseResponse (sampleSerializer forbiddenData forbiddenUnit) sampleGeneric
      forbiddenData = some parsed ∧ parsed.response.error = none ∧
        ¬ Survives sampleUnit (some ⟨.forbidden, none⟩) parsed.response) := by
  refine ⟨rfl, _, rfl, rfl, fun h => ?_⟩
  have hs : answeredStatus (some ⟨.forbidden, none⟩) = .success := h.error.mp rfl
  cases hs

end Hatn.Api
