import Hatn.Api.Server
import Hatn.Order.Runs
import Hatn.Serverapp.SessionToken
import Mathlib.Logic.Function.Basic

/-!
# Checking the sessions of requests

A request comes with a token.  The token is parsed, and the session, the login and the user are
looked up one after the other; each lookup goes to the database and comes back later, and in
between everything may change.  A step of the model is one lookup, one callback, or what somebody
else does with the database, the handlers of tokens or the clock.  Containers that are encrypted
are kept in a log.
-/

namespace Hatn.Serverapp

open Hatn.Dataunit Hatn.Api

/-! ### Errors -/

/-- `ApiAuthError` -/
inductive ApiAuthError
  | ok
  | authProtocolUnknown
  | authMissing
  | authHeaderFormat
  | authNegotiationFailed
  | authFailed
  | authSessionInvalid
  | authProcessingFailed
  | authCompletionFailed
  | invalidLoginFormat
  | accessDenied
  deriving DecidableEq

namespace ApiAuthError

/-- `ApiAuthErrorStrings` -/
def strings : List String :=
  ["OK", "AUTH_PROTOCOL_UNKNOWN", "AUTH_MISSING", "AUTH_HEADER_FORMAT", "AUTH_NEGOTIATION_FAILED",
    "AUTH_FAILED", "AUTH_SESSION_INVALID", "AUTH_PROCESSING_FAILED", "AUTH_COMPLETION_FAILED",
    "INVALID_LOGIN_FORMAT", "ACCESS_DENIED"]

def messages : List String :=
  ["OK", "unknown authentication protocol", "missing authentication in request",
    "invalid format of authentication header", "failed to negotiate authentication protocol",
    "authentication failed", "authentication session is not valid",
    "failed to process authentication", "failed to complete authentication",
    "invalid format of login", "access denied"]

/-- `ApiAuthErrorCategory` -/
def category : ApiErrorCategory where
  family := "hatn.api.auth"
  status code := strings.getD code.toNat ""
  message code := messages.getD code.toNat ""

/-- `apiAuthError` -/
def toApiError (e : ApiAuthError) : ApiError :=
  ⟨some category, e.ctorIdx, none, "", "", "", "", false⟩

end ApiAuthError

/-- The codes of `ClientServerError` that the checks use. -/
inductive ClientServerError
  | authTokenInvalid (cause : TokenError)
  | authSessionInactive
  | authSessionLoginsMismatch
  | authSessionNotFound
  | invalidLoginFormat
  | loginNotFound
  | userNotFound
  | loginBlocked
  | loginExpired
  | userBlocked
  deriving DecidableEq

/-- An error of the checks with an error of the API, or one of another library without it. -/
inductive Error
  | auth (code : ClientServerError) (apiError : ApiAuthError)
  | other
  deriving DecidableEq

/-- What `setResponseError` makes of an error; those of the authentication have a status of their
own. -/
def Error.responseError (status : ResponseStatus) : Error → ResponseError
  | auth _ apiError => ⟨status, some apiError.toApiError⟩
  | other => ⟨.internalServerError, none⟩

/-! ### The database -/

structure UserLogin where
  blocked : Bool
  expireAt : Option DateTime
  user : ObjectId
  userTopic : String
  deriving DecidableEq

structure User where
  blocked : Bool
  deriving DecidableEq

inductive DbError
  | notFound
  | failed
  deriving DecidableEq

/-- The objects of a model in their topics. -/
abbrev Table (α : Type) := String → ObjectId → Option α

namespace Table

variable {α : Type}

def set (t : Table α) (topic : String) (id : ObjectId) (object : Option α) : Table α :=
  fun topic' id' => if topic' = topic ∧ id' = id then object else t topic' id'

/-- `read` -/
def read (t : Table α) (topic : String) (id : ObjectId) (fault : Bool) : Except DbError α :=
  if fault then .error .failed
  else match t topic id with
    | none => .error .notFound
    | some object => .ok object

theorem read_ok {t : Table α} {topic : String} {id : ObjectId} {fault : Bool} {object : α}
    (h : t.read topic id fault = .ok object) : t topic id = some object := by
  rw [read] at h
  split at h
  · cases h
  · split at h
    · cases h
    next x hx =>
      cases h
      exact hx

end Table

/-! ### Requests -/

/-- What the checks set in a request. -/
structure Request where
  sessionId : ObjectId
  sessionClientId : ObjectId
  login : ObjectId
  user : ObjectId
  userTopic : String
  responseError : Option ResponseError

def nullId : ObjectId := ⟨0, 0, 0⟩

def Request.new : Request := ⟨nullId, nullId, nullId, nullId, "", none⟩

/-- `setResponseError`: the first one stays. -/
def Request.setResponseError (req : Request) (e : ResponseError) : Request :=
  { req with responseError := req.responseError <|> some e }

/-- What follows when the login is good. -/
inductive Goal
  | check (token : AuthToken) (session : Session)
  | create (topic : String) (session : Session) (sessToken refreshToken : Tokens)

/-- What a request waits for. -/
inductive Phase
  | idle
  | readSession (token : AuthToken)
  | sessionRead (token : AuthToken) (result : Except DbError Session)
  | readLogin (topic : String) (id : ObjectId) (goal : Goal)
  | loginRead (result : Except DbError UserLogin) (goal : Goal)
  | readUser (topic : String) (id : ObjectId) (goal : Goal)
  | userRead (result : Except DbError User) (goal : Goal)
  | storeSession (topic : String) (session : Session) (sessToken refreshToken : Tokens)
  | sessionStored (stored : Bool) (session : Session) (sessToken refreshToken : Tokens)
  | storeClient (session : Session) (sessToken refreshToken : Tokens)
  | clientStored (stored : Bool) (session : Session) (sessToken refreshToken : Tokens)
  /-- The auth field was not parsed. -/
  | rejected
  /-- `checkSession` has called back with this result. -/
  | checked (token : AuthToken) (session : Session)
  | checkFailed (error : Error)
  | created (session : Session) (sessToken refreshToken : Tokens)
  | createFailed (error : Error)

/-- The configuration of sessions. -/
structure Config (Key Nonce : Type) where
  format : TokenFormat Key Nonce
  sessionTokenTtlSecs : UInt32
  refreshTokenTtlSecs : UInt32
  sessionTtlSecs : UInt32

structure State (Key : Type) where
  now : DateTime
  sessions : Table Session
  logins : Table UserLogin
  users : Table User
  tokenHandler : SessionToken Key
  /-- what was encrypted by anybody: the key, the bytes and the container -/
  encrypted : List (Key × Bytes × Bytes)
  /-- what `makeToken` has returned, with the sessions -/
  issued : List (Session × Tokens)
  requests : Nat → Request
  phases : Nat → Phase

/-- What may happen. -/
inductive Event (Key Nonce : Type)
  | clock (now : DateTime)
  | storeSession (topic : String) (session : Session)
  | removeSession (topic : String) (id : ObjectId)
  | setLogin (topic : String) (id : ObjectId) (login : Option UserLogin)
  | setUser (topic : String) (id : ObjectId) (user : Option User)
  | initTokens (currentTag : String) (handlers : List (String × Key))
  | encrypt (key : Key) (nonce : Nonce) (plain : Bytes)
  /-- `SessionAuthProtocol::invoke`; there is no token when the auth field was not parsed. -/
  | invoke (r : Nat) (holder : Option AuthWithToken)
  | createSession (r : Nat) (id login user : ObjectId) (topic : String)
    (sessDraw refreshDraw : Draw Nonce)
  /-- The database does what the request has asked for. -/
  | database (r : Nat) (fault : Bool)
  /-- The callback with what the database did; a new id for the session client. -/
  | callback (r : Nat) (id : ObjectId)

section Checks

/-- The callback of `[checksess]`. -/
def checkSess (token : AuthToken) : Except DbError Session → Except Error Session
  | .error .notFound => .error (.auth .authSessionNotFound .authSessionInvalid)
  | .error .failed => .error .other
  | .ok session =>
    if !session.active then .error (.auth .authSessionInactive .authSessionInvalid)
    else if session.login ≠ token.login then
      .error (.auth .authSessionLoginsMismatch .authSessionInvalid)
    else .ok session

/-- The callbacks of `findLogin` and `[checklogin]`. -/
def checkLogin (now : DateTime) : Except DbError UserLogin → Except Error UserLogin
  | .error .notFound => .error (.auth .loginNotFound .authFailed)
  | .error .failed => .error .other
  | .ok login =>
    if login.blocked then .error (.auth .loginBlocked .accessDenied)
    else if login.expireAt.any now.after then .error (.auth .loginExpired .authFailed)
    else .ok login

/-- The callback of `[checkuser]`. -/
def checkUser : Except DbError User → Except Error User
  | .error .notFound => .error (.auth .userNotFound .accessDenied)
  | .error .failed => .error .other
  | .ok user => if user.blocked then .error (.auth .userBlocked .accessDenied) else .ok user

theorem checkSess_ok {token : AuthToken} {result : Except DbError Session} {session : Session}
    (h : checkSess token result = .ok session) :
    result = .ok session ∧ session.active = true ∧ session.login = token.login := by
  obtain (_ | _) | s := result
  · cases h
  · cases h
  · rw [checkSess] at h
    split_ifs at h with ha hl
    cases h
    exact ⟨rfl, by simpa using ha, not_not.mp hl⟩

theorem checkLogin_ok {now : DateTime} {result : Except DbError UserLogin} {login : UserLogin}
    (h : checkLogin now result = .ok login) :
    result = .ok login ∧ login.blocked = false ∧ ∀ e, login.expireAt = some e → now.after e = false := by
  obtain (_ | _) | l := result
  · cases h
  · cases h
  · rw [checkLogin] at h
    split_ifs at h with hb he
    cases h
    refine ⟨rfl, by simpa using hb, fun e hl => ?_⟩
    rw [hl] at he
    simpa using he

theorem checkUser_ok {result : Except DbError User} {user : User}
    (h : checkUser result = .ok user) : result = .ok user ∧ user.blocked = false := by
  obtain (_ | _) | u := result
  · cases h
  · cases h
  · rw [checkUser] at h
    split_ifs at h with hb
    cases h
    exact ⟨rfl, by simpa using hb⟩

end Checks

namespace State

variable {Key Nonce : Type} (p : Config Key Nonce)

def setPhase (s : State Key) (r : Nat) (phase : Phase) : State Key :=
  { s with phases := Function.update s.phases r phase }

def setRequest (s : State Key) (r : Nat) (req : Request) : State Key :=
  { s with requests := Function.update s.requests r req }

@[simp] theorem setPhase_phases (s : State Key) (r : Nat) (phase : Phase) :
    (s.setPhase r phase).phases = Function.update s.phases r phase := rfl

@[simp] theorem setPhase_requests (s : State Key) (r : Nat) (phase : Phase) :
    (s.setPhase r phase).requests = s.requests := rfl

@[simp] theorem setRequest_phases (s : State Key) (r : Nat) (req : Request) :
    (s.setRequest r req).phases = s.phases := rfl

@[simp] theorem setRequest_requests (s : State Key) (r : Nat) (req : Request) :
    (s.setRequest r req).requests = Function.update s.requests r req := rfl

/-- The callback of `invoke` with an error. -/
def failCheck (s : State Key) (r : Nat) (e : Error) : State Key :=
  (s.setRequest r ((s.requests r).setResponseError (e.responseError .authError))).setPhase r
    (.checkFailed e)

/-- The callback of the login method with an error. -/
def failCreate (s : State Key) (r : Nat) (e : Error) : State Key :=
  (s.setRequest r ((s.requests r).setResponseError (e.responseError .forbidden))).setPhase r
    (.createFailed e)

/-- `checkCanLogin` calls back with an error. -/
def fail (s : State Key) (r : Nat) : Goal → Error → State Key
  | .check _ _, e => s.failCheck r e
  | .create _ _ _ _, e => s.failCreate r e

/-- `checkCanLogin`; the id of the login goes through its text. -/
def checkCanLogin (s : State Key) (r : Nat) (login : ObjectId) (topic : String) (goal : Goal) :
    State Key :=
  match ObjectId.parse login.serialize with
  | none => s.fail r goal (.auth .invalidLoginFormat .invalidLoginFormat)
  | some id => s.setPhase r (.readLogin topic id goal)

/-- `checkSession` up to its first lookup. -/
def checkSession (s : State Key) (r : Nat) (clientToken : AuthWithToken) : State Key :=
  match s.tokenHandler.parseToken p.format clientToken .session s.now with
  | .error e => s.failCheck r (.auth (.authTokenInvalid e) .authFailed)
  | .ok token => s.setPhase r (.readSession token)

def makeToken (s : State Key) (session : Session) (tokenType : TokenType) (ttlSecs : UInt32)
    (topic : String) (draw : Draw Nonce) : Option (State Key × Tokens) := do
  let (tokens, plain) ← s.tokenHandler.makeToken p.format session tokenType ttlSecs topic draw s.now
  let container := tokens.clientToken.token
  return ({ s with
    encrypted := (s.tokenHandler.currentTokenHandler, plain, container) :: s.encrypted
    issued := (session, tokens) :: s.issued }, tokens)

/-- `createSession` up to its first lookup. -/
def createSession (s : State Key) (r : Nat) (id login user : ObjectId) (topic : String)
    (sessDraw refreshDraw : Draw Nonce) : State Key :=
  let session : Session :=
    ⟨id, s.now, login, true, s.now.addSeconds p.sessionTtlSecs.toInt32, user⟩
  let s := s.setRequest r { s.requests r with sessionId := session.id }
  match s.makeToken p session .session p.sessionTokenTtlSecs topic sessDraw with
  | none => s.failCreate r .other
  | some (s, sessToken) =>
    match s.makeToken p session .refresh p.refreshTokenTtlSecs topic refreshDraw with
    | none => s.failCreate r .other
    | some (s, refreshToken) =>
      s.checkCanLogin r session.login topic (.create topic session sessToken refreshToken)

/-- The callback of `checkCanLogin` without an error. -/
def loginChecked (s : State Key) (r : Nat) (newId : ObjectId) : Goal → State Key
  | .check token session =>
    let req : Request :=
      { s.requests r with
        sessionId := session.id
        login := session.login
        userTopic := token.topic
        user := session.user }
    -- `updateSessionClient` only sets an id
    (s.setRequest r { req with sessionClientId := newId }).setPhase r (.checked token session)
  | .create topic session sessToken refreshToken =>
    s.setPhase r (.storeSession topic session sessToken refreshToken)

/-- The database does what the request has asked for. -/
def database (s : State Key) (r : Nat) (fault : Bool) : Option (State Key) :=
  match s.phases r with
  | .readSession token =>
    some (s.setPhase r (.sessionRead token (s.sessions.read token.topic token.session fault)))
  | .readLogin topic id goal =>
    some (s.setPhase r (.loginRead (s.logins.read topic id fault) goal))
  | .readUser topic id goal =>
    some (s.setPhase r (.userRead (s.users.read topic id fault) goal))
  | .storeSession topic session sessToken refreshToken =>
    let s := if fault then s
      else { s with sessions := s.sessions.set topic session.id (some session) }
    some (s.setPhase r (.sessionStored (!fault) session sessToken refreshToken))
  | .storeClient session sessToken refreshToken =>
    some (s.setPhase r (.clientStored (!fault) session sessToken refreshToken))
  | _ => none

/-- The callback with what the database did. -/
def callback (s : State Key) (r : Nat) (newId : ObjectId) : Option (State Key) :=
  match s.phases r with
  | .sessionRead token result =>
    match checkSess token result with
    | .error e => some (s.failCheck r e)
    | .ok session => some (s.checkCanLogin r session.login token.topic (.check token session))
  | .loginRead result goal =>
    match checkLogin s.now result with
    | .error e => some (s.fail r goal e)
    | .ok login => some (s.setPhase r (.readUser login.userTopic login.user goal))
  | .userRead result goal =>
    match checkUser result with
    | .error e => some (s.fail r goal e)
    | .ok _ => some (s.loginChecked r newId goal)
  | .sessionStored stored session sessToken refreshToken =>
    if stored then
      some ((s.setRequest r { s.requests r with sessionClientId := session.id }).setPhase r
        (.storeClient session sessToken refreshToken))
    else some (s.failCreate r .other)
  | .clientStored stored session sessToken refreshToken =>
    if stored then some (s.setPhase r (.created session sessToken refreshToken))
    else some (s.failCreate r .other)
  | _ => none

/-- A request is checked or has a session created, once. -/
def isIdle (s : State Key) (r : Nat) : Bool :=
  match s.phases r with
  | .idle => true
  | _ => false

def step (s : State Key) : Event Key Nonce → Option (State Key)
  | .clock now => some { s with now := now }
  | .storeSession topic session =>
    some { s with sessions := s.sessions.set topic session.id (some session) }
  | .removeSession topic id => some { s with sessions := s.sessions.set topic id none }
  | .setLogin topic id login => some { s with logins := s.logins.set topic id login }
  | .setUser topic id user => some { s with users := s.users.set topic id user }
  | .initTokens currentTag handlers =>
    some { s with tokenHandler := s.tokenHandler.init currentTag handlers }
  | .encrypt key nonce plain =>
    (p.format.encrypt key nonce plain).map fun container =>
      { s with encrypted := (key, plain, container) :: s.encrypted }
  | .invoke r holder =>
    if s.isIdle r then
      match holder with
      | none =>
        let e : ResponseError := ⟨.authError, some ApiAuthError.authHeaderFormat.toApiError⟩
        some ((s.setRequest r ((s.requests r).setResponseError e)).setPhase r .rejected)
      | some clientToken => some (s.checkSession p r clientToken)
    else none
  | .createSession r id login user topic sessDraw refreshDraw =>
    if s.isIdle r then some (s.createSession p r id login user topic sessDraw refreshDraw)
    else none
  | .database r fault => s.database r fault
  | .callback r id => s.callback r id

/-- Nothing is stored, and no request has come. -/
def initial (now : DateTime) (tokenHandler : SessionToken Key) : State Key :=
  ⟨now, fun _ _ => none, fun _ _ => none, fun _ _ => none, tokenHandler, [], [], fun _ => .new,
    fun _ => .idle⟩

end State

end Hatn.Serverapp
