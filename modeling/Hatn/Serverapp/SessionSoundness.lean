import Hatn.Order.Histories
import Hatn.Serverapp.SessionCheck

/-!
# Soundness of the session checks

A container that a key of the handlers decrypts was encrypted by `makeToken`, for nothing else is
encrypted with these keys.  So a token that is accepted was issued, and what the later checks see
is found at the moments of their lookups, one behind the other.  The database may have changed by
the time when the check ends.
-/

namespace Hatn.Serverapp

open Hatn.Order Hatn.Dataunit Hatn.Api

variable {Key Nonce : Type} (p : Config Key Nonce) (handlerKey : Key → Prop) (s₀ : State Key)

/-- A container is decrypted only with the key that it was encrypted with, and to what was
encrypted; the keys of the handlers are used for nothing else. -/
def Honest (s : State Key) : Event Key Nonce → Prop
  | .invoke _ (some clientToken) =>
    ∀ key plain, handlerKey key → p.format.decrypt key clientToken.token = some plain →
      (key, plain, clientToken.token) ∈ s.encrypted
  | .encrypt key _ _ => ¬ handlerKey key
  | .initTokens _ handlers => ∀ key ∈ handlers.map Prod.snd, handlerKey key
  | _ => True

/-! ### The moments of a check -/

abbrev Past (P : List (Event Key Nonce) → State Key → Prop) (es : List (Event Key Nonce)) : Prop :=
  Once (State.step p) s₀ P es

/-- The token was issued for a session, and has not expired. -/
def TokenAccepted (token : AuthToken) (_ : List (Event Key Nonce)) (s : State Key) : Prop :=
  (∃ session tokens, (session, tokens) ∈ s.issued ∧ tokens.serverSessionToken = token ∧
    token.session = session.id ∧ token.login = session.login) ∧
  token.tokenType = .session ∧ s.now.after token.expire = false

/-- The session is stored in the topic of the token. -/
def SessionFound (token : AuthToken) (session : Session) (es : List (Event Key Nonce))
    (s : State Key) : Prop :=
  s.sessions token.topic token.session = some session ∧ Past p s₀ (TokenAccepted token) es

/-- The login is stored there. -/
def LoginFound (token : AuthToken) (session : Session) (login : UserLogin)
    (es : List (Event Key Nonce)) (s : State Key) : Prop :=
  s.logins token.topic token.login = some login ∧ Past p s₀ (SessionFound p s₀ token session) es

/-- The login has not expired. -/
def LoginValid (token : AuthToken) (session : Session) (login : UserLogin)
    (es : List (Event Key Nonce)) (s : State Key) : Prop :=
  (∀ e, login.expireAt = some e → s.now.after e = false) ∧
    Past p s₀ (LoginFound p s₀ token session login) es

/-- The user of the login is stored in the topic of the user. -/
def UserFound (token : AuthToken) (session : Session) (login : UserLogin) (user : User)
    (es : List (Event Key Nonce)) (s : State Key) : Prop :=
  s.users login.userTopic login.user = some user ∧
    Past p s₀ (LoginValid p s₀ token session login) es

/-- A session as the token has it. -/
structure Matches (token : AuthToken) (session : Session) : Prop where
  id : session.id = token.session
  login : session.login = token.login
  active : session.active = true

/-- **What a check without an error has seen.** -/
def Authenticated (token : AuthToken) (session : Session) (es : List (Event Key Nonce)) : Prop :=
  Matches token session ∧ ∃ login user, login.blocked = false ∧ user.blocked = false ∧
    Past p s₀ (UserFound p s₀ token session login user) es

/-- What the phase of a check rests on. -/
def Backed (es : List (Event Key Nonce)) : Phase → Prop
  | .readSession token => token.login.Fits ∧ Past p s₀ (TokenAccepted token) es
  | .sessionRead token result => token.login.Fits ∧ ∀ session, result = .ok session →
      session.id = token.session ∧ Past p s₀ (SessionFound p s₀ token session) es
  | .readLogin topic id (.check token session) => topic = token.topic ∧ id = token.login ∧
      Matches token session ∧ Past p s₀ (SessionFound p s₀ token session) es
  | .loginRead result (.check token session) => Matches token session ∧
      ∀ login, result = .ok login → Past p s₀ (LoginFound p s₀ token session login) es
  | .readUser topic id (.check token session) => Matches token session ∧
      ∃ login, login.userTopic = topic ∧ login.user = id ∧ login.blocked = false ∧
        Past p s₀ (LoginValid p s₀ token session login) es
  | .userRead result (.check token session) => Matches token session ∧
      ∃ login, login.blocked = false ∧ ∀ user, result = .ok user →
        Past p s₀ (UserFound p s₀ token session login user) es
  | .checked token session => Authenticated p s₀ token session es
  | _ => True

/-- The request has the data of the session and of the token. -/
structure Request.Identifies (req : Request) (token : AuthToken) (session : Session) : Prop where
  sessionId : req.sessionId = session.id
  login : req.login = session.login
  user : req.user = session.user
  userTopic : req.userTopic = token.topic
  responseError : req.responseError = none

/-- What a request has while it is checked, and behind that. -/
def Request.Fills (req : Request) : Phase → Prop
  | .idle | .readSession _ | .sessionRead _ _ | .readLogin _ _ (.check _ _)
  | .loginRead _ (.check _ _) | .readUser _ _ (.check _ _) | .userRead _ (.check _ _) => req = .new
  | .checked token session => req.Identifies token session
  | .checkFailed e => req = Request.new.setResponseError (e.responseError .authError)
  | _ => True

/-- What is so of the keys, the tokens and the stored sessions. -/
structure Ledger (s : State Key) : Prop where
  keys : ∀ key ∈ s.tokenHandler.keys, handlerKey key
  sealed : ∀ key plain container, (key, plain, container) ∈ s.encrypted → handlerKey key →
    ∃ session tokens, (session, tokens) ∈ s.issued ∧
      p.format.serialize tokens.serverSessionToken = some plain
  issued : ∀ session tokens, (session, tokens) ∈ s.issued →
    tokens.serverSessionToken.session = session.id ∧
      tokens.serverSessionToken.login = session.login
  stored : ∀ topic id session, s.sessions topic id = some session → session.id = id

structure Inv (es : List (Event Key Nonce)) (s : State Key) : Prop extends
    Ledger p handlerKey s where
  backed : ∀ r, Backed p s₀ es (s.phases r)
  fills : ∀ r, (s.requests r).Fills (s.phases r)

variable {p handlerKey s₀} {es : List (Event Key Nonce)} {s : State Key} {r : Nat}

/-! ### Frames -/

theorem Backed.later {phase : Phase} (h : Backed p s₀ es phase) (us : List (Event Key Nonce)) :
    Backed p s₀ (es ++ us) phase := by
  cases phase with
  | readSession token => exact ⟨h.1, h.2.later us⟩
  | sessionRead token result => exact ⟨h.1, fun session hs => (h.2 session hs).imp_right (·.later us)⟩
  | readLogin topic id goal =>
    cases goal with
    | check token session => exact ⟨h.1, h.2.1, h.2.2.1, h.2.2.2.later us⟩
    | create => trivial
  | loginRead result goal =>
    cases goal with
    | check token session => exact ⟨h.1, fun login hl => (h.2 login hl).later us⟩
    | create => trivial
  | readUser topic id goal =>
    cases goal with
    | check token session =>
      obtain ⟨hm, login, ht, hi, hb, hp⟩ := h
      exact ⟨hm, login, ht, hi, hb, hp.later us⟩
    | create => trivial
  | userRead result goal =>
    cases goal with
    | check token session =>
      obtain ⟨hm, login, hb, hp⟩ := h
      exact ⟨hm, login, hb, fun user hu => (hp user hu).later us⟩
    | create => trivial
  | checked token session =>
    obtain ⟨hm, login, user, hl, hu, hp⟩ := h
    exact ⟨hm, login, user, hl, hu, hp.later us⟩
  | _ => trivial

/-- Only this request goes on. -/
structure GoesOn (r : Nat) (s t : State Key) : Prop where
  phases : ∀ r', r' ≠ r → t.phases r' = s.phases r'
  requests : ∀ r', r' ≠ r → t.requests r' = s.requests r'

theorem GoesOn.trans {s t u : State Key} (h : GoesOn r s t) (h' : GoesOn r t u) : GoesOn r s u where
  phases r' hr := (h'.phases r' hr).trans (h.phases r' hr)
  requests r' hr := (h'.requests r' hr).trans (h.requests r' hr)

theorem goesOn_setPhase (s : State Key) (r : Nat) (phase : Phase) :
    GoesOn r s (s.setPhase r phase) where
  phases _ hr := Function.update_of_ne hr _ _
  requests _ _ := rfl

theorem goesOn_setRequest (s : State Key) (r : Nat) (req : Request) :
    GoesOn r s (s.setRequest r req) where
  phases _ _ := rfl
  requests _ hr := Function.update_of_ne hr _ _

/-- A token is issued. -/
theorem Ledger.makeToken (h : Ledger p handlerKey s) {session : Session} {tokenType : TokenType}
    {ttlSecs : UInt32} {topic : String} {draw : Draw Nonce} {t : State Key} {tokens : Tokens}
    (ht : s.makeToken p session tokenType ttlSecs topic draw = some (t, tokens)) :
    Ledger p handlerKey t ∧ t.phases = s.phases ∧ t.requests = s.requests := by
  obtain ⟨⟨u, plain⟩, hu, he⟩ := Option.bind_eq_some_iff.mp ht
  cases he
  obtain ⟨htoken, hs⟩ := SessionToken.makeToken_some hu
  refine ⟨{ h with sealed := ?_, issued := ?_ }, rfl, rfl⟩
  · intro key pl c hc hk
    obtain hc | hc := List.mem_cons.mp hc
    · cases hc
      exact ⟨session, tokens, List.mem_cons_self, hs⟩
    · obtain ⟨session', tokens', hi, hs'⟩ := h.sealed key pl c hc hk
      exact ⟨session', tokens', List.mem_cons_of_mem _ hi, hs'⟩
  · intro session' tokens' hi
    obtain hi | hi := List.mem_cons.mp hi
    · cases hi
      rw [htoken]
      exact ⟨rfl, rfl⟩
    · exact h.issued session' tokens' hi

/-- A session is stored under its id. -/
theorem Ledger.storeSession (h : Ledger p handlerKey s) (topic : String) (session : Session) :
    Ledger p handlerKey
      { s with sessions := s.sessions.set topic session.id (some session) } where
  __ := h
  stored topic' id session' hs := by
    dsimp only [Table.set] at hs
    split at hs
    next hid =>
      cases hs
      exact hid.2.symm
    · exact h.stored topic' id session' hs

theorem Ledger.removeSession (h : Ledger p handlerKey s) (topic : String) (id : ObjectId) :
    Ledger p handlerKey { s with sessions := s.sessions.set topic id none } where
  __ := h
  stored topic' id' session hs := by
    dsimp only [Table.set] at hs
    split at hs
    · cases hs
    · exact h.stored topic' id' session hs

/-- The phases of a creation, and of a request that is not checked. -/
def Phase.IsCreation : Phase → Prop
  | .readLogin _ _ (.create _ _ _ _) | .createFailed _ => True
  | _ => False

theorem Phase.IsCreation.backed {phase : Phase} (h : phase.IsCreation) : Backed p s₀ es phase := by
  cases phase with
  | readLogin topic id goal =>
    cases goal with
    | check => exact h.elim
    | create => trivial
  | createFailed e => trivial
  | _ => exact h.elim

theorem Phase.IsCreation.fills {phase : Phase} (h : phase.IsCreation) (req : Request) :
    req.Fills phase := by
  cases phase with
  | readLogin topic id goal =>
    cases goal with
    | check => exact h.elim
    | create => trivial
  | createFailed e => trivial
  | _ => exact h.elim

variable (p handlerKey) in
/-- A request goes on in the creation of a session. -/
structure Creates (r : Nat) (s t : State Key) : Prop where
  ledger : Ledger p handlerKey t
  goesOn : GoesOn r s t
  phase : (t.phases r).IsCreation

theorem creates_failCreate {t : State Key} (hl : Ledger p handlerKey t) (hg : GoesOn r s t)
    (e : Error) : Creates p handlerKey r s (t.failCreate r e) where
  ledger := { hl with }
  goesOn := hg.trans ((goesOn_setRequest _ r _).trans (goesOn_setPhase _ r _))
  phase := by
    rw [State.failCreate, State.setPhase_phases, Function.update_self]
    trivial

theorem creates_checkCanLogin {t : State Key} (hl : Ledger p handlerKey t) (hg : GoesOn r s t)
    (login : ObjectId) (topic topic' : String) (session : Session) (sessToken refreshToken : Tokens) :
    Creates p handlerKey r s
      (t.checkCanLogin r login topic (.create topic' session sessToken refreshToken)) := by
  rw [State.checkCanLogin]
  split
  · exact creates_failCreate hl hg _
  next id _ =>
    refine ⟨{ hl with }, hg.trans (goesOn_setPhase _ r _), ?_⟩
    rw [State.setPhase_phases, Function.update_self]
    trivial

/-- **A session is created** by a request of its own. -/
theorem creates_createSession (h : Ledger p handlerKey s) (id login user : ObjectId)
    (topic : String) (sessDraw refreshDraw : Draw Nonce) :
    Creates p handlerKey r s
      (s.createSession p r id login user topic sessDraw refreshDraw) := by
  rw [State.createSession]
  generalize hreq : s.setRequest r _ = t
  have hl : Ledger p handlerKey t := by
    subst hreq
    exact { h with }
  have hg : GoesOn r s t := hreq ▸ goesOn_setRequest s r _
  dsimp only
  split
  · exact creates_failCreate hl hg _
  next t₁ sessToken h₁ =>
    obtain ⟨hl₁, hphases, hrequests⟩ := hl.makeToken h₁
    have hg₁ : GoesOn r s t₁ := hg.trans
      ⟨fun r' _ => congrFun hphases r', fun r' _ => congrFun hrequests r'⟩
    split
    · exact creates_failCreate hl₁ hg₁ _
    next t₂ refreshToken h₂ =>
      obtain ⟨hl₂, hphases, hrequests⟩ := hl₁.makeToken h₂
      have hg₂ : GoesOn r s t₂ := hg₁.trans
        ⟨fun r' _ => congrFun hphases r', fun r' _ => congrFun hrequests r'⟩
      exact creates_checkCanLogin hl₂ hg₂ _ _ _ _ _ _

namespace Inv

theorem later (h : Inv p handlerKey s₀ es s) (us : List (Event Key Nonce)) :
    Inv p handlerKey s₀ (es ++ us) s where
  __ := h
  backed r := (h.backed r).later us

theorem goOn (h : Inv p handlerKey s₀ es s) {t : State Key} (ht : Ledger p handlerKey t)
    (hg : GoesOn r s t) (hb : Backed p s₀ es (t.phases r))
    (hf : (t.requests r).Fills (t.phases r)) : Inv p handlerKey s₀ es t where
  __ := ht
  backed r' := by
    by_cases hr : r' = r
    · exact hr ▸ hb
    · exact hg.phases r' hr ▸ h.backed r'
  fills r' := by
    by_cases hr : r' = r
    · exact hr ▸ hf
    · exact hg.phases r' hr ▸ hg.requests r' hr ▸ h.fills r'

theorem setRequest (h : Inv p handlerKey s₀ es s) {req : Request} {phase : Phase}
    (hb : Backed p s₀ es phase) (hf : req.Fills phase) :
    Inv p handlerKey s₀ es ((s.setRequest r req).setPhase r phase) := by
  refine h.goOn (r := r) { h with } ((goesOn_setRequest s r req).trans (goesOn_setPhase _ r phase))
    ?_ ?_
  · rw [State.setPhase_phases, Function.update_self]
    exact hb
  · rw [State.setPhase_phases, Function.update_self, State.setPhase_requests,
      State.setRequest_requests, Function.update_self]
    exact hf

theorem setPhase (h : Inv p handlerKey s₀ es s) {phase : Phase} (hb : Backed p s₀ es phase)
    (hf : (s.requests r).Fills phase) : Inv p handlerKey s₀ es (s.setPhase r phase) := by
  have hset : s.setRequest r (s.requests r) = s := by
    rw [State.setRequest, Function.update_eq_self]
  have := h.setRequest (r := r) hb hf
  rwa [hset] at this

theorem failCheck (h : Inv p handlerKey s₀ es s) (hn : s.requests r = .new) (e : Error) :
    Inv p handlerKey s₀ es (s.failCheck r e) :=
  h.setRequest trivial (congrArg (Request.setResponseError · (e.responseError .authError)) hn)

theorem failCreate (h : Inv p handlerKey s₀ es s) (e : Error) :
    Inv p handlerKey s₀ es (s.failCreate r e) :=
  h.setRequest trivial trivial

/-- `checkCanLogin` fails for the request of a check that has no data, or for another one. -/
theorem fail (h : Inv p handlerKey s₀ es s) {goal : Goal}
    (hf : ∀ token session, goal = .check token session → s.requests r = .new) (e : Error) :
    Inv p handlerKey s₀ es (s.fail r goal e) := by
  cases goal with
  | check token session => exact h.failCheck (hf token session rfl) e
  | create => exact h.failCreate e

/-! ### Issued tokens -/

/-- **What is decrypted with the key of a handler was issued.** -/
theorem accepted (h : Inv p handlerKey s₀ es s) {c : AuthWithToken} {token : AuthToken}
    (hh : ∀ key plain, handlerKey key → p.format.decrypt key c.token = some plain →
      (key, plain, c.token) ∈ s.encrypted)
    (hp : s.tokenHandler.parseToken p.format c .session s.now = .ok token) :
    TokenAccepted token es s ∧ token.login.Fits := by
  obtain ⟨key, hkey, plain, hd, ht, htype, hexp⟩ := SessionToken.parseToken_ok hp
  have hk : handlerKey key := h.keys key hkey
  obtain ⟨session, tokens, hi, hs⟩ := h.sealed key plain c.token (hh key plain hk hd) hk
  obtain rfl : token = tokens.serverSessionToken :=
    p.format.deserialize_serialize _ _ _ hs ht
  obtain ⟨hid, hlogin⟩ := h.issued session tokens hi
  exact ⟨⟨⟨session, tokens, hi, rfl, hid, hlogin⟩, htype, hexp⟩, p.format.fits _ _ ht⟩

theorem checkCanLogin (h : Inv p handlerKey s₀ es s) {login : ObjectId} {topic : String}
    {goal : Goal} (hf : ∀ token session, goal = .check token session → s.requests r = .new)
    (hb : ∀ token session, goal = .check token session → login = token.login ∧ login.Fits ∧
      topic = token.topic ∧ Matches token session ∧ Past p s₀ (SessionFound p s₀ token session) es) :
    Inv p handlerKey s₀ es (s.checkCanLogin r login topic goal) := by
  rw [State.checkCanLogin]
  split
  · exact h.fail hf _
  next id hid =>
    cases goal with
    | create => exact h.setPhase trivial trivial
    | check token session =>
      obtain ⟨rfl, hfits, rfl, hm, hp⟩ := hb token session rfl
      rw [ObjectId.parse_serialize hfits] at hid
      cases hid
      exact h.setPhase ⟨rfl, rfl, hm, hp⟩ (hf token session rfl)

theorem createSession (h : Inv p handlerKey s₀ es s) (id login user : ObjectId) (topic : String)
    (sessDraw refreshDraw : Draw Nonce) :
    Inv p handlerKey s₀ es (s.createSession p r id login user topic sessDraw refreshDraw) := by
  have hc := creates_createSession (r := r) h.toLedger id login user topic sessDraw refreshDraw
  exact h.goOn hc.ledger hc.goesOn hc.phase.backed (hc.phase.fills _)

theorem checkSession (h : Inv p handlerKey s₀ es s) (hr : runTo (State.step p) s₀ es = some s)
    {c : AuthWithToken} (hn : s.requests r = .new)
    (hh : ∀ key plain, handlerKey key → p.format.decrypt key c.token = some plain →
      (key, plain, c.token) ∈ s.encrypted) :
    Inv p handlerKey s₀ es (s.checkSession p r c) := by
  rw [State.checkSession]
  split
  · exact h.failCheck hn _
  next token hp =>
    obtain ⟨ha, hfits⟩ := h.accepted hh hp
    exact h.setPhase ⟨hfits, .here hr ha⟩ hn

/-! ### Steps -/

theorem database (h : Inv p handlerKey s₀ es s) (hr : runTo (State.step p) s₀ es = some s)
    {fault : Bool} {t : State Key} (ht : s.database r fault = some t) :
    Inv p handlerKey s₀ es t := by
  have hb := h.backed r
  have hf := h.fills r
  rw [State.database] at ht
  split at ht
  next token hph =>
    cases ht
    rw [hph] at hb hf
    refine h.setPhase ⟨hb.1, fun session hs => ?_⟩ hf
    have hs := Table.read_ok hs
    exact ⟨h.stored _ _ _ hs, .here hr ⟨hs, hb.2⟩⟩
  next topic id goal hph =>
    cases ht
    rw [hph] at hb hf
    cases goal with
    | create => exact h.setPhase trivial trivial
    | check token session =>
      obtain ⟨rfl, rfl, hm, hp⟩ := hb
      exact h.setPhase ⟨hm, fun login hl => .here hr ⟨Table.read_ok hl, hp⟩⟩ hf
  next topic id goal hph =>
    cases ht
    rw [hph] at hb hf
    cases goal with
    | create => exact h.setPhase trivial trivial
    | check token session =>
      obtain ⟨hm, login, rfl, rfl, hblocked, hp⟩ := hb
      exact h.setPhase
        ⟨hm, login, hblocked, fun user hu => .here hr ⟨Table.read_ok hu, hp⟩⟩ hf
  next topic session sessToken refreshToken hph =>
    cases ht
    cases fault with
    | true => exact h.setPhase trivial trivial
    | false =>
      have hs : Inv p handlerKey s₀ es
          { s with sessions := s.sessions.set topic session.id (some session) } :=
        { h.toLedger.storeSession topic session, h with }
      exact hs.setPhase trivial trivial
  next session sessToken refreshToken hph =>
    cases ht
    exact h.setPhase trivial trivial
  · cases ht

theorem loginChecked (h : Inv p handlerKey s₀ es s) {newId : ObjectId} {goal : Goal}
    (hf : ∀ token session, goal = .check token session → s.requests r = .new)
    (hb : ∀ token session, goal = .check token session → Authenticated p s₀ token session es) :
    Inv p handlerKey s₀ es (s.loginChecked r newId goal) := by
  cases goal with
  | create => exact h.setPhase trivial trivial
  | check token session =>
    refine h.setRequest (hb token session rfl) ⟨rfl, rfl, rfl, rfl, ?_⟩
    rw [hf token session rfl]
    rfl

theorem callback (h : Inv p handlerKey s₀ es s) (hr : runTo (State.step p) s₀ es = some s)
    {newId : ObjectId} {t : State Key} (ht : s.callback r newId = some t) :
    Inv p handlerKey s₀ es t := by
  have hb := h.backed r
  have hf := h.fills r
  rw [State.callback] at ht
  split at ht
  next token result hph =>
    rw [hph] at hb hf
    split at ht
    next e _ =>
      cases ht
      exact h.failCheck hf e
    next session hs =>
      cases ht
      obtain ⟨rfl, ha, hl⟩ := checkSess_ok hs
      obtain ⟨hid, hp⟩ := hb.2 session rfl
      refine h.checkCanLogin (fun _ _ _ => hf) ?_
      rintro _ _ ⟨⟩
      exact ⟨hl, hl ▸ hb.1, rfl, ⟨hid, hl, ha⟩, hp⟩
  next result goal hph =>
    rw [hph] at hb hf
    split at ht
    next e _ =>
      cases ht
      refine h.fail ?_ e
      rintro _ _ rfl
      exact hf
    next login hl =>
      cases ht
      obtain ⟨rfl, hblocked, hexp⟩ := checkLogin_ok hl
      cases goal with
      | create => exact h.setPhase trivial trivial
      | check token session =>
        exact h.setPhase
          ⟨hb.1, login, rfl, rfl, hblocked, .here hr ⟨hexp, hb.2 login rfl⟩⟩ hf
  next result goal hph =>
    rw [hph] at hb hf
    split at ht
    next e _ =>
      cases ht
      refine h.fail ?_ e
      rintro _ _ rfl
      exact hf
    next user hu =>
      cases ht
      obtain ⟨rfl, hblocked⟩ := checkUser_ok hu
      refine h.loginChecked ?_ ?_
      · rintro _ _ rfl
        exact hf
      · rintro _ _ rfl
        obtain ⟨hm, login, hl, hp⟩ := hb
        exact ⟨hm, login, user, hl, hblocked, hp user rfl⟩
  next stored session sessToken refreshToken hph =>
    split at ht
    · cases ht
      exact h.setRequest trivial trivial
    · cases ht
      exact h.failCreate _
  next stored session sessToken refreshToken hph =>
    split at ht
    · cases ht
      exact h.setPhase trivial trivial
    · cases ht
      exact h.failCreate _
  · cases ht

theorem step (h : Inv p handlerKey s₀ es s) (hr : runTo (State.step p) s₀ es = some s)
    {e : Event Key Nonce} {t : State Key} (ht : State.step p s e = some t)
    (hh : Honest p handlerKey s e) : Inv p handlerKey s₀ es t := by
  cases e with
  | clock now | setLogin topic id login | setUser topic id user =>
    cases ht
    exact { h with }
  | storeSession topic session =>
    cases ht
    exact { h.toLedger.storeSession topic session, h with }
  | removeSession topic id =>
    cases ht
    exact { h.toLedger.removeSession topic id, h with }
  | initTokens currentTag handlers =>
    cases ht
    refine { h with keys := fun key hk => ?_ }
    exact (SessionToken.init_keys hk).elim (h.keys key) (hh key)
  | encrypt key nonce plain =>
    obtain ⟨container, -, rfl⟩ := Option.map_eq_some_iff.mp ht
    refine { h with sealed := fun key' pl c hc hk => ?_ }
    obtain hc | hc := List.mem_cons.mp hc
    · cases hc
      exact absurd hk hh
    · exact h.sealed key' pl c hc hk
  | invoke r holder =>
    dsimp only [State.step] at ht
    split at ht
    next hidle =>
      have hn : s.requests r = .new := by
        have hf := h.fills r
        rw [State.isIdle] at hidle
        split at hidle
        next hph =>
          rw [hph] at hf
          exact hf
        · cases hidle
      cases holder with
      | none =>
        cases ht
        exact h.setRequest trivial trivial
      | some c =>
        cases ht
        exact h.checkSession hr hn hh
    · cases ht
  | createSession r id login user topic sessDraw refreshDraw =>
    rw [State.step] at ht
    split at ht
    · cases ht
      exact h.createSession id login user topic sessDraw refreshDraw
    · cases ht
  | database r fault => exact h.database hr ht
  | callback r newId => exact h.callback hr ht

/-- **Behind an honest run.** -/
theorem behind (hinit : Inv p handlerKey s₀ [] s₀)
    (hh : RegularRun (State.step p) (Honest p handlerKey) s₀ es)
    (hr : runTo (State.step p) s₀ es = some s) : Inv p handlerKey s₀ es s :=
  hh.history hinit (fun _ _ _ _ hrun h ht hhonest => (h.step hrun ht hhonest).later _) es hr

theorem initial {now : DateTime} {t : SessionToken Key} (hk : ∀ key ∈ t.keys, handlerKey key) :
    Inv p handlerKey (State.initial now t) [] (State.initial now t) where
  keys := hk
  sealed _ _ _ h := absurd h List.not_mem_nil
  issued _ _ h := absurd h List.not_mem_nil
  stored _ _ _ h := absurd h.symm (Option.some_ne_none _)
  backed _ := trivial
  fills _ := rfl

end Inv

/-! ### What becomes of a request -/

/-- The server answers the request with the error, and does not dispatch it. -/
def Request.Refused (req : Request) : Prop :=
  ∃ e, req.responseError = some e ∧ e.status ≠ .success ∧
    ∀ (setup : Server.Setup) (srv : Server.State) (sreq : Server.Request) (close : Bool)
      (left : Nat), let t := srv.authCallback setup sreq close req.responseError left
      t.dispatched = srv.dispatched ∧
        (srv.closed = false → close = false → srv.hasContext = true →
          ∃ answer, t.answered = srv.answered ++ [answer] ∧ answer.unit.status = some e.status)

theorem sendResponse_dispatched (setup : Server.Setup) (srv : Server.State)
    (sreq : Server.Request) (ctx : Bool) :
    (srv.sendResponse setup sreq ctx).dispatched = srv.dispatched := by
  rw [Server.State.sendResponse]
  split
  · rfl
  · cases ctx <;> rfl

theorem sendResponse_answered (setup : Server.Setup) {srv : Server.State} {sreq : Server.Request}
    {e : ResponseError} (hc : srv.closed = false) (he : sreq.responseError = some e) :
    ∃ answer, (srv.sendResponse setup sreq true).answered = srv.answered ++ [answer] ∧
      answer.unit.status = some e.status := by
  have hstatus := setResponseStatus_status setup.serializer sreq.responseError sreq.unit
  rw [he] at hstatus
  rw [Server.State.sendResponse, if_neg (by rw [hc]; exact Bool.false_ne_true)]
  refine ⟨_, rfl, ?_⟩
  rw [he]
  split
  · exact hstatus
  · exact hstatus

theorem refused_of_error {req : Request} {e : ResponseError} (he : req.responseError = some e)
    (hs : e.status ≠ .success) : req.Refused := by
  refine ⟨e, he, hs, fun setup srv sreq close left => ?_⟩
  rw [he]
  dsimp only
  constructor
  · rw [Server.State.authCallback]
    dsimp only
    split_ifs
    · rfl
    · rfl
    · exact sendResponse_dispatched setup _ _ _
    · exact sendResponse_dispatched setup _ _ _
    all_goals contradiction
  · intro hc hclose hctx
    have hopen : ¬ srv.closed = true := by rw [hc]; exact Bool.false_ne_true
    rw [Server.State.authCallback, if_neg hopen, hclose, hctx]
    exact sendResponse_answered setup hc rfl

theorem Error.responseError_status (e : Error) : (e.responseError .authError).status ≠ .success := by
  cases e <;> exact nofun

/-! ### A run -/

namespace Sample

def login : ObjectId := ⟨1, 1, 1⟩

def user : ObjectId := ⟨2, 1, 1⟩

def session : Session := ⟨⟨3, 1, 1⟩, ⟨1000⟩, login, true, ⟨31536001000⟩, user⟩

def sessDraw : Draw Unit := ⟨⟨4, 1, 1⟩, ()⟩

def refreshDraw : Draw Unit := ⟨⟨5, 1, 1⟩, ()⟩

def sessToken : AuthToken := SessionToken.serverToken session .session 21600 "t" sessDraw.id ⟨1000⟩

def refreshToken : AuthToken :=
  SessionToken.serverToken session .refresh 2592000 "t" refreshDraw.id ⟨1000⟩

/-- The two tokens are written as a byte each, and the key stands before what it encrypts. -/
def format : TokenFormat UInt8 Unit where
  serialize t := if t = sessToken then some [1] else if t = refreshToken then some [2] else none
  deserialize l := if l = [1] then some sessToken else if l = [2] then some refreshToken else none
  encrypt key _ plain := some (key :: plain)
  decrypt key container := if container.head? = some key then some container.tail else none
  deserialize_serialize t l u hs hd := by
    split_ifs at hs with h₁ h₂
    · cases hs
      rw [h₁]
      exact (Option.some.inj hd).symm
    · cases hs
      rw [h₂]
      exact (Option.some.inj hd).symm
  fits l t hd := by
    split_ifs at hd with h₁ h₂
    · cases hd
      decide
    · cases hd
      decide

def config : Config UInt8 Unit := ⟨format, 21600, 2592000, 31536000⟩

def start : State UInt8 := State.initial ⟨1000⟩ ⟨"tag", [("tag", 7)], 7⟩

/-- A session is created, and its token comes with another request. -/
def creation : List (Event UInt8 Unit) :=
  [.setLogin "t" login (some ⟨false, none, user, "u"⟩), .setUser "u" user (some ⟨false⟩),
    .createSession 0 session.id login user "t" sessDraw refreshDraw,
    .database 0 false, .callback 0 nullId, .database 0 false, .callback 0 nullId,
    .database 0 false, .callback 0 nullId, .database 0 false, .callback 0 nullId]

/-- The token is parsed, and the session is found. -/
def parsing : List (Event UInt8 Unit) :=
  [.invoke 1 (some ⟨[7, 1], "tag"⟩), .database 1 false, .callback 1 nullId]

/-- The login and the user are found. -/
def lookups : List (Event UInt8 Unit) :=
  [.database 1 false, .callback 1 nullId, .database 1 false]

/-- The session is not active any more. -/
def deactivation : Event UInt8 Unit := .storeSession "t" { session with active := false }

end Sample

end Hatn.Serverapp
