import Hatn.Dataunit.ObjectId

/-!
# Tokens of sessions

A token is a unit that is serialized and put into an encrypted container.  The client gets the
container with the tag of the key, and an expiration time for its own use.  The server finds the
key by the tag, and trusts what it decrypts.
-/

namespace Hatn.Serverapp

open Hatn.Dataunit

abbrev Bytes := List UInt8

/-- A time point, by the milliseconds that `after` compares. -/
structure DateTime where
  epochMs : Int
  deriving DecidableEq

namespace DateTime

def after (a b : DateTime) : Bool := b.epochMs < a.epochMs

/-- `addSeconds`; its argument is an `int`. -/
def addSeconds (a : DateTime) (value : Int32) : DateTime := ⟨a.epochMs + 1000 * value.toInt⟩

end DateTime

/-- `session` -/
structure Session where
  id : ObjectId
  createdAt : DateTime
  login : ObjectId
  active : Bool
  ttl : DateTime
  user : ObjectId
  deriving DecidableEq

inductive TokenType
  | session
  | refresh
  deriving DecidableEq

/-- `auth_token` of the server -/
structure AuthToken where
  id : ObjectId
  session : ObjectId
  createdAt : DateTime
  sessionCreatedAt : DateTime
  expire : DateTime
  login : ObjectId
  topic : String
  tokenType : TokenType
  deriving DecidableEq

/-- `auth_with_token`: what a client presents. -/
structure AuthWithToken where
  token : Bytes
  tag : String

/-- `auth_token` of the client -/
structure ClientToken extends AuthWithToken where
  expire : DateTime

/-- What tokens are written and read with. -/
structure TokenFormat (Key Nonce : Type) where
  serialize : AuthToken → Option Bytes
  deserialize : Bytes → Option AuthToken
  /-- `CryptContainer::pack` -/
  encrypt : Key → Nonce → Bytes → Option Bytes
  /-- `CryptContainer::unpack` -/
  decrypt : Key → Bytes → Option Bytes
  /-- What is read from a serialized token is this token, if anything is. -/
  deserialize_serialize : ∀ t l u, serialize t = some l → deserialize l = some u → u = t
  /-- Ids are read from their digits. -/
  fits : ∀ l t, deserialize l = some t → t.login.Fits

/-- The errors of `parseToken`; those of the decryption and the deserialization are one. -/
inductive TokenError
  | tagInvalid
  | notParsed
  | invalidType
  | expired
  deriving DecidableEq

variable {Key Nonce : Type}

namespace TokenFormat

variable (f : TokenFormat Key Nonce)

/-- `EncryptedToken::serializeToken`: the bytes that are encrypted, and the container. -/
def serializeToken (key : Key) (nonce : Nonce) (token : AuthToken) : Option (Bytes × Bytes) := do
  let plain ← f.serialize token
  let container ← f.encrypt key nonce plain
  return (plain, container)

/-- `EncryptedToken::parseToken` -/
def parseToken (key : Key) (container : Bytes) : Option AuthToken := do
  let plain ← f.decrypt key container
  f.deserialize plain

end TokenFormat

/-- `SessionToken`; a handler is known by its key. -/
structure SessionToken (Key : Type) where
  currentTag : String
  tagTokenHandlers : List (String × Key)
  currentTokenHandler : Key

/-- `SessionToken::Tokens` -/
structure Tokens where
  clientToken : ClientToken
  serverSessionToken : AuthToken

/-- What `makeToken` takes from elsewhere: a new id, the time, and what the encryption draws. -/
structure Draw (Nonce : Type) where
  id : ObjectId
  nonce : Nonce

namespace SessionToken

/-- The keys that tokens may be decrypted with. -/
def keys (t : SessionToken Key) : List Key :=
  t.currentTokenHandler :: t.tagTokenHandlers.map Prod.snd

/-- `init`: when the tag has no handler, the old one stays with the new tag. -/
def init (t : SessionToken Key) (currentTag : String) (handlers : List (String × Key)) :
    SessionToken Key :=
  ⟨currentTag, handlers, (handlers.lookup currentTag).getD t.currentTokenHandler⟩

/-- The token that `makeToken` fills. -/
def serverToken (session : Session) (tokenType : TokenType) (ttlSecs : UInt32) (topic : String)
    (id : ObjectId) (now : DateTime) : AuthToken where
  id := id
  session := session.id
  createdAt := now
  sessionCreatedAt := session.createdAt
  expire := now.addSeconds ttlSecs.toInt32
  login := session.login
  topic := topic
  tokenType := tokenType

/-- `makeToken`, with the bytes that it encrypts. -/
def makeToken (t : SessionToken Key) (f : TokenFormat Key Nonce) (session : Session)
    (tokenType : TokenType) (ttlSecs : UInt32) (topic : String) (draw : Draw Nonce)
    (now : DateTime) : Option (Tokens × Bytes) := do
  let token := serverToken session tokenType ttlSecs topic draw.id now
  let (plain, container) ← f.serializeToken t.currentTokenHandler draw.nonce token
  return (⟨⟨⟨container, t.currentTag⟩, token.expire⟩, token⟩, plain)

/-- The handler for a tag. -/
def handler (t : SessionToken Key) (tag : String) : Option Key :=
  if tag = t.currentTag then some t.currentTokenHandler else t.tagTokenHandlers.lookup tag

/-- `parseToken` -/
def parseToken (t : SessionToken Key) (f : TokenFormat Key Nonce) (clientToken : AuthWithToken)
    (tokenType : TokenType) (now : DateTime) : Except TokenError AuthToken :=
  match t.handler clientToken.tag with
  | none => .error .tagInvalid
  | some key =>
    match f.parseToken key clientToken.token with
    | none => .error .notParsed
    | some token =>
      if tokenType ≠ token.tokenType then .error .invalidType
      else if now.after token.expire then .error .expired
      else .ok token

theorem mem_of_lookup {handlers : List (String × Key)} {tag : String} {key : Key}
    (h : handlers.lookup tag = some key) : key ∈ handlers.map Prod.snd := by
  obtain ⟨l₁, l₂, rfl, -⟩ := List.lookup_eq_some_iff.mp h
  simp

theorem handler_mem {t : SessionToken Key} {tag : String} {key : Key}
    (h : t.handler tag = some key) : key ∈ t.keys := by
  rw [handler] at h
  split at h
  · cases h
    exact List.mem_cons_self
  · exact List.mem_cons_of_mem _ (mem_of_lookup h)

theorem init_keys {t : SessionToken Key} {tag : String} {handlers : List (String × Key)}
    {key : Key} (h : key ∈ (t.init tag handlers).keys) :
    key ∈ t.keys ∨ key ∈ handlers.map Prod.snd := by
  rw [keys, List.mem_cons] at h
  obtain h | h := h
  · rw [init] at h
    cases hl : handlers.lookup tag with
    | none =>
      rw [hl] at h
      exact .inl (h ▸ List.mem_cons_self)
    | some k =>
      rw [hl] at h
      obtain rfl : key = k := h
      exact .inr (mem_of_lookup hl)
  · exact .inr h

/-- **What a token that is accepted was decrypted from.** -/
theorem parseToken_ok {t : SessionToken Key} {f : TokenFormat Key Nonce} {c : AuthWithToken}
    {tokenType : TokenType} {now : DateTime} {token : AuthToken}
    (h : t.parseToken f c tokenType now = .ok token) :
    ∃ key ∈ t.keys, ∃ plain, f.decrypt key c.token = some plain ∧
      f.deserialize plain = some token ∧ token.tokenType = tokenType ∧
      now.after token.expire = false := by
  rw [parseToken] at h
  split at h
  · cases h
  next key hkey =>
    split at h
    · cases h
    next u hu =>
      obtain ⟨plain, hd, hp⟩ := Option.bind_eq_some_iff.mp hu
      split_ifs at h with ht he
      cases h
      exact ⟨key, handler_mem hkey, plain, hd, hp, (not_not.mp ht).symm, by simpa using he⟩

/-- **What an issued token is.** -/
theorem makeToken_some {t : SessionToken Key} {f : TokenFormat Key Nonce} {session : Session}
    {tokenType : TokenType} {ttlSecs : UInt32} {topic : String} {draw : Draw Nonce} {now : DateTime}
    {tokens : Tokens} {plain : Bytes}
    (h : t.makeToken f session tokenType ttlSecs topic draw now = some (tokens, plain)) :
    tokens.serverSessionToken = serverToken session tokenType ttlSecs topic draw.id now ∧
      f.serialize tokens.serverSessionToken = some plain := by
  obtain ⟨⟨p, container⟩, hs, he⟩ := Option.bind_eq_some_iff.mp h
  cases he
  obtain ⟨l, hl, hc⟩ := Option.bind_eq_some_iff.mp hs
  obtain ⟨c, -, hc⟩ := Option.bind_eq_some_iff.mp hc
  cases hc
  exact ⟨rfl, hl⟩

end SessionToken

end Hatn.Serverapp
