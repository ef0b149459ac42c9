import Mathlib.Data.List.Basic

/-!
# The client of SOCKS5 proxies

The client prepares a request and says how many bytes of the response it wants next, and the caller
sends the one and receives the others.  A conforming server answers the negotiation, the
authentication and the connect request, each with one message of the protocol.

No handshake comes to its end: in front of the address of a connect response eight bytes are
received where the message has five.  The messages to the server are not those of the protocol
either: the negotiation request has a byte too many, the password is put behind as many bytes as it
has itself and not behind the login, and there is room for six bytes of an IPv6 address.
-/

namespace Hatn.Network.Socks5

abbrev Bytes := List UInt8

inductive Address
  | v4 (bytes : {l : Bytes // l.length = 4})
  | v6 (bytes : {l : Bytes // l.length = 16})
  deriving DecidableEq

def Address.isV4 : Address → Bool
  | .v4 _ => true
  | .v6 _ => false

/-- `to_bytes` -/
def Address.bytes : Address → Bytes
  | .v4 b => b.1
  | .v6 b => b.1

/-- The default address of `boost::asio`. -/
def Address.any : Address := .v4 ⟨[0, 0, 0, 0], rfl⟩

def Address.isUnspecified (a : Address) : Bool := a.bytes.all (· = 0)

structure Target where
  address : Address
  port : UInt16
  domain : Bytes
  deriving DecidableEq

/-- `clear` -/
def Target.empty : Target := ⟨.any, 0, []⟩

def Target.isValid (t : Target) : Bool :=
  t.port ≠ 0 && (!t.address.isUnspecified || (!t.domain.isEmpty && decide (t.domain.length < 255)))

inductive State
  | idle | negotiation | auth | connect | receiveAddress | done
  deriving DecidableEq

inductive StepStatus
  | done | sendAndReceive | receive | fail
  deriving DecidableEq

inductive NetworkError
  | proxyInvalidParameters
  | proxyUnsupportedVersion
  | proxyUnsupportedAuthMethod
  | proxyAuthFailed
  | proxyReportedError
  deriving DecidableEq

/-! ### The constants of the protocol -/

def socks5Version : UInt8 := 5
def socks5AuthVersion : UInt8 := 1
def methodNoAuth : UInt8 := 0
def methodUsernamePassword : UInt8 := 2
def commandConnect : UInt8 := 1
def commandUdpAssociate : UInt8 := 3
def respSuccess : UInt8 := 0
def addressIp4 : UInt8 := 1
def addressDomain : UInt8 := 3
def addressIp6 : UInt8 := 4

/-- `sizeof(Socks5NegRequest)`, of the array of `Length` bytes -/
def negRequestLength : Nat := 5
def negResponseLength : Nat := 2
/-- `sizeof(Socks5ConnectHeaderPart)` -/
def connectHeaderPartLength : Nat := 5
/-- `sizeof(Socks5ConnectHeaderPart::Length)`, the size of a `size_t` -/
def sizeofLength : Nat := 8

/-! ### Buffers -/

/-- A buffer gets another size.  What nobody has written is what is in the memory. -/
def resize (memory : Nat → UInt8) (b : Bytes) (size : Nat) : Bytes :=
  (List.range size).map fun i => b.getD i (memory i)

@[simp] theorem length_resize (memory : Nat → UInt8) (b : Bytes) (size : Nat) :
    (resize memory b size).length = size := by
  simp [resize]

/-- `memcpy` into a buffer, as far as it is in the buffer. -/
def copyTo (b : Bytes) (offset : Nat) (bytes : Bytes) : Bytes :=
  b.mapIdx fun i x => if offset ≤ i then bytes.getD (i - offset) x else x

@[simp] theorem length_copyTo (b : Bytes) (offset : Nat) (bytes : Bytes) :
    (copyTo b offset bytes).length = b.length := by
  simp [copyTo]

/-- The bytes of a number in network order. -/
def bigEndian (n : UInt16) : Bytes := [(n >>> 8).toUInt8, n.toUInt8]

/-- `htons` of the number in two bytes. -/
def fromBigEndian (b : Bytes) : UInt16 :=
  ((b.getD 0 0).toUInt16 <<< 8) ||| (b.getD 1 0).toUInt16

/-! ### The client -/

structure Client where
  state : State
  error : Option NetworkError
  destination : Target
  request : Bytes
  response : Bytes
  login : Bytes
  password : Bytes
  udp : Bool
  addressType : UInt8
  addressLength : UInt8
  result : Target
  /-- Something was written behind the end of the request buffer. -/
  overrun : Bool

namespace Client

/-- `memcpy` into the request buffer. -/
def put (c : Client) (offset : Nat) (bytes : Bytes) : Client :=
  { c with
    request := copyTo c.request offset bytes
    overrun := c.overrun || decide (c.request.length < offset + bytes.length) }

def failWith (c : Client) (e : NetworkError) : Client × StepStatus :=
  ({ c with error := some e }, .fail)

variable (memory : Nat → UInt8)

def resizeRequest (c : Client) (size : Nat) : Client :=
  { c with request := resize memory c.request size }

def resizeResponse (c : Client) (size : Nat) : Client :=
  { c with response := resize memory c.response size }

/-- The address or the domain, and the port. -/
def putDestination (c : Client) : Client :=
  let dest := c.destination
  if dest.domain.isEmpty then
    let c := c.resizeRequest memory
      ((if dest.address.isV4 then 4 else 6) + connectHeaderPartLength - 1 + 2)
    let c := c.put 3 [if dest.address.isV4 then addressIp4 else addressIp6]
    let c := c.put 4 [0]
    let c := c.put (connectHeaderPartLength - 1) dest.address.bytes
    c.put (connectHeaderPartLength - 1 + dest.address.bytes.length) (bigEndian dest.port)
  else
    let c := c.resizeRequest memory (connectHeaderPartLength + dest.domain.length + 2)
    let c := c.put 3 [addressDomain]
    let c := c.put 4 [UInt8.ofNat dest.domain.length]
    let c := c.put connectHeaderPartLength dest.domain
    c.put (connectHeaderPartLength + dest.domain.length) (bigEndian dest.port)

def sendConnectRequest (c : Client) : Client :=
  let c := c.putDestination memory
  let c := c.put 0 [socks5Version]
  let c := c.put 2 [0]
  let c := c.put 1 [if c.udp then commandUdpAssociate else commandConnect]
  { c.resizeResponse memory sizeofLength with state := .connect }

/-- The request with login and password. -/
def sendAuthRequest (c : Client) : Client :=
  let c := c.resizeRequest memory (3 + c.login.length + c.password.length)
  let c := c.put 0 [socks5AuthVersion]
  let c := c.put 1 [UInt8.ofNat c.login.length]
  let c := c.put 2 c.login
  let c := c.put (2 + c.password.length) [UInt8.ofNat c.password.length]
  let c := c.put (2 + c.password.length + 1) c.password
  { c.resizeResponse memory 2 with state := .auth }

/-- `State::Idle` -/
def nextIdle (c : Client) : Client × StepStatus :=
  if !c.destination.isValid then c.failWith .proxyInvalidParameters
  else
    let c := c.resizeRequest memory negRequestLength
    let c := c.put 0 [socks5Version]
    let c := c.put 1 [2]
    let c := c.put 2 [methodNoAuth]
    let c := c.put 3 [methodUsernamePassword]
    ({ c.resizeResponse memory negResponseLength with state := .negotiation }, .sendAndReceive)

/-- `State::Negotiation` -/
def nextNegotiation (c : Client) : Client × StepStatus :=
  if c.response.getD 0 0 ≠ socks5Version then c.failWith .proxyUnsupportedVersion
  else if c.response.getD 1 0 = methodNoAuth then
    (c.sendConnectRequest memory, .sendAndReceive)
  else if c.response.getD 1 0 = methodUsernamePassword then
    (c.sendAuthRequest memory, .sendAndReceive)
  else c.failWith .proxyUnsupportedAuthMethod

/-- `State::Auth` -/
def nextAuth (c : Client) : Client × StepStatus :=
  if c.response.getD 0 0 ≠ socks5AuthVersion then c.failWith .proxyUnsupportedVersion
  else if c.response.getD 1 0 ≠ 0 then c.failWith .proxyAuthFailed
  else (c.sendConnectRequest memory, .sendAndReceive)

/-- `State::Connect` -/
def nextConnect (c : Client) : Client × StepStatus :=
  let c := { c with request := [] }
  if c.response.getD 0 0 ≠ socks5Version then c.failWith .proxyUnsupportedVersion
  else if c.response.getD 1 0 ≠ respSuccess then c.failWith .proxyReportedError
  else
    let addressType := c.response.getD 3 0
    let addressLength := c.response.getD 4 0
    let c := { c with
      state := .receiveAddress, addressType := addressType, addressLength := addressLength }
    if addressType = addressIp4 then (c.resizeResponse memory (3 + 2), .receive)
    else if addressType = addressIp6 then (c.resizeResponse memory (3 + 2 + 2), .receive)
    else if addressLength = 0 then (c, .fail)
    else (c.resizeResponse memory (addressLength.toNat + 2), .receive)

/-- The bytes of an address: the first octet, those of the response, and what is in the memory. -/
def addressBytes (c : Client) (size count : Nat) : Bytes :=
  resize memory (c.addressLength :: c.response.take count) size

/-- What the second part of the response says. -/
def receivedTarget (c : Client) : Target :=
  if c.addressType = addressIp4 then
    { c.result with
      address := .v4 ⟨c.addressBytes memory 4 3, length_resize _ _ _⟩
      port := fromBigEndian (c.response.drop 3) }
  else if c.addressType = addressIp6 then
    { c.result with
      address := .v6 ⟨c.addressBytes memory 16 5, length_resize _ _ _⟩
      port := fromBigEndian (c.response.drop 5) }
  else if c.addressType = addressDomain then
    { c.result with
      domain := c.response.take c.addressLength.toNat
      port := fromBigEndian (c.response.drop c.addressLength.toNat) }
  else c.result

/-- `State::ReceiveAddress` -/
def nextReceiveAddress (c : Client) : Client × StepStatus :=
  ({ c with
      result := c.receivedTarget memory, state := .done, request := [], response := [] }, .done)

def nextRequest (c : Client) : Client × StepStatus :=
  match c.state with
  | .idle => c.nextIdle memory
  | .negotiation => c.nextNegotiation memory
  | .auth => c.nextAuth memory
  | .connect => c.nextConnect memory
  | .receiveAddress => c.nextReceiveAddress memory
  | .done => (c, .fail)

end Client

/-! ### The protocol -/

/-- What the caller asks for. -/
structure Setup where
  destination : Target
  login : Bytes
  password : Bytes
  udp : Bool
  valid : destination.isValid = true
  domain_lt : destination.domain.length < 255
  login_lt : login.length < 256
  password_lt : password.length < 256

/-- A conforming server, with the method that it chooses and the address that it binds: an address
of its own, or a domain. -/
structure Server where
  auth : Bool
  bound : Target
  domain_lt : bound.domain.length < 256
  address_any : bound.domain ≠ [] → bound.address = .any

namespace Protocol

/-- The type of an address, the address or the domain with its length, and the port. -/
def address (t : Target) : Bytes :=
  if t.domain = [] then
    (if t.address.isV4 then addressIp4 else addressIp6) :: (t.address.bytes ++ bigEndian t.port)
  else addressDomain :: UInt8.ofNat t.domain.length :: (t.domain ++ bigEndian t.port)

def negotiation : Bytes := [5, 2, 0, 2]

def auth (login password : Bytes) : Bytes :=
  1 :: UInt8.ofNat login.length :: (login ++ UInt8.ofNat password.length :: password)

def connect (udp : Bool) (t : Target) : Bytes := 5 :: (if udp then 3 else 1) :: 0 :: address t

/-- The requests of a handshake. -/
def requests (s : Setup) (server : Server) : List Bytes :=
  negotiation :: ((if server.auth then [auth s.login s.password] else []) ++
    [connect s.udp s.destination])

/-- The responses of a conforming server. -/
def responses (server : Server) : List Bytes :=
  [5, if server.auth then 2 else 0] :: ((if server.auth then [[1, 0]] else []) ++
    [5 :: 0 :: 0 :: address server.bound])

end Protocol

/-! ### The handshake -/

/-- A client with a destination and credentials. -/
def Setup.client (s : Setup) : Client :=
  ⟨.idle, none, s.destination, [], [], s.login, s.password, s.udp, 0, 0, .empty, false⟩

/-- What was sent, and what there is at the end. -/
structure Transcript where
  requests : List Bytes
  result : Target
  overrun : Bool

/-- The caller sends each request, and receives as many bytes as the client asks for.  A response
is received in full before the next request is sent, and nothing is left of the responses at the
end: otherwise there is no handshake. -/
def drive (memory : Nat → UInt8) :
    Nat → Client → (pending : Bytes) → (responses sent : List Bytes) → Option Transcript
  | 0, _, _, _, _ => none
  | fuel + 1, c, pending, responses, sent =>
    let (c, status) := c.nextRequest memory
    match status, pending, responses with
    | .sendAndReceive, [], response :: responses =>
      if response.length < c.response.length then none
      else drive memory fuel { c with response := response.take c.response.length }
        (response.drop c.response.length) responses (sent ++ [c.request])
    | .receive, pending, responses =>
      if pending.length < c.response.length then none
      else drive memory fuel { c with response := pending.take c.response.length }
        (pending.drop c.response.length) responses sent
    | .done, [], [] => some ⟨sent, c.result, c.overrun⟩
    | _, _, _ => none

def handshake (memory : Nat → UInt8) (fuel : Nat) (s : Setup) (server : Server) :
    Option Transcript :=
  drive memory fuel s.client [] (Protocol.responses server) []

/-- **The handshake of the protocol**: the client is done, its requests are those of the protocol,
nothing was written behind the buffer, and the result is what the server has bound. -/
def Conforms (memory : Nat → UInt8) (s : Setup) (server : Server) : Prop :=
  ∃ fuel t, handshake memory fuel s server = some t ∧ t.requests = Protocol.requests s server ∧
    t.overrun = false ∧ t.result = server.bound

/-! ### The messages of the client -/

variable {memory : Nat → UInt8} {c : Client}

@[simp] theorem put_response (offset : Nat) (bytes : Bytes) :
    (c.put offset bytes).response = c.response := rfl

@[simp] theorem put_state (offset : Nat) (bytes : Bytes) : (c.put offset bytes).state = c.state :=
  rfl

@[simp] theorem put_login (offset : Nat) (bytes : Bytes) : (c.put offset bytes).login = c.login :=
  rfl

@[simp] theorem put_password (offset : Nat) (bytes : Bytes) :
    (c.put offset bytes).password = c.password := rfl

@[simp] theorem resizeRequest_login (n : Nat) : (c.resizeRequest memory n).login = c.login := rfl

@[simp] theorem resizeRequest_password (n : Nat) :
    (c.resizeRequest memory n).password = c.password := rfl

@[simp] theorem length_put_request (offset : Nat) (bytes : Bytes) :
    (c.put offset bytes).request.length = c.request.length :=
  length_copyTo _ _ _

/-- **The negotiation request has a byte too many.** -/
theorem length_negotiation_request (h : c.destination.isValid = true) :
    (c.nextIdle memory).1.request.length = Protocol.negotiation.length + 1 := by
  rw [Client.nextIdle, h]
  simp [Client.resizeRequest, Client.resizeResponse, Protocol.negotiation, negRequestLength]

theorem put_overrun (offset : Nat) (bytes : Bytes) : (c.put offset bytes).overrun =
    (c.overrun || decide (c.request.length < offset + bytes.length)) := rfl

/-- **A password that is longer than the login** is written behind the end of the request. -/
theorem overrun_sendAuthRequest (h : c.overrun = false) :
    (c.sendAuthRequest memory).overrun = decide (c.login.length < c.password.length) := by
  have hresize : ∀ n, (c.resizeRequest memory n).request.length = n := fun n => length_resize _ _ n
  have hkeep : ∀ n, (c.resizeRequest memory n).overrun = false := fun _ => h
  rw [Client.sendAuthRequest, Client.resizeResponse]
  dsimp only
  simp only [put_overrun, length_put_request, hresize, hkeep, Bool.false_or, List.length_singleton,
    put_login, put_password, resizeRequest_login, resizeRequest_password]
  rw [decide_eq_false (by omega), decide_eq_false (by omega), decide_eq_false (by omega),
    decide_eq_false (by omega)]
  exact decide_eq_decide.mpr (by omega)

/-- **An address of version 6** is written behind the end of the connect request. -/
theorem overrun_putDestination (hdomain : c.destination.domain = [])
    (hv6 : c.destination.address.isV4 = false) : (c.putDestination memory).overrun = true := by
  have hresize : ∀ n, (c.resizeRequest memory n).request.length = n := fun n => length_resize _ _ n
  have hbytes : c.destination.address.bytes.length = 16 := by
    cases ha : c.destination.address with
    | v4 b =>
      rw [ha] at hv6
      cases hv6
    | v6 b => exact b.2
  rw [Client.putDestination, hdomain, hv6]
  simp only [List.isEmpty_nil, if_true, put_overrun, length_put_request, hresize, hbytes,
    connectHeaderPartLength]
  simp

/-! ### No handshake ends -/

/-- The response to the connect request. -/
def connectResponse (server : Server) : Bytes := 5 :: 0 :: 0 :: Protocol.address server.bound

/-- The type of the address, and as many bytes as its address and the port have. -/
theorem connectResponse_cases (server : Server) :
    (∃ b, b.length = 6 ∧ connectResponse server = 5 :: 0 :: 0 :: addressIp4 :: b) ∨
    (∃ b, b.length = 18 ∧ connectResponse server = 5 :: 0 :: 0 :: addressIp6 :: b) ∨
    ∃ n b, n ≠ 0 ∧ n < 256 ∧ b.length = n + 2 ∧
      connectResponse server = 5 :: 0 :: 0 :: addressDomain :: UInt8.ofNat n :: b := by
  rw [connectResponse, Protocol.address]
  split
  next hdomain =>
    cases server.bound.address with
    | v4 b =>
      refine .inl ⟨_, ?_, rfl⟩
      rw [List.length_append]
      exact congrArg (· + 2) b.2
    | v6 b =>
      refine .inr (.inl ⟨_, ?_, rfl⟩)
      rw [List.length_append]
      exact congrArg (· + 2) b.2
  next hdomain =>
    refine .inr (.inr ⟨_, _, ?_, server.domain_lt, List.length_append, rfl⟩)
    exact fun h => hdomain (List.eq_nil_of_length_eq_zero h)

/-- The bytes that are asked for behind the first part of the response. -/
def secondPart (addressType addressLength : UInt8) : Nat :=
  if addressType = addressIp4 then 5
  else if addressType = addressIp6 then 7
  else addressLength.toNat + 2

variable (memory) in
theorem nextConnect_receive {x y : UInt8} {rest : Bytes}
    (h : c.response = 5 :: 0 :: 0 :: x :: y :: rest)
    (hy : x ≠ addressIp4 → x ≠ addressIp6 → y ≠ 0) :
    ∃ c', c.nextConnect memory = (c', .receive) ∧ c'.state = .receiveAddress ∧
      c'.response.length = secondPart x y := by
  have hversion : c.response.getD 0 0 = socks5Version := by rw [h]; rfl
  have hresponse : c.response.getD 1 0 = respSuccess := by rw [h]; rfl
  have htype : c.response.getD 3 0 = x := by rw [h]; rfl
  have hlength : c.response.getD 4 0 = y := by rw [h]; rfl
  rw [Client.nextConnect]
  dsimp only
  rw [hversion, hresponse, htype, hlength, if_neg (not_not_intro rfl), if_neg (not_not_intro rfl),
    secondPart]
  split
  · exact ⟨_, rfl, rfl, length_resize _ _ _⟩
  next h4 =>
    split
    · exact ⟨_, rfl, rfl, length_resize _ _ _⟩
    next h6 =>
      rw [if_neg (hy h4 h6)]
      exact ⟨_, rfl, rfl, length_resize _ _ _⟩

/-! The steps of the caller. -/

variable {c' : Client} {fuel : Nat} {pending response : Bytes} {responses sent : List Bytes}

alias drive_succ := drive.eq_2

theorem drive_short (h : c.nextRequest memory = (c', .receive))
    (hlt : pending.length < c'.response.length) :
    drive memory (fuel + 1) c pending responses sent = none := by
  rw [drive_succ, h]
  dsimp only
  rw [if_pos hlt]

theorem drive_receive (h : c.nextRequest memory = (c', .receive))
    (hle : c'.response.length ≤ pending.length) :
    drive memory (fuel + 1) c pending responses sent =
      drive memory fuel { c' with response := pending.take c'.response.length }
        (pending.drop c'.response.length) responses sent := by
  rw [drive_succ, h]
  dsimp only
  rw [if_neg (Nat.not_lt.mpr hle)]

theorem drive_left (h : c.nextRequest memory = (c', .done)) (hleft : pending ≠ []) :
    drive memory (fuel + 1) c pending responses sent = none := by
  rw [drive_succ, h]
  cases pending with
  | nil => exact absurd rfl hleft
  | cons x rest => rfl

theorem drive_send (h : c.nextRequest memory = (c', .sendAndReceive))
    (hle : c'.response.length ≤ response.length) :
    drive memory (fuel + 1) c [] (response :: responses) sent =
      drive memory fuel { c' with response := response.take c'.response.length }
        (response.drop c'.response.length) responses (sent ++ [c'.request]) := by
  rw [drive_succ, h]
  dsimp only
  rw [if_neg (Nat.not_lt.mpr hle)]

/-- **The response to the connect request is not received as it is**: behind the first eight bytes
there are not as many as are asked for, or some are left. -/
theorem drive_connect (server : Server) (fuel : Nat) (sent : List Bytes)
    (hstate : c.state = .connect) (h : c.response = (connectResponse server).take sizeofLength) :
    drive memory fuel c ((connectResponse server).drop sizeofLength) [] sent = none := by
  have hnext : c.nextRequest memory = c.nextConnect memory := by rw [Client.nextRequest, hstate]
  cases fuel with
  | zero => rfl
  | succ fuel =>
    obtain ⟨b, hb, hr⟩ | ⟨b, hb, hr⟩ | ⟨n, b, hn, hlt, hb, hr⟩ := connectResponse_cases server
    · -- two bytes are left of an address of version 4, and five are asked for
      obtain ⟨y, rest, rfl⟩ := List.exists_cons_of_length_eq_add_one hb
      rw [hr] at h ⊢
      obtain ⟨c', hc, -, hlen⟩ := nextConnect_receive memory h (absurd rfl)
      refine drive_short (hnext.trans hc) ?_
      rw [hlen, secondPart, if_pos rfl, List.length_drop]
      simp only [List.length_cons, sizeofLength] at hb ⊢
      omega
    · -- seven bytes are asked for of an address of version 6, and seven more are left
      obtain ⟨y, rest, rfl⟩ := List.exists_cons_of_length_eq_add_one hb
      rw [hr] at h ⊢
      obtain ⟨c', hc, hstate', hlen⟩ :=
        nextConnect_receive memory h fun _ h6 => absurd rfl h6
      rw [secondPart, if_neg (by decide), if_pos rfl] at hlen
      simp only [List.length_cons] at hb
      have hpending : ((5 : UInt8) :: 0 :: 0 :: addressIp6 :: y :: rest).length = 22 := by
        simp only [List.length_cons]
        omega
      rw [drive_receive (hnext.trans hc) (by
        rw [hlen, List.length_drop, hpending]
        decide)]
      cases fuel with
      | zero => rfl
      | succ fuel =>
        refine drive_left (by rw [Client.nextRequest, hstate']; rfl) (fun hnil => ?_)
        have hleft := congrArg List.length hnil
        rw [List.length_drop, List.length_drop, hpending, hlen] at hleft
        exact absurd hleft (by decide)
    · -- a byte of the domain was received already, and the whole domain is asked for
      have hn' : (UInt8.ofNat n).toNat = n := UInt8.toNat_ofNat_of_lt hlt
      rw [hr] at h ⊢
      obtain ⟨c', hc, -, hlen⟩ := nextConnect_receive memory h fun _ _ h0 => by
        rw [h0] at hn'
        exact hn hn'.symm
      refine drive_short (hnext.trans hc) ?_
      rw [hlen, secondPart, if_neg (by decide), if_neg (by decide), hn', List.length_drop]
      simp only [List.length_cons, sizeofLength]
      omega

/-- The connect request is sent, whatever the client did before. -/
theorem drive_sendConnectRequest (server : Server) (fuel : Nat) (sent : List Bytes) {d : Client}
    (h : c.nextRequest memory = (d.sendConnectRequest memory, .sendAndReceive)) :
    drive memory fuel c [] [connectResponse server] sent = none := by
  cases fuel with
  | zero => rfl
  | succ fuel =>
    have hlen : (d.sendConnectRequest memory).response.length = sizeofLength :=
      length_resize _ _ _
    have hle : sizeofLength ≤ (connectResponse server).length := by
      obtain ⟨b, hb, hr⟩ | ⟨b, hb, hr⟩ | ⟨n, b, hn, hlt, hb, hr⟩ := connectResponse_cases server
      all_goals
        rw [hr]
        simp only [List.length_cons, sizeofLength]
        omega
    rw [drive_send h (by rw [hlen]; exact hle), hlen]
    exact drive_connect server fuel _ rfl rfl

theorem drive_auth (server : Server) (fuel : Nat) (sent : List Bytes) (hstate : c.state = .auth)
    (h : c.response = [1, 0]) :
    drive memory fuel c [] [connectResponse server] sent = none := by
  refine drive_sendConnectRequest server fuel sent (d := c) ?_
  rw [Client.nextRequest, hstate]
  dsimp only
  rw [Client.nextAuth, h]
  rfl

theorem drive_negotiation (server : Server) (fuel : Nat) (sent : List Bytes)
    (hstate : c.state = .negotiation) (h : c.response = [5, if server.auth then 2 else 0]) :
    drive memory fuel c [] ((if server.auth then [[1, 0]] else []) ++ [connectResponse server])
      sent = none := by
  cases hauth : server.auth with
  | false =>
    rw [hauth] at h
    refine drive_sendConnectRequest server fuel sent (d := c) ?_
    rw [Client.nextRequest, hstate]
    dsimp only
    rw [Client.nextNegotiation, h]
    rfl
  | true =>
    rw [hauth] at h
    cases fuel with
    | zero => rfl
    | succ fuel =>
      have hnext : c.nextRequest memory = (c.sendAuthRequest memory, .sendAndReceive) := by
        rw [Client.nextRequest, hstate]
        dsimp only
        rw [Client.nextNegotiation, h]
        rfl
      have hlen : (c.sendAuthRequest memory).response.length = 2 := length_resize _ _ _
      rw [if_pos rfl, List.singleton_append,
        drive_send hnext (by rw [hlen]; exact Nat.le_refl 2), hlen]
      exact drive_auth server fuel _ rfl rfl

/-- **No handshake comes to its end.** -/
theorem handshake_eq_none (memory : Nat → UInt8) (fuel : Nat) (s : Setup) (server : Server) :
    handshake memory fuel s server = none := by
  rw [handshake]
  cases fuel with
  | zero => rfl
  | succ fuel =>
    obtain ⟨c', hc, hstate, hlen⟩ : ∃ c', s.client.nextRequest memory = (c', .sendAndReceive) ∧
        c'.state = .negotiation ∧ c'.response.length = 2 := by
      rw [Client.nextRequest, Setup.client]
      dsimp only
      rw [Client.nextIdle, s.valid]
      exact ⟨_, rfl, rfl, length_resize _ _ _⟩
    rw [Protocol.responses, drive_send hc (by rw [hlen]; exact Nat.le_refl 2), hlen]
    exact drive_negotiation server fuel _ hstate rfl

theorem not_conforms (memory : Nat → UInt8) (s : Setup) (server : Server) :
    ¬ Conforms memory s server := by
  rintro ⟨fuel, t, ht, -⟩
  rw [handshake_eq_none] at ht
  cases ht

/-- `127.0.0.1:80` without credentials. -/
def sampleSetup : Setup where
  destination := ⟨.v4 ⟨[127, 0, 0, 1], rfl⟩, 80, []⟩
  login := []
  password := []
  udp := false
  valid := by decide
  domain_lt := by decide
  login_lt := by decide
  password_lt := by decide

/-- `10.0.0.1:1080` is bound, with no authentication. -/
def sampleServer : Server where
  auth := false
  bound := ⟨.v4 ⟨[10, 0, 0, 1], rfl⟩, 1080, []⟩
  domain_lt := by decide
  address_any := nofun

/-- The bytes of the response are one less than are asked for. -/
theorem sample_handshake_fails : ¬ Conforms (fun _ => 0) sampleSetup sampleServer := by
  rintro ⟨fuel, t, ht, -⟩
  rw [handshake_eq_none] at ht
  cases ht

end Hatn.Network.Socks5
