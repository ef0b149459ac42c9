import Hatn.Network.Socks5Client
import Hatn.Common.ByteArrayContents

/-!
# UDP packets through a SOCKS5 proxy

A datagram is sent through the proxy behind a header with the type of an address, the address and
the port.  `wrapUdpPacket` makes room in front of the payload and writes the header there, and
`unwrapUdpPacket` reads it and is to leave the payload.

A header for a domain or for an address of version 4 is written rightly.  For an address of version
6 there is room for six of its sixteen bytes, and the rest goes over the payload or behind the
packet.  Nothing is ever unwrapped: the reverse resize adds the length of the header once more.
-/

namespace Hatn.Network.Socks5

/-! ### The functions -/

/-- `ByteArray::rresize`: bytes are added or taken away in front.  What nobody has written is what
is in the memory. -/
def rresize (memory : Nat → UInt8) (b : Bytes) (size : Nat) : Bytes :=
  (List.range (size - b.length)).map memory ++ b.drop (b.length - size)

/-- `Socks5UdpHeader::Length` -/
def udpHeaderLength : Nat := 4

/-- A packet under way; `outside` says that something was read or written outside of it. -/
structure Packet where
  bytes : Bytes
  outside : Bool
  deriving DecidableEq

/-- `memcpy` into the packet. -/
def Packet.put (p : Packet) (offset : Nat) (bytes : Bytes) : Packet where
  bytes := copyTo p.bytes offset bytes
  outside := p.outside || decide (p.bytes.length < offset + bytes.length)

def wrapUdpPacket (memory : Nat → UInt8) (destination : Target) (packet : Bytes) : Packet :=
  let ipAddrLength := if destination.address.isV4 then 4 else 6
  let headerLength := udpHeaderLength +
    (if destination.domain.isEmpty then ipAddrLength else destination.domain.length + 1) + 2
  let p : Packet := ⟨rresize memory packet (packet.length + headerLength), false⟩
  let p := p.put 0 [0]
  let p := p.put 1 [0]
  let p := p.put 2 [0]
  let aType := if destination.address.isV4 then addressIp4 else addressIp6
  let aType := if !destination.domain.isEmpty then addressDomain else aType
  let p := p.put 3 [aType]
  let (p, portOffset) :=
    if !destination.domain.isEmpty then
      let p := p.put 4 [UInt8.ofNat destination.domain.length]
      let p := p.put (udpHeaderLength + 1) destination.domain
      (p, udpHeaderLength + (destination.domain.length + 1))
    else
      let bytes := destination.address.bytes
      (p.put udpHeaderLength bytes, udpHeaderLength + bytes.length)
  p.put portOffset (bigEndian destination.port)

/-- What `unwrapUdpPacket` leaves: whether the packet is accepted, the source, the packet. -/
structure Unwrapped where
  ok : Bool
  source : Target
  packet : Packet
  deriving DecidableEq

/-- The bytes of the packet from an offset on; behind its end they are what is in the memory. -/
def readAt (memory : Nat → UInt8) (packet : Bytes) (offset count : Nat) : Bytes :=
  (List.range count).map fun i => packet.getD (offset + i) (memory (offset + i))

@[simp] theorem length_readAt (memory : Nat → UInt8) (packet : Bytes) (offset count : Nat) :
    (readAt memory packet offset count).length = count := by
  simp [readAt]

/-- The end of `unwrapUdpPacket`, behind the address: the port, and the reverse resize. -/
def takePort (memory : Nat → UInt8) (source : Target) (packet : Bytes) (portOffset : Nat)
    (outside : Bool) : Unwrapped where
  ok := true
  source := { source with port := fromBigEndian (readAt memory packet portOffset 2) }
  packet := {
    bytes := rresize memory packet (packet.length + portOffset + 2)
    outside := outside || decide (packet.length < portOffset + 2) }

def unwrapUdpPacket (memory : Nat → UInt8) (source : Target) (packet : Bytes) : Unwrapped :=
  let refused : Unwrapped := ⟨false, source, ⟨packet, false⟩⟩
  if packet.length > udpHeaderLength + 2 then
    let aType := packet.getD 3 0
    if aType = addressIp4 then
      if packet.length > udpHeaderLength + 2 + 4 then
        let address := .v4 ⟨readAt memory packet udpHeaderLength 4, length_readAt ..⟩
        takePort memory { source with address := address } packet (udpHeaderLength + 4) false
      else refused
    else if aType = addressIp6 then
      if packet.length > udpHeaderLength + 2 + 6 then
        -- the check is for six bytes, sixteen are read
        let address := .v6 ⟨readAt memory packet udpHeaderLength 16, length_readAt ..⟩
        takePort memory { source with address := address } packet (udpHeaderLength + 16)
          (decide (packet.length < udpHeaderLength + 16))
      else refused
    else if aType = addressDomain then
      let domainLength := (packet.getD udpHeaderLength 0).toNat
      if packet.length > udpHeaderLength + 2 + 1 + domainLength then
        let domain := readAt memory packet (udpHeaderLength + 1) domainLength
        takePort memory { source with domain := domain } packet
          (udpHeaderLength + (domainLength + 1)) false
      else refused
    else refused
  else refused

/-! ### What they are for -/

/-- The header of the protocol: two reserved bytes, no fragments, and the target. -/
def Protocol.udpHeader (t : Target) : Bytes := 0 :: 0 :: 0 :: address t

/-- The packet is the header and the payload, and nothing was written outside of it. -/
def WrapsRight (memory : Nat → UInt8) (destination : Target) (payload : Bytes) : Prop :=
  wrapUdpPacket memory destination payload =
    ⟨Protocol.udpHeader destination ++ payload, false⟩

/-- What is wrapped is unwrapped to its target and payload, whatever the source was before. -/
def RoundTrips (memory : Nat → UInt8) (source destination : Target) (payload : Bytes) : Prop :=
  unwrapUdpPacket memory source (wrapUdpPacket memory destination payload).bytes =
    ⟨true, destination, ⟨payload, false⟩⟩

instance (memory : Nat → UInt8) (source destination : Target) (payload : Bytes) :
    Decidable (RoundTrips memory source destination payload) :=
  inferInstanceAs (Decidable (_ = _))

/-- A packet is read inside, and when it is accepted a suffix of it is left. -/
def UnwrapsInside (memory : Nat → UInt8) (source : Target) (packet : Bytes) : Prop :=
  (unwrapUdpPacket memory source packet).packet.outside = false ∧
    ((unwrapUdpPacket memory source packet).ok = true →
      (unwrapUdpPacket memory source packet).packet.bytes <:+ packet)

/-- The packet is too short for its type, or its type is none of the three. -/
def Refused (packet : Bytes) : Prop :=
  packet.length ≤ 6 ∨
    packet.getD 3 0 = addressIp4 ∧ packet.length ≤ 10 ∨
    packet.getD 3 0 = addressIp6 ∧ packet.length ≤ 12 ∨
    packet.getD 3 0 = addressDomain ∧ packet.length ≤ 7 + (packet.getD 4 0).toNat ∨
    packet.getD 3 0 ≠ addressIp4 ∧ packet.getD 3 0 ≠ addressIp6 ∧ packet.getD 3 0 ≠ addressDomain

instance (packet : Bytes) : Decidable (Refused packet) := by
  unfold Refused
  infer_instance

/-! ### Buffers -/

section
variable {memory : Nat → UInt8} {b : Bytes} {size : Nat}

theorem rresize_of_le (h : b.length ≤ size) :
    rresize memory b size = (List.range (size - b.length)).map memory ++ b := by
  rw [rresize, Nat.sub_eq_zero_of_le h, List.drop_zero]

@[simp] theorem length_rresize : (rresize memory b size).length = size := by
  simp only [rresize, List.length_append, List.length_map, List.length_range, List.length_drop]
  omega

/-- The reverse resize of an array is that of its content. -/
theorem rresize_content {o o' : Common.ByteArray.Obj} (h : Common.ByteArray.RResized o size o') :
    ∃ memory, o'.content = rresize memory o.content size := by
  obtain ⟨fresh, hlength, hcontent⟩ := h.grownFront
  refine ⟨fun i => fresh.getD i 0, ?_⟩
  rw [hcontent, rresize, ← hlength]
  congr 1
  refine List.ext_getElem (by simp) fun i hi _ => ?_
  simp [List.getElem?_eq_getElem hi]

/-- **A write behind the bytes that are known** adds to them. -/
theorem copyTo_append (known junk rest bytes : Bytes) (h : bytes.length ≤ junk.length) :
    copyTo (known ++ (junk ++ rest)) known.length bytes =
      (known ++ bytes) ++ (junk.drop bytes.length ++ rest) := by
  refine List.ext_getElem ?_ fun i hi _ => ?_
  · simp only [length_copyTo, List.length_append, List.length_drop]
    omega
  · rw [length_copyTo] at hi
    simp only [copyTo, List.getElem_mapIdx]
    grind

end

/-- Writes one behind the other. -/
def Packet.putAll (p : Packet) (offset : Nat) : List Bytes → Packet
  | [] => p
  | bytes :: rest => (p.put offset bytes).putAll (offset + bytes.length) rest

theorem putAll_append (segments : List Bytes) (rest : Bytes) : ∀ (known junk : Bytes),
    segments.flatten.length ≤ junk.length →
      (Packet.mk (known ++ (junk ++ rest)) false).putAll known.length segments =
        ⟨known ++ segments.flatten ++ (junk.drop segments.flatten.length ++ rest), false⟩ := by
  induction segments with
  | nil =>
    intro known junk _
    simp [Packet.putAll]
  | cons bytes segments ih =>
    intro known junk h
    rw [List.flatten_cons, List.length_append] at h
    have hinside : ¬ (known ++ (junk ++ rest)).length < known.length + bytes.length := by
      simp only [List.length_append]
      omega
    have hput : (Packet.mk (known ++ (junk ++ rest)) false).put known.length bytes =
        ⟨(known ++ bytes) ++ (junk.drop bytes.length ++ rest), false⟩ := by
      rw [Packet.put, copyTo_append known junk rest bytes (by omega), Bool.false_or,
        decide_eq_false hinside]
    have hdrop : segments.flatten.length ≤ (junk.drop bytes.length).length := by
      rw [List.length_drop]
      omega
    rw [Packet.putAll, hput, ← List.length_append, ih _ _ hdrop, List.drop_drop,
      List.flatten_cons, List.length_append, ← List.append_assoc known]

/-! ### Wrapping -/

section
variable {memory : Nat → UInt8} {d : Target} {payload : Bytes}

/-- The packet behind `rresize`, with room for as many bytes as are written. -/
theorem putAll_rresize (segments : List Bytes) {size : Nat}
    (h : segments.flatten.length = size) :
    (Packet.mk (rresize memory payload (payload.length + size)) false).putAll 0 segments =
      ⟨segments.flatten ++ payload, false⟩ := by
  have hput := putAll_append segments payload [] ((List.range size).map memory) (by simp [h])
  have hdrop : ((List.range size).map memory).drop size = [] :=
    List.drop_of_length_le (by simp)
  rw [h, hdrop, List.nil_append, List.nil_append, List.nil_append] at hput
  rw [rresize_of_le (Nat.le_add_right _ _), Nat.add_sub_cancel_left]
  exact hput

theorem length_bytes_v4 (h : d.address.isV4 = true) : d.address.bytes.length = 4 := by
  cases ha : d.address with
  | v4 b => exact b.2
  | v6 b =>
    rw [ha] at h
    cases h

theorem length_bytes_v6 (h : d.address.isV4 = false) : d.address.bytes.length = 16 := by
  cases ha : d.address with
  | v4 b =>
    rw [ha] at h
    cases h
  | v6 b => exact b.2

theorem wrapsRight_domain (hd : d.domain ≠ []) : WrapsRight memory d payload := by
  have hempty : d.domain.isEmpty = false := List.isEmpty_eq_false_iff.mpr hd
  have hsegments : wrapUdpPacket memory d payload =
      (Packet.mk (rresize memory payload
        (payload.length + (4 + (d.domain.length + 1) + 2))) false).putAll 0
          [[0], [0], [0], [addressDomain], [UInt8.ofNat d.domain.length], d.domain,
            bigEndian d.port] := by
    rw [wrapUdpPacket, hempty]
    simp only [Packet.putAll, udpHeaderLength, Bool.not_false, if_true, Bool.false_eq_true,
      if_false, List.length_cons, List.length_nil]
    congr 1
    omega
  rw [WrapsRight, hsegments, putAll_rresize _ (by simp [bigEndian]; omega), Protocol.udpHeader,
    Protocol.address, if_neg hd]
  simp

theorem wrapsRight_v4 (hd : d.domain = []) (hv4 : d.address.isV4 = true) :
    WrapsRight memory d payload := by
  have hsegments : wrapUdpPacket memory d payload =
      (Packet.mk (rresize memory payload (payload.length + (4 + 4 + 2))) false).putAll 0
        [[0], [0], [0], [addressIp4], d.address.bytes, bigEndian d.port] := by
    rw [wrapUdpPacket, hd, hv4]
    rfl
  rw [WrapsRight, hsegments,
    putAll_rresize _ (by simp [bigEndian, length_bytes_v4 hv4]), Protocol.udpHeader,
    Protocol.address, if_pos hd, if_pos hv4]
  simp

/-- An address of version 6 does not have the room that it needs. -/
theorem length_wrapUdpPacket_v6 (hd : d.domain = []) (hv6 : d.address.isV4 = false) :
    (wrapUdpPacket memory d payload).bytes.length = payload.length + 12 := by
  rw [wrapUdpPacket, hd, hv6]
  simp [Packet.put, udpHeaderLength]

/-- **The header is written rightly** for domains and addresses of version 4. -/
theorem wrapsRight_iff : WrapsRight memory d payload ↔ d.domain ≠ [] ∨ d.address.isV4 = true := by
  constructor
  · intro h
    by_contra hn
    rw [not_or, not_not] at hn
    obtain ⟨hd, hv6⟩ := hn
    have hv6 := Bool.eq_false_iff.mpr hv6
    have hlength : (wrapUdpPacket memory d payload).bytes.length = payload.length + 12 :=
      length_wrapUdpPacket_v6 hd hv6
    rw [h, Protocol.udpHeader, Protocol.address, if_pos hd] at hlength
    simp [length_bytes_v6 hv6, bigEndian] at hlength
    omega
  · rintro (hd | hv4)
    · exact wrapsRight_domain hd
    · by_cases hd : d.domain = []
      · exact wrapsRight_v4 hd hv4
      · exact wrapsRight_domain hd

/-! ### Unwrapping -/

theorem unwrapUdpPacket_of_refused {packet : Bytes} (h : Refused packet) (source : Target) :
    unwrapUdpPacket memory source packet = ⟨false, source, ⟨packet, false⟩⟩ := by
  rw [unwrapUdpPacket]
  dsimp only
  by_cases hlong : packet.length > udpHeaderLength + 2
  · rw [if_pos hlong]
    rcases h with h | ⟨htype, h⟩ | ⟨htype, h⟩ | ⟨htype, h⟩ | ⟨h₁, h₂, h₃⟩
    · exact absurd hlong (Nat.not_lt.mpr h)
    · rw [if_pos htype, if_neg (show ¬ packet.length > udpHeaderLength + 2 + 4 from h.not_gt)]
    · rw [if_neg (by rw [htype]; decide), if_pos htype,
        if_neg (show ¬ packet.length > udpHeaderLength + 2 + 6 from h.not_gt)]
    · rw [if_neg (by rw [htype]; decide), if_neg (by rw [htype]; decide), if_pos htype,
        if_neg (show ¬ packet.length >
          udpHeaderLength + 2 + 1 + (packet.getD udpHeaderLength 0).toNat from h.not_gt)]
    · rw [if_neg h₁, if_neg h₂, if_neg h₃]
  · rw [if_neg hlong]

theorem takePort_grows (source : Target) (packet : Bytes) (portOffset : Nat) (outside : Bool) :
    (takePort memory source packet portOffset outside).ok = true ∧
      packet.length <
        (takePort memory source packet portOffset outside).packet.bytes.length := by
  refine ⟨rfl, ?_⟩
  rw [takePort, length_rresize]
  omega

/-- **A packet that is accepted** gets longer. -/
theorem unwrapUdpPacket_grows (memory : Nat → UInt8) {packet : Bytes} (h : ¬ Refused packet)
    (source : Target) :
    (unwrapUdpPacket memory source packet).ok = true ∧
      packet.length < (unwrapUdpPacket memory source packet).packet.bytes.length := by
  simp only [Refused, not_or, not_and, not_le, not_not] at h
  obtain ⟨hlong, h₁, h₂, h₃, hother⟩ := h
  rw [unwrapUdpPacket]
  dsimp only
  rw [if_pos (show packet.length > udpHeaderLength + 2 from hlong)]
  by_cases hv4 : packet.getD 3 0 = addressIp4
  · rw [if_pos hv4, if_pos (show packet.length > udpHeaderLength + 2 + 4 from h₁ hv4)]
    exact takePort_grows _ _ _ _
  by_cases hv6 : packet.getD 3 0 = addressIp6
  · rw [if_neg hv4, if_pos hv6, if_pos (show packet.length > udpHeaderLength + 2 + 6 from h₂ hv6)]
    exact takePort_grows _ _ _ _
  by_cases hdomain : packet.getD 3 0 = addressDomain
  · rw [if_neg hv4, if_neg hv6, if_pos hdomain,
      if_pos (show packet.length >
        udpHeaderLength + 2 + 1 + (packet.getD udpHeaderLength 0).toNat from h₃ hdomain)]
    exact takePort_grows _ _ _ _
  · exact absurd (hother hv4 hv6) hdomain

/-- **Nothing is unwrapped** to what was wrapped. -/
theorem not_roundTrips (source : Target) : ¬ RoundTrips memory source d payload := by
  intro h
  have hlength : payload.length ≤ (wrapUdpPacket memory d payload).bytes.length := by
    rw [wrapUdpPacket]
    cases d.domain.isEmpty <;> simp [Packet.put]
  by_cases hr : Refused (wrapUdpPacket memory d payload).bytes
  · rw [RoundTrips, unwrapUdpPacket_of_refused hr] at h
    exact absurd (congrArg Unwrapped.ok h) Bool.false_ne_true
  · have hgrows := (unwrapUdpPacket_grows memory hr source).2
    rw [h] at hgrows
    exact absurd hgrows hlength.not_gt

/-- **A packet is read inside and leaves a suffix** just when it is refused. -/
theorem unwrapsInside_iff (source : Target) (packet : Bytes) :
    UnwrapsInside memory source packet ↔ Refused packet := by
  constructor
  · rintro ⟨-, hsuffix⟩
    by_contra hr
    obtain ⟨hok, hgrows⟩ := unwrapUdpPacket_grows memory hr source
    exact absurd hgrows (hsuffix hok).length_le.not_gt
  · intro hr
    rw [UnwrapsInside, unwrapUdpPacket_of_refused hr]
    exact ⟨rfl, fun hok => absurd hok Bool.false_ne_true⟩

end

/-- **Where the packets are right**: the header of a target that is no address of version 6, and
the packets that are refused; no packet is unwrapped to what was wrapped. -/
theorem udp_right_iff (memory : Nat → UInt8) (source destination : Target)
    (payload packet : Bytes) :
    (WrapsRight memory destination payload ↔
      destination.domain ≠ [] ∨ destination.address.isV4 = true) ∧
      ¬ RoundTrips memory source destination payload ∧
        (UnwrapsInside memory source packet ↔ Refused packet) :=
  ⟨wrapsRight_iff, not_roundTrips source, unwrapsInside_iff source packet⟩

/-- A target with an address of version 4. -/
def sampleTarget : Target := { sampleSetup.destination with port := 53 }

/-- **One byte to a target** of version 4 comes back behind two headers and more. -/
theorem sampleTarget_fails :
    ¬ RoundTrips (fun _ => 0) .empty sampleTarget [7] := by
  decide

end Hatn.Network.Socks5
