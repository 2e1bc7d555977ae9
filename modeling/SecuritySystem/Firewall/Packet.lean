/-
SecuritySystem/Firewall/Packet.lean

The packet handler of the firewall service.

libpcap hands `fw_got_packet` the captured bytes, and the handler reads the
headers and the payload straight out of them: the IP header behind the 14 bytes
of Ethernet, the TCP header behind the length that the IP header states, the
payload behind both.  The model reads from the list of captured bytes, so a
read behind their end is a fault; multi-byte fields are read whole, as the code
reads them.

The handler runs in the threads of the service on shared variables; here they
are a record that one call takes and returns, with the messages it prints.
-/
import SecuritySystem.Firewall.Payload
import SecuritySystem.Firewall.Rules

namespace SecuritySystem.Firewall

open CMem

/-- The variables of firewall_service_main.c that the handler uses; `count` is
its own static one. -/
structure Globals where
  fwKeepRunning : BitVec 32
  netBits : BitVec 32
  netmask : BitVec 32
  ipBits : BitVec 32
  untrustedCounter : BitVec 32
  count : BitVec 32

/-- The bytes of an Ethernet header. -/
def SIZE_ETHERNET : ℕ := 14

/-- The protocols that the handler tells apart. -/
inductive Protocol
  | tcp
  | udp
  | icmp
  | ip
  | unknown
deriving DecidableEq

/-- The cases of the `switch` on `ip_p`. -/
def protocolOf (p : UInt8) : Protocol :=
  if p = 6 then .tcp else if p = 17 then .udp else if p = 1 then .icmp
  else if p = 0 then .ip else .unknown

/-- What the handler prints. -/
inductive Message
  | argsIsNull
  | packetNumber (n : BitVec 32)
  | invalidIpHeader (size : ℕ)
  | source (addr : BitVec 32)
  | destination (addr : BitVec 32)
  | protocol (p : Protocol)
  | invalidTcpHeader (size : ℕ)
  | srcPort (port : ℕ)
  | dstPort (port : ℕ)
  | payload (size : ℤ) (text : Text)

/-- How the handler ends: it returns, or ends its thread. -/
inductive Ending
  | returned
  | threadExit
deriving DecidableEq

/-- The result of a call. -/
structure Handled where
  ending : Ending
  globals : Globals
  messages : List Message

/-- `IP_HL` -/
def ipHl (vhl : UInt8) : ℕ := (vhl &&& 0x0f).toNat

/-- `TH_OFF` -/
def thOff (offx2 : UInt8) : ℕ := ((offx2 &&& 0xf0) >>> 4).toNat

/-- The word that a little-endian machine reads: `s_addr`. -/
def wordOf (bytes : List UInt8) : BitVec 32 := BitVec.ofNat 32 (ofLe bytes)

section Handler

variable (packet : List UInt8)

/-- The part behind the TCP header checks: ports and payload. -/
def tcpSegment (sizeIp sizeTcp : ℕ) : Except Fault (List Message) := do
  let sport ← readAt packet (SIZE_ETHERNET + sizeIp) 2
  let dport ← readAt packet (SIZE_ETHERNET + sizeIp + 2) 2
  let ports := [Message.srcPort (ofBe sport), .dstPort (ofBe dport)]
  let ipLen ← readAt packet (SIZE_ETHERNET + 2) 2
  let sizePayload : ℤ := (ofBe ipLen : ℤ) - (sizeIp + sizeTcp)
  if 0 < sizePayload then
    let text ← fwPrintPayload packet (SIZE_ETHERNET + sizeIp + sizeTcp) sizePayload
    return ports ++ [.payload sizePayload text]
  else return ports

/-- From the `switch` on the protocol on. -/
def afterAddresses (sizeIp : ℕ) : Except Fault (List Message) := do
  let p ← load packet (SIZE_ETHERNET + 9)
  match protocolOf p with
  | .tcp =>
    let offx2 ← load packet (SIZE_ETHERNET + sizeIp + 12)
    let sizeTcp := thOff offx2 * 4
    if sizeTcp < 20 then return [.protocol .tcp, .invalidTcpHeader sizeTcp]
    else
      let rest ← tcpSegment packet sizeIp sizeTcp
      return .protocol .tcp :: rest
  | other => return [.protocol other]

/-- `if ((ip_bits & netmask) == net_bits) untrusted_counter++` -/
def Globals.countSource (g : Globals) (src : BitVec 32) : Globals :=
  { g with
    ipBits := src
    untrustedCounter :=
      if src &&& g.netmask = g.netBits then g.untrustedCounter + 1 else g.untrustedCounter }

/-- From the IP header on. -/
def ipPacket (g : Globals) : Except Fault Handled := do
  let vhl ← load packet SIZE_ETHERNET
  let sizeIp := ipHl vhl * 4
  if sizeIp < 20 then return ⟨.returned, g, [.invalidIpHeader sizeIp]⟩
  else
    let src ← readAt packet (SIZE_ETHERNET + 12) 4
    let dst ← readAt packet (SIZE_ETHERNET + 16) 4
    let rest ← afterAddresses packet sizeIp
    return ⟨.returned, g.countSource (wordOf src),
      .source (wordOf src) :: .destination (wordOf dst) :: rest⟩

/-- `fw_got_packet`; `args` says whether its first argument is not null. -/
def fwGotPacket (args : Bool) (g : Globals) : Except Fault Handled :=
  if g.fwKeepRunning = 0 then .ok ⟨.threadExit, g, []⟩
  else if args = false then .ok ⟨.threadExit, g, [.argsIsNull]⟩
  else
    (ipPacket packet { g with ipBits := 0, count := g.count + 1 }).map fun r =>
      { r with messages := .packetNumber (g.count + 1) :: r.messages }

end Handler

/-! ### Reading the captured bytes -/

variable {packet : List UInt8}

/-- The byte at an offset, 0 behind the end. -/
def byteAt (packet : List UInt8) (i : ℕ) : UInt8 := packet.getD i 0

/-- The fields that the handler computes with: `size_ip`, `size_tcp`, the
total length and the protocol. -/
def sizeIp (packet : List UInt8) : ℕ := ipHl (byteAt packet SIZE_ETHERNET) * 4

/-- The bytes of the TCP header. -/
def sizeTcp (packet : List UInt8) : ℕ :=
  thOff (byteAt packet (SIZE_ETHERNET + sizeIp packet + 12)) * 4

/-- The total length, sent with its high byte first. -/
def ipLen (packet : List UInt8) : ℕ :=
  ofBe [byteAt packet (SIZE_ETHERNET + 2), byteAt packet (SIZE_ETHERNET + 2 + 1)]

/-- The protocol of the IP header. -/
def ipProtocol (packet : List UInt8) : Protocol := protocolOf (byteAt packet (SIZE_ETHERNET + 9))

/-- The captured bytes reach as far as the headers say: one byte of the IP
header, and if its length is valid all of the fixed part; with TCP the header up
to its offset field, and if that is valid too and there is a payload everything
up to the total length of the packet. -/
structure Captured (packet : List UInt8) : Prop where
  first : SIZE_ETHERNET + 1 ≤ packet.length
  ip : 20 ≤ sizeIp packet → SIZE_ETHERNET + 20 ≤ packet.length
  tcp : 20 ≤ sizeIp packet → ipProtocol packet = .tcp →
    SIZE_ETHERNET + sizeIp packet + 13 ≤ packet.length
  payload : 20 ≤ sizeIp packet → ipProtocol packet = .tcp → 20 ≤ sizeTcp packet →
    sizeIp packet + sizeTcp packet < ipLen packet → SIZE_ETHERNET + ipLen packet ≤ packet.length

theorem take_two_drop {i : ℕ} (h : i + 2 ≤ packet.length) :
    (packet.drop i).take 2 = [byteAt packet i, byteAt packet (i + 1)] := by
  have hi : i < packet.length := by omega
  have hi' : i + 1 < packet.length := by omega
  rw [List.drop_eq_getElem_cons hi, List.take_succ_cons, List.drop_eq_getElem_cons hi',
    List.take_succ_cons, List.take_zero, byteAt, byteAt, List.getD_eq_getElem packet 0 hi,
    List.getD_eq_getElem packet 0 hi']

/-- The payload, if there is one, must be captured. -/
theorem tcpSegment_completes_iff (hip : SIZE_ETHERNET + 20 ≤ packet.length)
    (htcp : SIZE_ETHERNET + sizeIp packet + 13 ≤ packet.length) :
    Completes (tcpSegment packet (sizeIp packet) (sizeTcp packet)) ↔
      (sizeIp packet + sizeTcp packet < ipLen packet →
        SIZE_ETHERNET + ipLen packet ≤ packet.length) := by
  have hlen : ofBe ((packet.drop (SIZE_ETHERNET + 2)).take 2) = ipLen packet :=
    congrArg ofBe (take_two_drop (by omega))
  unfold tcpSegment
  rw [completes_readAt_bind_iff, and_iff_right (by omega), completes_readAt_bind_iff,
    and_iff_right (by omega), completes_readAt_bind_iff, and_iff_right (by omega), hlen]
  dsimp only
  by_cases hpayload : sizeIp packet + sizeTcp packet < ipLen packet
  · have hpos : 0 < (ipLen packet : ℤ) - (sizeIp packet + sizeTcp packet) := by omega
    have hsize : ((ipLen packet : ℤ) - (sizeIp packet + sizeTcp packet)).toNat =
        ipLen packet - (sizeIp packet + sizeTcp packet) := by omega
    rw [if_pos hpos, completes_bind_pure_iff, fwPrintPayload_eq hpos, hsize, completes_map_iff,
      completes_readAt_iff]
    omega
  · rw [if_neg (by omega)]
    exact iff_of_true (completes_pure _) fun h => absurd h hpayload

/-- Behind the addresses: the TCP header, and the payload. -/
theorem afterAddresses_completes_iff (hip : SIZE_ETHERNET + 20 ≤ packet.length) :
    Completes (afterAddresses packet (sizeIp packet)) ↔
      (ipProtocol packet = .tcp → SIZE_ETHERNET + sizeIp packet + 13 ≤ packet.length ∧
        (20 ≤ sizeTcp packet → sizeIp packet + sizeTcp packet < ipLen packet →
          SIZE_ETHERNET + ipLen packet ≤ packet.length)) := by
  unfold afterAddresses
  rw [completes_load_bind_iff, and_iff_right (by omega)]
  have hprotocol : protocolOf (packet.getD (SIZE_ETHERNET + 9) 0) = ipProtocol packet := rfl
  rw [hprotocol]
  cases hp : ipProtocol packet with
  | tcp =>
    rw [forall_prop_of_true rfl]
    show Completes (load packet _ >>= _) ↔ _
    rw [completes_load_bind_iff]
    refine and_congr_right fun htcp => ?_
    show Completes (if sizeTcp packet < 20 then _ else _) ↔ _
    by_cases hsize : sizeTcp packet < 20
    · rw [if_pos hsize]
      exact iff_of_true (completes_pure _) fun h => absurd h (Nat.not_le.mpr hsize)
    · rw [if_neg hsize, completes_bind_pure_iff, forall_prop_of_true (Nat.not_lt.mp hsize)]
      exact tcpSegment_completes_iff hip htcp
  | udp => exact iff_of_true (completes_pure _) fun h => nomatch h
  | icmp => exact iff_of_true (completes_pure _) fun h => nomatch h
  | ip => exact iff_of_true (completes_pure _) fun h => nomatch h
  | unknown => exact iff_of_true (completes_pure _) fun h => nomatch h

theorem ipPacket_completes_iff (g : Globals) :
    Completes (ipPacket packet g) ↔ Captured packet := by
  have hcaptured : Captured packet ↔ SIZE_ETHERNET < packet.length ∧
      (20 ≤ sizeIp packet → SIZE_ETHERNET + 20 ≤ packet.length ∧
        (ipProtocol packet = .tcp → SIZE_ETHERNET + sizeIp packet + 13 ≤ packet.length ∧
          (20 ≤ sizeTcp packet → sizeIp packet + sizeTcp packet < ipLen packet →
            SIZE_ETHERNET + ipLen packet ≤ packet.length))) := by
    constructor
    · exact fun h => ⟨h.first, fun hip => ⟨h.ip hip, fun hp => ⟨h.tcp hip hp, h.payload hip hp⟩⟩⟩
    · rintro ⟨hfirst, h⟩
      exact ⟨hfirst, fun hip => (h hip).1, fun hip hp => ((h hip).2 hp).1,
        fun hip hp => ((h hip).2 hp).2⟩
  rw [hcaptured, ipPacket, completes_load_bind_iff]
  refine and_congr_right fun _ => ?_
  show Completes (if sizeIp packet < 20 then _ else _) ↔ _
  by_cases hsize : sizeIp packet < 20
  · rw [if_pos hsize]
    exact iff_of_true (completes_pure _) fun h => absurd h (Nat.not_le.mpr hsize)
  · rw [if_neg hsize, forall_prop_of_true (Nat.not_lt.mp hsize), completes_readAt_bind_iff,
      completes_readAt_bind_iff, completes_bind_pure_iff]
    constructor
    · rintro ⟨-, hip, h⟩
      exact ⟨hip, (afterAddresses_completes_iff hip).mp h⟩
    · rintro ⟨hip, h⟩
      exact ⟨by omega, hip, (afterAddresses_completes_iff hip).mpr h⟩

/-- **Exactly when the handler stays inside the captured bytes**: it looks at
nothing, or the bytes reach as far as the headers say. -/
theorem fwGotPacket_completes_iff (packet : List UInt8) (args : Bool) (g : Globals) :
    Completes (fwGotPacket packet args g) ↔
      g.fwKeepRunning = 0 ∨ args = false ∨ Captured packet := by
  unfold fwGotPacket
  by_cases hrun : g.fwKeepRunning = 0
  · rw [if_pos hrun]
    exact iff_of_true (completes_ok _) (.inl hrun)
  rw [if_neg hrun, or_iff_right hrun]
  by_cases hargs : args = false
  · rw [if_pos hargs]
    exact iff_of_true (completes_ok _) (.inl hargs)
  · rw [if_neg hargs, or_iff_right hargs, completes_map_iff, ipPacket_completes_iff]

/-- 54 bytes of TCP from 10.0.0.1, whose IP header states a total length of
1500. -/
def overstated : List UInt8 :=
  [0, 0, 0, 0, 0, 0, 0, 0, 0, 0, 0, 0, 8, 0,
    0x45, 0, 0x05, 0xdc, 0, 0, 0, 0, 64, 6, 0, 0, 10, 0, 0, 1, 10, 0, 0, 2,
    0, 80, 0, 81, 0, 0, 0, 0, 0, 0, 0, 0, 0x50, 0x10, 0, 0, 0, 0, 0, 0]

theorem not_fwGotPacket_completes :
    ¬ ∀ packet args g, packet.length ≤ 1518 → Completes (fwGotPacket packet args g) := by
  intro h
  have hcompletes := h overstated true ⟨1, 0, 0, 0, 0, 0⟩ (by decide)
  rw [fwGotPacket, if_neg (by decide), if_neg (by decide), completes_map_iff,
    ipPacket_completes_iff] at hcompletes
  -- the payload of 1460 bytes is not there
  exact absurd (hcompletes.payload (by decide) (by decide) (by decide) (by decide)) (by decide)

end SecuritySystem.Firewall
