import CssLab.Forge.Transport

/-! `TCP-SYN-forge.c`: a segment that `total_len` leaves out and whose checksum is made
without the pseudo-header. -/

namespace CssLab.Forge.Tcp

open Block
open Tunnel (htons shortBytes)

abbrev tcphdrSize : Nat := 20

def thSyn : UInt8 := 0x02

/-- `htonl` of a number, as it lies in memory. -/
def longBytes (host : UInt32) : List UInt8 :=
  [UInt8.ofNat (host.toNat / 16777216), UInt8.ofNat (host.toNat / 65536 % 256),
    UInt8.ofNat (host.toNat / 256 % 256), UInt8.ofNat (host.toNat % 256)]

/-- `get_tcp`; it leaves `total_len` as it is. -/
def getTcp (state : State) : Option State := do
  let tcp := iphdrSize + ethhdrSize
  let sendbuff ← state.sendbuff.write tcp (shortBytes (htons 8888))
  let sendbuff ← sendbuff.write (tcp + 2) (shortBytes (htons 8888))
  let sendbuff ← sendbuff.write (tcp + 4) (longBytes 1)
  let sendbuff ← sendbuff.write (tcp + 8) [0, 0, 0, 0]
  -- `th_off` is the high half of its byte.
  let offset ← sendbuff.bytes[tcp + 12]?
  let sendbuff ← sendbuff.write (tcp + 12) [offset &&& 0x0f ||| 0x50]
  let sendbuff ← sendbuff.write (tcp + 13) [thSyn]
  let sendbuff ← sendbuff.write (tcp + 14) (shortBytes (htons 5840))
  let sendbuff ← sendbuff.write (tcp + 18) [0, 0]
  let sum ← checksum (sendbuff.pointer (ethhdrSize + iphdrSize)) 20
  let sendbuff ← sendbuff.write (tcp + 16) (shortBytes (htons sum))
  some ⟨sendbuff, state.totalLen⟩

section Addresses

variable (inetNtoa : InAddr → List UInt8) (inetAddr : List UInt8 → InAddr)

def getIp (interface : Interface) (state : State) : Option State :=
  getIpWith inetNtoa inetAddr 6 getTcp interface state

/-- What `main` does before it sends. -/
def forge (interface : Interface) : Option State := do
  let state ← getMac interface ⟨.zero _, 0⟩
  getIp inetNtoa inetAddr interface state

end Addresses

/-- The TCP header; the fields left out stay zero. -/
structure TcpHeader where
  sport : UInt16
  dport : UInt16
  seq : UInt32
  offset : UInt8
  flags : UInt8
  win : UInt16
  sum : UInt16

def TcpHeader.bytes (tcp : TcpHeader) : List UInt8 :=
  shortBytes (htons tcp.sport) ++ shortBytes (htons tcp.dport) ++ longBytes tcp.seq ++
    [0, 0, 0, 0, tcp.offset, tcp.flags] ++ shortBytes (htons tcp.win) ++
    shortBytes (htons tcp.sum) ++ [0, 0]

/-- The segment and the zeros after it. -/
def TcpHeader.segment (tcp : TcpHeader) : Block bodySize :=
  ⟨tcp.bytes ++ List.replicate 10 0, rfl⟩

/-- Where the TCP header starts. -/
abbrev tcpAt : Nat := iphdrSize + ethhdrSize

section Segment

variable (interface : Interface) (ip : IpHeader) (tcp : TcpHeader)

theorem write_sport (value : UInt16) :
    (packet interface ip tcp.segment).write tcpAt (shortBytes (htons value)) =
      some (packet interface ip { tcp with sport := value }.segment) := rfl

theorem write_dport (value : UInt16) :
    (packet interface ip tcp.segment).write (tcpAt + 2) (shortBytes (htons value)) =
      some (packet interface ip { tcp with dport := value }.segment) := rfl

theorem write_seq (value : UInt32) :
    (packet interface ip tcp.segment).write (tcpAt + 4) (longBytes value) =
      some (packet interface ip { tcp with seq := value }.segment) := rfl

theorem write_ack : (packet interface ip tcp.segment).write (tcpAt + 8) [0, 0, 0, 0] =
    some (packet interface ip tcp.segment) := rfl

theorem get_offset : (packet interface ip tcp.segment).bytes[tcpAt + 12]? = some tcp.offset := rfl

theorem write_offset (value : UInt8) :
    (packet interface ip tcp.segment).write (tcpAt + 12) [value] =
      some (packet interface ip { tcp with offset := value }.segment) := rfl

theorem write_flags (value : UInt8) : (packet interface ip tcp.segment).write (tcpAt + 13) [value] =
    some (packet interface ip { tcp with flags := value }.segment) := rfl

theorem write_win (value : UInt16) :
    (packet interface ip tcp.segment).write (tcpAt + 14) (shortBytes (htons value)) =
      some (packet interface ip { tcp with win := value }.segment) := rfl

theorem write_urp : (packet interface ip tcp.segment).write (tcpAt + 18) [0, 0] =
    some (packet interface ip tcp.segment) := rfl

theorem write_sum (value : UInt16) :
    (packet interface ip tcp.segment).write (tcpAt + 16) (shortBytes (htons value)) =
      some (packet interface ip { tcp with sum := value }.segment) := rfl

theorem pointer_segment : (packet interface ip tcp.segment).pointer (ethhdrSize + iphdrSize) =
    tcp.bytes ++ List.replicate 10 0 := packet_pointer_body interface ip tcp.segment 0

end Segment

theorem TcpHeader.verifies (tcp : TcpHeader) {more : List UInt8}
    (summed : checksum ({ tcp with sum := 0 }.bytes ++ more) tcphdrSize = some check) :
    OnesComplement.sum 65536 (words { tcp with sum := check }.bytes) = 0xFFFF :=
  checksum_verifies (fun sum => { tcp with sum := sum }.bytes)
    (shortBytes (htons tcp.sport) ++ shortBytes (htons tcp.dport) ++ longBytes tcp.seq ++
      [0, 0, 0, 0, tcp.offset, tcp.flags] ++ shortBytes (htons tcp.win))
    [0, 0] _ (fun _ => rfl) ⟨8, rfl⟩ ⟨1, rfl⟩ (Nat.le_of_ble_eq_true rfl) summed

/-- The request to synchronise that is built. -/
def syn (sum : UInt16) : TcpHeader := ⟨8888, 8888, 1, 0x50, thSyn, 5840, sum⟩

theorem getTcp_eq (interface : Interface) (ip : IpHeader) (totalLen : Int) :
    ∃ sum, OnesComplement.sum 65536 (words (syn sum).bytes) = 0xFFFF ∧
      getTcp ⟨packet interface ip (.zero _), totalLen⟩ =
        some ⟨packet interface ip (syn sum).segment, totalLen⟩ := by
  have summed := @checksum_eq ((syn 0).bytes ++ List.replicate 10 0) 20 rfl
    (Nat.le_of_ble_eq_true rfl) (Nat.le_of_ble_eq_true rfl)
  have zero : Block.zero bodySize = TcpHeader.segment ⟨0, 0, 0, 0, 0, 0, 0⟩ := rfl
  have unsummed : (0 &&& 0x0f ||| 0x50 : UInt8) = 0x50 := rfl
  refine ⟨_, TcpHeader.verifies (syn 0) summed, ?_⟩
  simp only [getTcp, Option.bind_eq_bind]
  rw [zero, write_sport, Option.bind_some, write_dport, Option.bind_some, write_seq,
    Option.bind_some, write_ack, Option.bind_some, get_offset, Option.bind_some, write_offset,
    Option.bind_some, write_flags, Option.bind_some, write_win, Option.bind_some, write_urp,
    Option.bind_some, pointer_segment, unsummed]
  change (checksum ((syn 0).bytes ++ List.replicate 10 0) 20).bind _ = _
  rw [summed, Option.bind_some, write_sum, Option.bind_some]
  rfl

section Addresses

variable (inetNtoa : InAddr → List UInt8) (inetAddr : List UInt8 → InAddr)

/-- What is built: an IP header that ends its packet, before a segment that verifies alone. -/
theorem forge_eq (interface : Interface) :
    ∃ check sum, forge inetNtoa inetAddr interface = some ⟨packet interface
        { header inetNtoa inetAddr 6 interface with totLen := 20, check := check }
        (syn sum).segment, 34⟩ ∧
      OnesComplement.sum 65536 (words { header inetNtoa inetAddr 6 interface with
        totLen := 20, check := check }.bytes) = 0xFFFF ∧
      OnesComplement.sum 65536 (words (syn sum).bytes) = 0xFFFF := by
  obtain ⟨sum, verified, built⟩ := getTcp_eq interface (header inetNtoa inetAddr 6 interface) 34
  obtain ⟨check, forged, checked⟩ := forgeWith_eq inetNtoa inetAddr built
  exact ⟨check, sum, forged, checked, verified⟩

end Addresses

/-- What a receiver checks of the segment in a frame. -/
structure Accepted (sendbuff : Block frameSize) : Prop where
  check : OnesComplement.sum 65536 (words ((sendbuff.pointer 14).take iphdrSize)) = 0xFFFF
  totalLength : words ((sendbuff.pointer 16).take 2) = [iphdrSize + tcphdrSize]
  checksum : OnesComplement.sum 65536 (words (pseudoHeader sendbuff 20 ++
    (sendbuff.pointer 34).take tcphdrSize)) = 0xFFFF

section Addresses

variable (inetNtoa : InAddr → List UInt8) (inetAddr : List UInt8 → InAddr)

/-- What of it holds: the checksum of the IP header is right, its length is that of the
header alone, and the checksum of the segment is right where the pseudo-header happens to
add nothing. -/
theorem forge_checks (interface : Interface) :
    ∃ state, forge inetNtoa inetAddr interface = some state ∧
      OnesComplement.sum 65536 (words ((state.sendbuff.pointer 14).take iphdrSize)) = 0xFFFF ∧
      words ((state.sendbuff.pointer 16).take 2) = [iphdrSize] ∧
      (OnesComplement.sum 65536 (words (pseudoHeader state.sendbuff 20 ++
          (state.sendbuff.pointer 34).take tcphdrSize)) = 0xFFFF ↔
        65535 ∣ (words ((inetAddr (inetNtoa interface.addr)).bytes ++
          (inetAddr destinationIp).bytes)).sum + 6 + 20) := by
  obtain ⟨check, sum, forged, checked, verified⟩ := forge_eq inetNtoa inetAddr interface
  refine ⟨_, forged, checked, ?_, ?_⟩
  · exact words_short 20
  · exact verifies_packet_iff interface { header inetNtoa inetAddr 6 interface with
      totLen := 20, check := check } (syn sum).segment 20 verified

/-- No receiver accepts what is built, whatever the interface. -/
theorem segment_not_accepted (interface : Interface) :
    ∃ state, forge inetNtoa inetAddr interface = some state ∧ ¬ Accepted state.sendbuff := by
  obtain ⟨state, forged, -, length, -⟩ := forge_checks inetNtoa inetAddr interface
  refine ⟨state, forged, ?_⟩
  intro accepted
  rw [accepted.totalLength] at length
  exact absurd length (by decide)

end Addresses

theorem segment_ethernet_refused :
    ¬ ∃ state, forge dottedQuad parseQuad ethernet = some state ∧ Accepted state.sendbuff := by
  rintro ⟨state, forged, accepted⟩
  obtain ⟨state', forged', -, length, -⟩ := forge_checks dottedQuad parseQuad ethernet
  obtain rfl := Option.some.inj (forged.symm.trans forged')
  rw [accepted.totalLength] at length
  exact absurd length (by decide)

end CssLab.Forge.Tcp
