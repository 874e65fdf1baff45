import CssLab.Forge.Packet

/-! `ICMP-forge.c`: the frame that it sends again and again. -/

namespace CssLab.Forge

open Block
open Tunnel (htons shortBytes)

abbrev icmphdrSize : Nat := 8

def getIcmp (state : State) : Option State := do
  let icmp := iphdrSize + ethhdrSize
  let sendbuff ← state.sendbuff.write icmp [8]
  let sendbuff ← sendbuff.write (icmp + 2) [0, 0]
  let sum ← checksum (sendbuff.pointer icmp) icmphdrSize
  let sendbuff ← sendbuff.write (icmp + 2) (shortBytes (htons sum))
  some ⟨sendbuff, state.totalLen + icmphdrSize⟩

section Addresses

variable (inetNtoa : InAddr → List UInt8) (inetAddr : List UInt8 → InAddr)

def getIp (interface : Interface) (state : State) : Option State :=
  getIpWith inetNtoa inetAddr 1 getIcmp interface state

/-- What `main` does before it sends. -/
def forge (interface : Interface) : Option State := do
  let state ← getMac interface ⟨.zero _, 0⟩
  getIp inetNtoa inetAddr interface state

end Addresses

structure IcmpHeader where
  type : UInt8
  checksum : UInt16

def IcmpHeader.bytes (icmp : IcmpHeader) : List UInt8 :=
  [icmp.type, 0] ++ shortBytes (htons icmp.checksum) ++ [0, 0, 0, 0]

/-- The header, and zeros up to the end of `sendbuff`. -/
def IcmpHeader.body (icmp : IcmpHeader) : Block bodySize :=
  ⟨icmp.bytes ++ List.replicate 22 0, rfl⟩

theorem IcmpHeader.verifies (icmp : IcmpHeader) {more : List UInt8}
    (summed : Forge.checksum ({ icmp with checksum := 0 }.bytes ++ more) icmphdrSize = some sum) :
    OnesComplement.sum 65536 (words { icmp with checksum := sum }.bytes) = 0xFFFF :=
  checksum_verifies (fun checksum => { icmp with checksum := checksum }.bytes)
    [icmp.type, 0] [0, 0, 0, 0] more (fun _ => rfl) ⟨1, rfl⟩ ⟨2, rfl⟩
    (Nat.le_of_ble_eq_true rfl) summed

/-- The echo request that is built, before its checksum is. -/
def request : IcmpHeader := ⟨8, 0⟩

theorem getIcmp_eq (interface : Interface) (ip : IpHeader) :
    ∃ sum, OnesComplement.sum 65536 (words { request with checksum := sum }.bytes) = 0xFFFF ∧
      getIcmp ⟨packet interface ip (.zero _), 34⟩ =
        some ⟨packet interface ip { request with checksum := sum }.body, 42⟩ := by
  have summed := @checksum_eq request.body.bytes icmphdrSize (by decide) (by decide) (by decide)
  have typed : (packet interface ip (.zero _)).write (iphdrSize + ethhdrSize) [8] =
      some (packet interface ip request.body) :=
    packet_write interface ip (.zero _) 0 rfl
  have zeroed : (packet interface ip request.body).write (iphdrSize + ethhdrSize + 2) [0, 0] =
      some (packet interface ip request.body) :=
    packet_write interface ip request.body 2 rfl
  have body : (packet interface ip request.body).pointer (iphdrSize + ethhdrSize) =
      request.body.bytes := packet_pointer_body interface ip request.body 0
  have written (sum : UInt16) : (packet interface ip request.body).write
      (iphdrSize + ethhdrSize + 2) (shortBytes (htons sum)) =
        some (packet interface ip { request with checksum := sum }.body) :=
    packet_write interface ip request.body 2 rfl
  refine ⟨_, IcmpHeader.verifies request summed, ?_⟩
  simp only [getIcmp, Option.bind_eq_bind]
  rw [typed, Option.bind_some, zeroed, Option.bind_some, body, summed, Option.bind_some, written,
    Option.bind_some]
  rfl

section Addresses

variable (inetNtoa : InAddr → List UInt8) (inetAddr : List UInt8 → InAddr)

/-- What is built: an IP header and an echo request that both verify. -/
theorem forge_eq (interface : Interface) :
    ∃ check sum, forge inetNtoa inetAddr interface = some ⟨packet interface
        { header inetNtoa inetAddr 1 interface with totLen := 28, check := check }
        { request with checksum := sum }.body, 42⟩ ∧
      OnesComplement.sum 65536 (words { header inetNtoa inetAddr 1 interface with
        totLen := 28, check := check }.bytes) = 0xFFFF ∧
      OnesComplement.sum 65536 (words { request with checksum := sum }.bytes) = 0xFFFF := by
  obtain ⟨sum, verified, built⟩ := getIcmp_eq interface (header inetNtoa inetAddr 1 interface)
  obtain ⟨check, forged, checked⟩ := forgeWith_eq inetNtoa inetAddr built
  exact ⟨check, sum, forged, checked, verified⟩

/-- What a receiver checks of a frame from this interface. -/
structure Accepted (interface : Interface) (sendbuff : Block frameSize) : Prop where
  etherType : words ((sendbuff.pointer 12).take 2) = [0x0800]
  version : (sendbuff.bytes[14]?).map (fun first => first.toNat / 16) = some 4
  headerLength : (sendbuff.bytes[14]?).map (fun first => first.toNat % 16) = some 5
  check : OnesComplement.sum 65536 (words ((sendbuff.pointer 14).take iphdrSize)) = 0xFFFF
  totalLength : words ((sendbuff.pointer 16).take 2) = [iphdrSize + icmphdrSize]
  checksum : OnesComplement.sum 65536 (words ((sendbuff.pointer 34).take icmphdrSize)) = 0xFFFF
  source : (sendbuff.pointer 6).take 6 = interface.mac
  sourceAddress : (sendbuff.pointer 26).take 4 = interface.addr.bytes

/-- A receiver accepts what is built for any interface. -/
theorem forge_accepted (interface : Interface)
    (undo : inetAddr (inetNtoa interface.addr) = interface.addr) :
    ∃ state, forge inetNtoa inetAddr interface = some state ∧
      Accepted interface state.sendbuff := by
  obtain ⟨check, sum, forged, checked, verified⟩ := forge_eq inetNtoa inetAddr interface
  refine ⟨_, forged, ?_⟩
  constructor
  case etherType => rfl
  case version => exact congrArg some (by decide : (0x45 : UInt8).toNat / 16 = 4)
  case headerLength => exact congrArg some (by decide : (0x45 : UInt8).toNat % 16 = 5)
  case check => exact checked
  case totalLength => exact words_short 28
  case checksum => exact verified
  case source => rfl
  case sourceAddress => exact congrArg InAddr.bytes undo

end Addresses

theorem forge_accepted_ethernet :
    ∃ state, forge dottedQuad parseQuad ethernet = some state ∧
      Accepted ethernet state.sendbuff :=
  forge_accepted dottedQuad parseQuad ethernet (funext (by decide))

end CssLab.Forge
