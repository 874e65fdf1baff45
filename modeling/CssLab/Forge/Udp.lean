import CssLab.Forge.Transport

/-! `UDP-forge.c`: a datagram whose length is not in network order and whose checksum is
made without the pseudo-header. -/

namespace CssLab.Forge.Udp

open Block
open Tunnel (htons shortBytes)

abbrev udphdrSize : Nat := 8

/-- How many bytes `get_data` adds. -/
abbrev dataSize : Nat := 5

/-- `sendbuff[total_len++] = byte` -/
def put (byte : UInt8) (state : State) : Option State := do
  let place ← state.totalLen.toNat?
  let sendbuff ← state.sendbuff.write place [byte]
  some ⟨sendbuff, state.totalLen + 1⟩

def getData (state : State) : Option State := do
  let state ← put 0x68 state
  let state ← put 0x65 state
  let state ← put 0x6C state
  let state ← put 0x6C state
  put 0x6F state

def getUdp (state : State) : Option State := do
  let uh := iphdrSize + ethhdrSize
  let sendbuff ← state.sendbuff.write uh (shortBytes (htons 8888))
  let sendbuff ← sendbuff.write (uh + 2) (shortBytes (htons 8888))
  -- There is no `htons` here.
  let sendbuff ← sendbuff.write (uh + 4) (shortBytes 13)
  let state ← getData ⟨sendbuff, state.totalLen + udphdrSize⟩
  let sum ← checksum (state.sendbuff.pointer (ethhdrSize + iphdrSize)) 13
  let sendbuff ← state.sendbuff.write (uh + 6) (shortBytes (htons sum))
  some ⟨sendbuff, state.totalLen⟩

section Addresses

variable (inetNtoa : InAddr → List UInt8) (inetAddr : List UInt8 → InAddr)

def getIp (interface : Interface) (state : State) : Option State :=
  getIpWith inetNtoa inetAddr 17 getUdp interface state

/-- What `main` does before it sends. -/
def forge (interface : Interface) : Option State := do
  let state ← getMac interface ⟨.zero _, 0⟩
  getIp inetNtoa inetAddr interface state

end Addresses

/-- The datagram with so much of its data, and the zeros after it. -/
def datagram (check : UInt16) (data : List UInt8) (room : data.length ≤ 22) : Block bodySize :=
  ⟨[0x22, 0xb8, 0x22, 0xb8, 13, 0] ++ shortBytes (htons check) ++ data ++
    List.replicate (22 - data.length) 0, by
      rw [List.length_append, List.length_append, List.length_replicate, Nat.add_assoc,
        Nat.add_sub_cancel' room]
      rfl⟩

/-- The datagram with all of its data. -/
def hello (check : UInt16) : Block bodySize :=
  datagram check [0x68, 0x65, 0x6c, 0x6c, 0x6f] (by decide)

theorem put_packet {interface : Interface} {ip : IpHeader} {body : Block bodySize}
    {offset : Nat} (after : Block bodySize) (written : body.write offset [byte] = some after) :
    put byte ⟨packet interface ip body, (34 + offset : Nat)⟩ =
      some ⟨packet interface ip after, (34 + (offset + 1) : Nat)⟩ := by
  have place : ((34 + offset : Nat) : Int).toNat? = some (34 + offset) := rfl
  simp only [put, Option.bind_eq_bind]
  rw [place, Option.bind_some, packet_write interface ip body offset written, Option.bind_some]
  rfl

theorem getData_eq (interface : Interface) (ip : IpHeader) :
    getData ⟨packet interface ip (datagram 0 [] (by decide)), (34 + 8 : Nat)⟩ =
      some ⟨packet interface ip (hello 0), (34 + 13 : Nat)⟩ := by
  simp only [getData, Option.bind_eq_bind]
  rw [put_packet (datagram 0 [0x68] (by decide)) rfl, Option.bind_some,
    put_packet (datagram 0 [0x68, 0x65] (by decide)) rfl, Option.bind_some,
    put_packet (datagram 0 [0x68, 0x65, 0x6c] (by decide)) rfl, Option.bind_some,
    put_packet (datagram 0 [0x68, 0x65, 0x6c, 0x6c] (by decide)) rfl, Option.bind_some,
    put_packet (hello 0) rfl]

/-- The byte after the data is a zero, so it does not matter that it is read. -/
theorem checksum_hello : ∃ sum, checksum (hello 0).bytes 13 = some sum ∧
    OnesComplement.sum 65536 (words ((hello sum).bytes.take 14)) = 0xFFFF := by
  have even := (@checksum_odd 13 (hello 0).bytes rfl (by decide)).mpr rfl
  have summed := @checksum_eq (padded (hello 0).bytes 13) 14 rfl (by decide)
    (by decide)
  refine ⟨_, even.trans summed, ?_⟩
  exact checksum_verifies (fun sum => (hello sum).bytes.take 14)
    [0x22, 0xb8, 0x22, 0xb8, 13, 0] [0x68, 0x65, 0x6c, 0x6c, 0x6f, 0] [] (fun _ => rfl)
    ⟨3, rfl⟩ ⟨3, rfl⟩ (by decide) summed

theorem getUdp_eq (interface : Interface) (ip : IpHeader) :
    ∃ sum, OnesComplement.sum 65536 (words ((hello sum).bytes.take 14)) = 0xFFFF ∧
      getUdp ⟨packet interface ip (.zero _), 34⟩ =
        some ⟨packet interface ip (hello sum), 47⟩ := by
  obtain ⟨sum, summed, verified⟩ := checksum_hello
  have source : (packet interface ip (.zero _)).write (iphdrSize + ethhdrSize)
      (shortBytes (htons 8888)) =
        some (packet interface ip ⟨[0x22, 0xb8] ++ List.replicate 28 0, rfl⟩) :=
    packet_write interface ip (.zero _) 0 rfl
  have dest : (packet interface ip ⟨[0x22, 0xb8] ++ List.replicate 28 0, rfl⟩).write
      (iphdrSize + ethhdrSize + 2) (shortBytes (htons 8888)) =
        some (packet interface ip ⟨[0x22, 0xb8, 0x22, 0xb8] ++ List.replicate 26 0, rfl⟩) :=
    packet_write interface ip ⟨[0x22, 0xb8] ++ List.replicate 28 0, rfl⟩ 2 rfl
  have len : (packet interface ip ⟨[0x22, 0xb8, 0x22, 0xb8] ++ List.replicate 26 0, rfl⟩).write
      (iphdrSize + ethhdrSize + 4) (shortBytes 13) =
        some (packet interface ip (datagram 0 [] (by decide))) :=
    packet_write interface ip ⟨[0x22, 0xb8, 0x22, 0xb8] ++ List.replicate 26 0, rfl⟩ 4
      rfl
  have data : getData ⟨packet interface ip (datagram 0 [] (by decide)), 34 + udphdrSize⟩ =
      some ⟨packet interface ip (hello 0), 47⟩ := getData_eq interface ip
  have body : (packet interface ip (hello 0)).pointer (ethhdrSize + iphdrSize) = (hello 0).bytes :=
    packet_pointer_body interface ip (hello 0) 0
  have check : (packet interface ip (hello 0)).write (iphdrSize + ethhdrSize + 6)
      (shortBytes (htons sum)) = some (packet interface ip (hello sum)) :=
    packet_write interface ip (hello 0) 6 rfl
  refine ⟨sum, verified, ?_⟩
  simp only [getUdp, Option.bind_eq_bind]
  rw [source, Option.bind_some, dest, Option.bind_some, len, Option.bind_some, data,
    Option.bind_some, body, summed, Option.bind_some, check, Option.bind_some]

section Addresses

variable (inetNtoa : InAddr → List UInt8) (inetAddr : List UInt8 → InAddr)

/-- What is built: a right IP header before a datagram that verifies alone. -/
theorem forge_eq (interface : Interface) :
    ∃ check sum, forge inetNtoa inetAddr interface = some ⟨packet interface
        { header inetNtoa inetAddr 17 interface with totLen := 33, check := check }
        (hello sum), 47⟩ ∧
      OnesComplement.sum 65536 (words { header inetNtoa inetAddr 17 interface with
        totLen := 33, check := check }.bytes) = 0xFFFF ∧
      OnesComplement.sum 65536 (words ((hello sum).bytes.take 14)) = 0xFFFF := by
  obtain ⟨sum, verified, built⟩ := getUdp_eq interface (header inetNtoa inetAddr 17 interface)
  obtain ⟨check, forged, checked⟩ := forgeWith_eq inetNtoa inetAddr built
  exact ⟨check, sum, forged, checked, verified⟩

end Addresses

/-- What a receiver checks of the datagram in a frame. -/
structure Accepted (sendbuff : Block frameSize) : Prop where
  check : OnesComplement.sum 65536 (words ((sendbuff.pointer 14).take iphdrSize)) = 0xFFFF
  totalLength : words ((sendbuff.pointer 16).take 2) = [iphdrSize + (udphdrSize + dataSize)]
  length : words ((sendbuff.pointer 38).take 2) = [udphdrSize + dataSize]
  checksum : OnesComplement.sum 65536 (words (pseudoHeader sendbuff 13 ++
    ((sendbuff.pointer 34).take (udphdrSize + dataSize) ++ [0]))) = 0xFFFF

section Addresses

variable (inetNtoa : InAddr → List UInt8) (inetAddr : List UInt8 → InAddr)

/-- What of it holds: the IP header is right, the length is 3328, and the checksum is right
where the pseudo-header happens to add nothing. -/
theorem forge_checks (interface : Interface) :
    ∃ state, forge inetNtoa inetAddr interface = some state ∧
      OnesComplement.sum 65536 (words ((state.sendbuff.pointer 14).take iphdrSize)) = 0xFFFF ∧
      words ((state.sendbuff.pointer 16).take 2) = [iphdrSize + (udphdrSize + dataSize)] ∧
      words ((state.sendbuff.pointer 38).take 2) = [3328] ∧
      (OnesComplement.sum 65536 (words (pseudoHeader state.sendbuff 13 ++
          ((state.sendbuff.pointer 34).take (udphdrSize + dataSize) ++ [0]))) = 0xFFFF ↔
        65535 ∣ (words ((inetAddr (inetNtoa interface.addr)).bytes ++
          (inetAddr destinationIp).bytes)).sum + 17 + 13) := by
  obtain ⟨check, sum, forged, checked, verified⟩ := forge_eq inetNtoa inetAddr interface
  refine ⟨_, forged, checked, ?_, ?_, ?_⟩
  · exact words_short 33
  · exact words_short 3328
  · exact verifies_packet_iff interface { header inetNtoa inetAddr 17 interface with
      totLen := 33, check := check } (hello sum) 13 verified

/-- No receiver accepts what is built, whatever the interface. -/
theorem datagram_not_accepted (interface : Interface) :
    ∃ state, forge inetNtoa inetAddr interface = some state ∧ ¬ Accepted state.sendbuff := by
  obtain ⟨state, forged, -, -, length, -⟩ := forge_checks inetNtoa inetAddr interface
  refine ⟨state, forged, ?_⟩
  intro accepted
  rw [accepted.length] at length
  exact absurd length (by decide)

end Addresses

theorem datagram_ethernet_refused :
    ¬ ∃ state, forge dottedQuad parseQuad ethernet = some state ∧ Accepted state.sendbuff := by
  rintro ⟨state, forged, accepted⟩
  obtain ⟨state', forged', -, -, length, -⟩ := forge_checks dottedQuad parseQuad ethernet
  obtain rfl := Option.some.inj (forged.symm.trans forged')
  rw [accepted.length] at length
  exact absurd length (by decide)

end CssLab.Forge.Udp
