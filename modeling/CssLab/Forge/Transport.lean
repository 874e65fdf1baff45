import CssLab.Forge.Checksum

namespace CssLab.Forge

open Block
open Tunnel (htons shortBytes)

/-- The pseudo-header of a frame whose transport has so many bytes. -/
def pseudoHeader (sendbuff : Block frameSize) (length : UInt16) : List UInt8 :=
  (sendbuff.pointer 26).take 8 ++ 0 :: (sendbuff.pointer 23).take 1 ++
    shortBytes (htons length)

theorem pseudoHeader_packet (interface : Interface) (ip : IpHeader) (body : Block bodySize)
    (length : UInt16) : pseudoHeader (packet interface ip body) length =
      (ip.saddr.bytes ++ ip.daddr.bytes ++ [0, ip.protocol]) ++ shortBytes (htons length) := rfl

theorem sum_pseudoHeader (interface : Interface) (ip : IpHeader) (body : Block bodySize)
    (length : UInt16) : (words (pseudoHeader (packet interface ip body) length)).sum =
      (words (ip.saddr.bytes ++ ip.daddr.bytes)).sum + ip.protocol.toNat + length.toNat := by
  have protocol : words [0, ip.protocol] = [ip.protocol.toNat] := by
    simp [words]
  rw [pseudoHeader_packet, words_append (Nat.mod_eq_zero_of_dvd ⟨5, rfl⟩), words_short,
    List.sum_append, List.sum_singleton, words_append (Nat.mod_eq_zero_of_dvd ⟨4, rfl⟩),
    protocol, List.sum_append, List.sum_singleton]

/-- Bytes that verify alone do so with their pseudo-header only by coincidence. -/
theorem verifies_packet_iff (interface : Interface) (ip : IpHeader) (body : Block bodySize)
    (length : UInt16) {bytes : List UInt8}
    (alone : OnesComplement.sum 65536 (words bytes) = 0xFFFF) :
    OnesComplement.sum 65536 (words (pseudoHeader (packet interface ip body) length ++ bytes)) =
        0xFFFF ↔
      65535 ∣ (words (ip.saddr.bytes ++ ip.daddr.bytes)).sum + ip.protocol.toNat +
        length.toNat := by
  have wide : 1 < 65536 := by decide
  have ones {words : List Nat} : OnesComplement.reduced 65536 words.sum = 0xFFFF ↔
      words.sum ≠ 0 ∧ 65535 ∣ words.sum := OnesComplement.reduced_ones wide
  have even : (pseudoHeader (packet interface ip body) length).length % 2 = 0 :=
    Nat.mod_eq_zero_of_dvd ⟨6, rfl⟩
  rw [OnesComplement.sum_eq wide (words_lt _), ones] at alone ⊢
  rw [words_append even, List.sum_append, ← Nat.dvd_add_iff_left alone.2, sum_pseudoHeader]
  exact and_iff_right (by omega)

end CssLab.Forge
