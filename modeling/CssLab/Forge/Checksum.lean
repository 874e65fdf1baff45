import CssLab.Forge.Packet
import CssLab.Tunnel.Delivery

namespace CssLab.Forge

open Tunnel (htons shortBytes icmpSum icmpChecksum)

theorem htons_toNat (host : UInt16) : (htons host).toNat = OnesComplement.swap 256 host.toNat := by
  have bound := host.toNat_lt
  rw [htons, UInt16.toNat_ofNat', OnesComplement.swap, Nat.mod_eq_of_lt]
  omega

theorem htons_ofNat {word : Nat} (small : word < 65536) :
    htons (UInt16.ofNat word) = UInt16.ofNat (OnesComplement.swap 256 word) := by
  have swapped : OnesComplement.swap 256 word < 65536 := OnesComplement.swap_lt rfl small
  apply UInt16.toNat_inj.mp
  rw [htons_toNat, UInt16.toNat_ofNat', UInt16.toNat_ofNat', Nat.mod_eq_of_lt small,
    Nat.mod_eq_of_lt swapped]

theorem htons_not (host : UInt16) : htons (~~~host) = ~~~htons host := by
  have bound := host.toNat_lt
  have size : UInt16.size = 65536 := rfl
  apply UInt16.toNat_inj.mp
  rw [htons_toNat, UInt16.toNat_not, UInt16.toNat_not, htons_toNat, OnesComplement.swap,
    OnesComplement.swap, size]
  omega

/-- The loop of `icmp_checksum` adds the same words, read the other way round. -/
theorem icmpSum_swap {bytes : List UInt8} (even : bytes.length % 2 = 0) (sum : Nat) :
    icmpSum sum bytes = sum + ((words bytes).map (OnesComplement.swap 256)).sum := by
  induction bytes using words.induct generalizing sum with
  | case1 first second rest ih =>
    have fewer : rest.length % 2 = 0 := by
      simpa [Nat.add_assoc] using even
    have low := second.toNat_lt
    have swapped : OnesComplement.swap 256 (256 * first.toNat + second.toNat) =
        first.toNat + 256 * second.toNat := by
      have high := first.toNat_lt
      unfold OnesComplement.swap
      omega
    rw [icmpSum, ih fewer, words, List.map_cons, List.sum_cons, swapped, Nat.add_assoc]
  | case2 bytes short =>
    cases bytes with
    | nil => rfl
    | cons first rest =>
      cases rest with
      | nil => simp at even
      | cons second rest => exact absurd rfl (short first second rest)

theorem icmpChecksum_eq {bytes : List UInt8} (few : icmpSum 0 bytes < 4294967296) :
    icmpChecksum bytes =
      ~~~UInt16.ofNat (OnesComplement.reduced 65536 (icmpSum 0 bytes)) := by
  unfold icmpChecksum
  generalize icmpSum 0 bytes = sum at few
  have once := OnesComplement.reduced_carry_add (by decide : 1 < 65536) sum 0
  rw [Nat.add_zero, Nat.add_zero] at once
  have carried : sum / 65536 + sum % 65536 = OnesComplement.carry 65536 sum := Nat.add_comm ..
  have small : OnesComplement.carry 65536 sum ≤ 131070 := by
    unfold OnesComplement.carry
    omega
  simp only [carried]
  rw [← once]
  generalize OnesComplement.carry 65536 sum = sum at small
  have twice := OnesComplement.reduced_carry_add (by decide : 1 < 65536) sum 0
  rw [Nat.add_zero, Nat.add_zero] at twice
  have below : OnesComplement.carry 65536 sum < 65536 := by
    unfold OnesComplement.carry
    omega
  rw [← twice, OnesComplement.reduced_of_lt below]
  congr 1
  apply UInt16.toNat_inj.mp
  rw [UInt16.toNat_ofNat', UInt16.toNat_ofNat', OnesComplement.carry]
  omega

theorem sum_words_lt (bytes : List UInt8) (few : bytes.length ≤ 131072) :
    (words bytes).sum < 4294967296 := by
  have bound := sum_words_le bytes
  omega

theorem icmpSum_lt (bytes : List UInt8) (few : bytes.length ≤ 131072) :
    icmpSum 0 bytes < 4294967296 := by
  have bound := Tunnel.icmpSum_le 0 bytes
  omega

theorem checksum_htons {buf : List UInt8} {size : Nat} (even : size % 2 = 0)
    (few : size ≤ 131072) (fits : size ≤ buf.length) :
    ∃ sum, checksum buf size = some sum ∧ icmpChecksum (buf.take size) = htons sum ∧
      sum = ~~~UInt16.ofNat
        (OnesComplement.reduced 65536 (words (buf.take size)).sum) := by
  have length : (buf.take size).length = size := List.length_take_of_le fits
  have swapped : icmpSum 0 (buf.take size) =
      ((words (buf.take size)).map (OnesComplement.swap 256)).sum := by
    rw [icmpSum_swap (by rw [length, even]), Nat.zero_add]
  have small := OnesComplement.reduced_lt (by decide : 1 < 65536) (words (buf.take size)).sum
  have square : 65536 = 256 * 256 := rfl
  refine ⟨_, checksum_eq even fits few, ?_, rfl⟩
  have whole := OnesComplement.reduced_swap (by decide) square (words (buf.take size))
  rw [icmpChecksum_eq (icmpSum_lt _ (by rw [length]; exact few)), swapped, whole, htons_not,
    htons_ofNat small]

/-- The tunnel and the programs that forge packets compute one checksum, each in its own
byte order; no sum overflows and the loop that folds ends. -/
theorem checksums_agree (buf : List UInt8) (size : Nat) (even : size % 2 = 0)
    (few : size ≤ 131072) (fits : size ≤ buf.length) :
    ∃ sum, checksum buf size = some sum ∧ icmpChecksum (buf.take size) = htons sum ∧
      (∀ rounds, ((words (buf.take size)).take rounds).sum < 4294967296) ∧
      (∀ rounds, icmpSum 0 ((buf.take size).take (2 * rounds)) < 9223372036854775808) ∧
      ∃ rounds,
        (OnesComplement.carry 65536)^[rounds] (words (buf.take size)).sum < 65536 ∧
        sum = ~~~UInt16.ofNat
          ((OnesComplement.carry 65536)^[rounds] (words (buf.take size)).sum) := by
  have length := List.length_take_le size buf
  obtain ⟨sum, summed, agreed, complement⟩ := checksum_htons even few fits
  obtain ⟨rounds, folded, below⟩ :=
    OnesComplement.fold_iterate (by decide : 1 < 65536) (words (buf.take size)).sum
  refine ⟨sum, summed, agreed, ?_, ?_, rounds, ?_, ?_⟩
  · intro rounds
    have parts := List.sum_take_add_sum_drop (words (buf.take size)) rounds
    have bound := sum_words_lt (buf.take size) (by omega)
    omega
  · intro rounds
    have length' := List.length_take_le (2 * rounds) (buf.take size)
    have few' := icmpSum_lt ((buf.take size).take (2 * rounds)) (by
      rw [List.length_take]
      omega)
    omega
  · rw [folded]
    exact below
  · rw [folded, OnesComplement.fold_eq (by decide)]
    exact complement

theorem checksums_agree_four :
    ∃ sum, checksum [0x45, 0x10, 0x00, 0xff] 4 = some sum ∧
      icmpChecksum [0x45, 0x10, 0x00, 0xff] = htons sum := by
  obtain ⟨sum, summed, agreed, _⟩ := checksums_agree [0x45, 0x10, 0x00, 0xff] 4 (by decide)
    (by decide) (by decide)
  exact ⟨sum, summed, agreed⟩

/-- Of words that sum up to ones the checksum is zero. -/
theorem checksum_of_verified {buf : List UInt8} (even : buf.length % 2 = 0)
    (few : buf.length ≤ 131072) (verified : OnesComplement.sum 65536 (words buf) = 65535) :
    checksum buf buf.length = some 0 := by
  rw [OnesComplement.sum_eq (by decide) (words_lt buf)] at verified
  rw [checksum_eq even (Nat.le_refl _) few, List.take_length, verified]
  rfl

/-- The bytes before the two that are zero, those two and the bytes after them. -/
theorem split_zeroed {buf : List UInt8} (zeroed : (buf.drop offset).take 2 = [0, 0]) :
    buf = buf.take offset ++ shortBytes (htons 0) ++ buf.drop (offset + 2) := by
  have parts : buf.drop offset = shortBytes (htons 0) ++ buf.drop (offset + 2) := by
    have zeros : shortBytes (htons 0) = [0, 0] := rfl
    rw [zeros, ← zeroed, ← List.drop_drop, List.take_append_drop]
  conv_lhs => rw [← List.take_append_drop offset buf, parts, ← List.append_assoc]

/-- A checksum put where zeros were makes all the words sum up to ones. -/
theorem inserted_verifies {size : Nat} (buffer : Block size) (offset : Nat)
    (even : size % 2 = 0) (few : size ≤ 131072) (even' : offset % 2 = 0)
    (zeroed : (buffer.pointer offset).take 2 = [0, 0]) :
    ∃ sum after, checksum buffer.bytes size = some sum ∧
      buffer.write offset (shortBytes (htons sum)) = some after ∧
      OnesComplement.sum 65536 (words after.bytes) = 0xFFFF ∧
      checksum after.bytes size = some 0 := by
  have two (value : UInt16) : (shortBytes (htons value)).length = 2 := rfl
  have room : offset + 2 ≤ size := by
    have length := congrArg List.length zeroed
    rw [List.length_take, Block.pointer, List.length_drop, buffer.length_bytes] at length
    simp only [List.length_cons, List.length_nil] at length
    omega
  have front : (buffer.bytes.take offset).length = offset := by
    rw [List.length_take, buffer.length_bytes]
    omega
  have back : (buffer.bytes.drop (offset + 2)).length = size - (offset + 2) := by
    rw [List.length_drop, buffer.length_bytes]
  have whole : (buffer.bytes.take offset).length + 2 +
      (buffer.bytes.drop (offset + 2)).length = size := by omega
  obtain ⟨sum, summed, -, -⟩ := checksum_htons even few (Nat.le_of_eq buffer.length_bytes.symm)
  obtain ⟨after, written⟩ := buffer.write_some offset (shortBytes (htons sum)) room
  have bytes := Block.bytes_write written
  rw [two] at bytes
  have verified : OnesComplement.sum 65536 (words after.bytes) = 65535 := by
    rw [bytes]
    refine checksum_verifies (fun sum => buffer.bytes.take offset ++
      shortBytes (htons sum) ++ buffer.bytes.drop (offset + 2)) _ _ [] (fun _ => rfl)
      (by omega) (by omega) (by omega) ?_
    rw [whole, List.append_nil, ← split_zeroed zeroed]
    exact summed
  have returned := checksum_of_verified (by rw [after.length_bytes]; exact even)
    (by rw [after.length_bytes]; exact few) verified
  rw [after.length_bytes] at returned
  exact ⟨sum, after, summed, written, verified, returned⟩

/-- The header of an echo request. -/
theorem inserted_verifies_icmp :
    ∃ sum after, checksum [8, 0, 0, 0, 0x12, 0x34, 0, 1] 8 = some sum ∧
      (⟨[8, 0, 0, 0, 0x12, 0x34, 0, 1], rfl⟩ : Block 8).write 2 (shortBytes (htons sum)) =
        some after ∧
      OnesComplement.sum 65536 (words after.bytes) = 0xFFFF ∧
      checksum after.bytes 8 = some 0 :=
  inserted_verifies ⟨[8, 0, 0, 0, 0x12, 0x34, 0, 1], rfl⟩ 2 (by decide) (by decide)
    (by decide) rfl

/-- The bytes that `checksum` is given, with a zero after them if their number is odd. -/
def padded (buf : List UInt8) (size : Nat) : List UInt8 :=
  buf.take size ++ List.replicate (size % 2) 0

theorem length_padded {buf : List UInt8} (fits : size ≤ buf.length) :
    (padded buf size).length = size + size % 2 := by
  rw [padded, List.length_append, List.length_take_of_le fits, List.length_replicate]

/-- A byte after an odd number of them is the low half of the last word. -/
theorem sum_words_last {bytes : List UInt8} (odd : bytes.length % 2 = 1) (last : UInt8) :
    (words (bytes ++ [last])).sum = (words (bytes ++ [0])).sum + last.toNat := by
  rcases List.eq_nil_or_concat' bytes with rfl | ⟨front, byte, rfl⟩
  · cases odd
  · have even : front.length % 2 = 0 := by
      rw [List.length_append, List.length_singleton] at odd
      omega
    have word (low : UInt8) : words (front ++ [byte] ++ [low]) =
        words front ++ [256 * byte.toNat + low.toNat] := by
      rw [List.append_assoc, words_append even]
      rfl
    rw [word, word, List.sum_append, List.sum_append, List.sum_singleton, List.sum_singleton,
      UInt8.toNat_zero, Nat.add_zero, Nat.add_assoc]

theorem checksum_padded {buf : List UInt8} (fits : size ≤ buf.length) :
    checksum (padded buf size) (size + size % 2) = some (~~~UInt16.ofNat
      (OnesComplement.reduced 65536 ((words (padded buf size)).sum % 4294967296))) := by
  have length := length_padded fits
  have even : (size + size % 2) % 2 = 0 := by omega
  rw [checksum_some (by rw [even, length]; exact Nat.le_refl _), even, Nat.add_zero, ← length,
    List.take_length]

theorem checksum_even {buf : List UInt8} (even : size % 2 = 0) (fits : size ≤ buf.length) :
    checksum buf size = checksum (padded buf size) (size + size % 2) := by
  rw [checksum_padded fits, checksum_some (by omega), padded, even, Nat.add_zero,
    List.replicate_zero, List.append_nil]

theorem complement_inj {left right : Nat} (small : left < 65536) (small' : right < 65536)
    (same : ~~~UInt16.ofNat left = ~~~UInt16.ofNat right) : left = right := by
  have numbers := congrArg UInt16.toNat same
  have size : UInt16.size = 65536 := rfl
  rw [UInt16.toNat_not, UInt16.toNat_not, UInt16.toNat_ofNat', UInt16.toNat_ofNat',
    Nat.mod_eq_of_lt small, Nat.mod_eq_of_lt small', size] at numbers
  omega

/-- The low half of the last word is a byte beyond those that are given. -/
theorem checksum_odd {buf : List UInt8} (odd : size % 2 = 1) (fits : size ≤ buf.length) :
    checksum buf size = checksum (padded buf size) (size + size % 2) ↔ buf[size]? = some 0 := by
  rw [checksum_padded fits]
  cases next : buf[size]? with
  | none =>
    have length := List.getElem?_eq_none_iff.mp next
    have short : checksum buf size = none := if_pos (by omega)
    rw [short]
    exact iff_of_false (by rintro ⟨⟩) (by rintro ⟨⟩)
  | some last =>
    obtain ⟨more, found⟩ := List.getElem?_eq_some_iff.mp next
    have length : (buf.take size).length = size := List.length_take_of_le fits
    have taken : buf.take (size + 1) = buf.take size ++ [last] := by
      rw [List.take_add_one, next, Option.toList_some]
    rw [checksum_some (by omega), padded, odd, taken, List.replicate_one,
      sum_words_last (by rw [length, odd]), Option.some_inj, Option.some_inj]
    have small := last.toNat_lt
    constructor
    · intro same
      have reduced := complement_inj (OnesComplement.reduced_lt (by decide) _)
        (OnesComplement.reduced_lt (by decide) _) same
      have none := OnesComplement.reduced_wrapped (by decide : 1 < 65536) (by omega) reduced
      exact UInt8.toNat_inj.mp none
    · rintro rfl
      rfl

/-- What is returned depends on the given bytes alone exactly where no byte is read beyond
them, or those read are zero. -/
theorem checksum_given_iff (buf buf' : List UInt8) (size : Nat) (fits : size ≤ buf.length)
    (fits' : size ≤ buf'.length) (same : buf.take size = buf'.take size) :
    (checksum buf size = checksum buf' size ∧
      checksum buf size = checksum (padded buf size) (size + size % 2)) ↔
    (size % 2 = 0 ∨ buf[size]? = some 0 ∧ buf'[size]? = some 0) := by
  have equal : padded buf size = padded buf' size := by
    rw [padded, padded, same]
  rcases Nat.mod_two_eq_zero_or_one size with even | odd
  · refine iff_of_true ?_ (.inl even)
    rw [checksum_even even fits, checksum_even even fits', equal]
    exact ⟨rfl, rfl⟩
  · rw [← checksum_odd odd fits, ← checksum_odd odd fits', ← equal]
    constructor
    · rintro ⟨returned, given⟩
      exact .inr ⟨given, returned.symm.trans given⟩
    · rintro (even | ⟨given, given'⟩)
      · omega
      · exact ⟨given.trans given'.symm, given⟩

theorem checksum_given_iff_one :
    (checksum [0x68, 1] 1 = checksum [0x68, 0] 1 ∧
      checksum [0x68, 1] 1 = checksum (padded [0x68, 1] 1) 2) ↔
    ((1 : Nat) % 2 = 0 ∨ [0x68, (1 : UInt8)][1]? = some 0 ∧ [0x68, (0 : UInt8)][1]? = some 0) :=
  checksum_given_iff [0x68, 1] [0x68, 0] 1 (by decide) (by decide) rfl

/-- The bytes that `get_udp` gives, with one and with zero after them. -/
theorem checksum_beyond :
    checksum [0x22, 0xb8, 0x22, 0xb8, 13, 0, 0, 0, 0x68, 0x65, 0x6c, 0x6c, 0x6f, 1] 13 ≠
      checksum [0x22, 0xb8, 0x22, 0xb8, 13, 0, 0, 0, 0x68, 0x65, 0x6c, 0x6c, 0x6f, 0] 13 := by
  intro same
  have given : [0x22, 0xb8, 0x22, 0xb8, 13, 0, 0, 0, 0x68, 0x65, 0x6c, 0x6c, 0x6f, (1 : UInt8)][13]?
      = some 0 := by
    rw [← checksum_odd rfl (by decide), same]
    exact (checksum_odd rfl (by decide)).mpr rfl
  exact absurd given (by decide)

end CssLab.Forge
