import CssLab.Tunnel.Packet
import CssLab.Lib.Http
import CssLab.Lib.OnesComplement

namespace CssLab.Forge

open Block
open Tunnel (htons shortBytes)

/-- How much memory `sendbuff` points to. -/
abbrev frameSize : Nat := 64

/-- `sizeof(struct ethhdr)`: the destination at 0, the source at 6, the protocol at 12. -/
abbrev ethhdrSize : Nat := 14

abbrev iphdrSize : Nat := 20

def ethPIp : UInt16 := 0x0800

/-- `DESTMAC0` to `DESTMAC5` -/
def destMac : List UInt8 := [0x00, 0x0c, 0x29, 0xe1, 0x8c, 0xaa]

/-- The text that `inet_addr` makes the destination of. -/
def destinationIp : List UInt8 := Http.text "192.168.117.138"

/-- The bytes of a `struct in_addr`, in network order. -/
abbrev InAddr := Fin 4 → UInt8

def InAddr.bytes (addr : InAddr) : List UInt8 := [addr 0, addr 1, addr 2, addr 3]

/-- What the requests `SIOCGIFHWADDR` and `SIOCGIFADDR` of `ioctl` say about the interface. -/
structure Interface where
  hwaddr : Fin 6 → UInt8
  addr : InAddr

/-- The six assignments to `h_source`. -/
def Interface.mac (interface : Interface) : List UInt8 :=
  [interface.hwaddr 0, interface.hwaddr 1, interface.hwaddr 2, interface.hwaddr 3,
    interface.hwaddr 4, interface.hwaddr 5]

/-- The globals `sendbuff` and `total_len`. -/
structure State where
  sendbuff : Block frameSize
  totalLen : Int

/-- The words that `checksum` adds, the first byte of each the high one. -/
def words : List UInt8 → List Nat
  | first :: second :: rest => (256 * first.toNat + second.toNat) :: words rest
  | _ => []

/-- `checksum`, of as many bytes as `size` and one more if that is odd. -/
def checksum (buf : List UInt8) (size : Nat) : Option UInt16 :=
  if buf.length < size + size % 2 then none
  else
    let checkSum := (words (buf.take (size + size % 2))).foldl
      (fun checkSum word => (checkSum + word) % 4294967296) 0
    some (~~~UInt16.ofNat (OnesComplement.fold 65536 checkSum))

def getMac (interface : Interface) (state : State) : Option State := do
  let sendbuff ← state.sendbuff.write 6 interface.mac
  let sendbuff ← sendbuff.write 0 destMac
  let sendbuff ← sendbuff.write 12 (shortBytes (htons ethPIp))
  some ⟨sendbuff, state.totalLen + ethhdrSize⟩

/-- The end of `get_ip`, after the bytes of the transport. -/
def finishIp (state : State) : Option State := do
  let iph := ethhdrSize
  let totLen := UInt16.ofInt (state.totalLen - ethhdrSize)
  let sendbuff ← state.sendbuff.write (iph + 2) (shortBytes (htons totLen))
  let sum ← checksum (sendbuff.pointer iph) iphdrSize
  let sendbuff ← sendbuff.write (iph + 10) (shortBytes (htons sum))
  some ⟨sendbuff, state.totalLen⟩

/-- The IP header that is built; the fields left out stay zero. -/
structure IpHeader where
  first : UInt8
  tos : UInt8
  totLen : UInt16
  id : UInt16
  ttl : UInt8
  protocol : UInt8
  check : UInt16
  saddr : InAddr
  daddr : InAddr

def IpHeader.bytes (ip : IpHeader) : List UInt8 :=
  [ip.first, ip.tos] ++ shortBytes (htons ip.totLen) ++ shortBytes (htons ip.id) ++
    [0, 0, ip.ttl, ip.protocol] ++ shortBytes (htons ip.check) ++
    (ip.saddr.bytes ++ ip.daddr.bytes)

theorem words_append {front : List UInt8} (even : front.length % 2 = 0) (back : List UInt8) :
    words (front ++ back) = words front ++ words back := by
  induction front using words.induct with
  | case1 first second rest ih =>
    have fewer : rest.length % 2 = 0 := by
      simpa [Nat.add_assoc] using even
    simp only [List.cons_append, words, ih fewer]
  | case2 bytes short =>
    cases bytes with
    | nil => rfl
    | cons first rest =>
      cases rest with
      | nil => simp at even
      | cons second rest => exact absurd rfl (short first second rest)

theorem words_short (value : UInt16) : words (shortBytes (htons value)) = [value.toNat] := by
  have bound := value.toNat_lt
  have high : value.toNat / 256 < 256 := by omega
  have swapped : (htons value).toNat = value.toNat % 256 * 256 + value.toNat / 256 := by
    rw [htons, UInt16.toNat_ofNat', Nat.mod_eq_of_lt (by omega)]
  have first : (UInt8.ofNat ((htons value).toNat % 256)).toNat = value.toNat / 256 := by
    rw [UInt8.toNat_ofNat', swapped, Nat.mul_add_mod_self_right, Nat.mod_mod, Nat.mod_eq_of_lt high]
  have second : (UInt8.ofNat ((htons value).toNat / 256)).toNat = value.toNat % 256 := by
    rw [UInt8.toNat_ofNat', swapped, Nat.mul_comm, Nat.mul_add_div (by decide),
      Nat.div_eq_of_lt high, Nat.add_zero, Nat.mod_mod]
  rw [shortBytes, words, first, second, Nat.div_add_mod]
  rfl

theorem words_lt (bytes : List UInt8) : ∀ word ∈ words bytes, word < 65536 := by
  induction bytes using words.induct with
  | case1 first second rest ih =>
    have low := second.toNat_lt
    have high := first.toNat_lt
    rw [words, List.forall_mem_cons]
    exact ⟨by omega, ih⟩
  | case2 bytes short =>
    rw [words]
    · simp
    · exact short

theorem sum_words_le (bytes : List UInt8) : 2 * (words bytes).sum ≤ 65535 * bytes.length := by
  induction bytes using words.induct with
  | case1 first second rest ih =>
    have low := second.toNat_lt
    have high := first.toNat_lt
    simp only [words, List.sum_cons, List.length_cons]
    omega
  | case2 bytes short =>
    rw [words]
    · simp
    · exact short

theorem foldl_words (words : List Nat) (start : Nat) (small : start < 4294967296) :
    words.foldl (fun checkSum word => (checkSum + word) % 4294967296) start =
      (start + words.sum) % 4294967296 := by
  induction words generalizing start with
  | nil => exact (Nat.mod_eq_of_lt small).symm
  | cons word words ih =>
    rw [List.foldl_cons, ih _ (Nat.mod_lt _ (by decide)), Nat.mod_add_mod, List.sum_cons,
      Nat.add_assoc]

theorem checksum_some {buf : List UInt8} {size : Nat} (fits : size + size % 2 ≤ buf.length) :
    checksum buf size = some (~~~UInt16.ofNat (OnesComplement.reduced 65536
      ((words (buf.take (size + size % 2))).sum % 4294967296))) := by
  rw [checksum, if_neg (Nat.not_lt_of_le fits)]
  simp only
  rw [foldl_words _ 0 (by decide), Nat.zero_add, OnesComplement.fold_eq (by decide)]

/-- For a header of whole words the complement of their ones' complement sum. -/
theorem checksum_eq {buf : List UInt8} {size : Nat} (even : size % 2 = 0)
    (fits : size ≤ buf.length) (few : size ≤ 131072) : checksum buf size =
      some (~~~UInt16.ofNat (OnesComplement.reduced 65536 (words (buf.take size)).sum)) := by
  have bound := sum_words_le (buf.take size)
  rw [List.length_take, Nat.min_eq_left fits] at bound
  rw [checksum_some (by omega), even, Nat.add_zero, Nat.mod_eq_of_lt (by omega)]

theorem sum_words_at {front : List UInt8} (even : 2 ∣ front.length) (back : List UInt8)
    (value : UInt16) : (words (front ++ shortBytes (htons value) ++ back)).sum =
      (words front).sum + (words back).sum + value.toNat := by
  have whole : (front ++ shortBytes (htons value)).length % 2 = 0 := by
    have two : (shortBytes (htons value)).length = 2 := rfl
    rw [List.length_append, two]
    omega
  rw [words_append whole, words_append (Nat.mod_eq_zero_of_dvd even), words_short,
    List.sum_append, List.sum_append, List.sum_singleton, Nat.add_right_comm]

/-- A header whose checksum was made with a zero in its place sums up to a word of ones. -/
theorem checksum_verifies (header : UInt16 → List UInt8) (front back more : List UInt8)
    (split : ∀ sum, header sum = front ++ shortBytes (htons sum) ++ back)
    (even : 2 ∣ front.length) (even' : 2 ∣ back.length)
    (few : front.length + 2 + back.length ≤ 131072)
    (summed : checksum (header 0 ++ more) (front.length + 2 + back.length) = some sum) :
    OnesComplement.sum 65536 (words (header sum)) = 65535 := by
  have length : (header 0).length = front.length + 2 + back.length := by
    rw [split, List.length_append, List.length_append]
    rfl
  rw [checksum_eq (by omega) (by rw [List.length_append, length]; omega) few,
    List.take_left' length, split, sum_words_at even, UInt16.toNat_zero, Nat.add_zero] at summed
  have small := OnesComplement.reduced_lt (by decide : 1 < 65536)
    ((words front).sum + (words back).sum)
  have value : sum.toNat = 65536 - 1 -
      OnesComplement.reduced 65536 ((words front).sum + (words back).sum) := by
    rw [← Option.some.inj summed, UInt16.toNat_not, UInt16.toNat_ofNat', Nat.mod_eq_of_lt small]
  rw [OnesComplement.sum_eq (by decide) (words_lt _), split, sum_words_at even, value,
    OnesComplement.reduced_complement (by decide)]

theorem IpHeader.verifies (ip : IpHeader) (more : List UInt8)
    (summed : checksum ({ ip with check := 0 }.bytes ++ more) iphdrSize = some sum) :
    OnesComplement.sum 65536 (words { ip with check := sum }.bytes) = 0xFFFF :=
  checksum_verifies (fun check => { ip with check := check }.bytes)
    ([ip.first, ip.tos] ++ shortBytes (htons ip.totLen) ++ shortBytes (htons ip.id) ++
      [0, 0, ip.ttl, ip.protocol])
    (ip.saddr.bytes ++ ip.daddr.bytes) more (fun _ => rfl) ⟨5, rfl⟩ ⟨4, rfl⟩
    (Nat.le_of_ble_eq_true rfl) summed

/-- The bytes of `sendbuff` after the IP header. -/
abbrev bodySize : Nat := 30

/-- The Ethernet header and the IP header. -/
def headers (interface : Interface) (ip : IpHeader) : List UInt8 :=
  destMac ++ interface.mac ++ shortBytes (htons ethPIp) ++ ip.bytes

/-- A frame with this IP header and any bytes after it. -/
def packet (interface : Interface) (ip : IpHeader) (body : Block bodySize) : Block frameSize :=
  ⟨headers interface ip ++ body.bytes, by
    rw [List.length_append, body.length_bytes]
    rfl⟩

section Packet

variable (interface : Interface) (ip : IpHeader) (body : Block bodySize)

theorem packet_first (value : UInt8) : (packet interface ip body).write 14 [value] =
    some (packet interface { ip with first := value } body) := rfl

theorem packet_tos (value : UInt8) : (packet interface ip body).write 15 [value] =
    some (packet interface { ip with tos := value } body) := rfl

theorem packet_totLen (value : UInt16) :
    (packet interface ip body).write 16 (shortBytes (htons value)) =
      some (packet interface { ip with totLen := value } body) := rfl

theorem packet_id (value : UInt16) :
    (packet interface ip body).write 18 (shortBytes (htons value)) =
      some (packet interface { ip with id := value } body) := rfl

theorem packet_ttl (value : UInt8) : (packet interface ip body).write 22 [value] =
    some (packet interface { ip with ttl := value } body) := rfl

theorem packet_protocol (value : UInt8) : (packet interface ip body).write 23 [value] =
    some (packet interface { ip with protocol := value } body) := rfl

theorem packet_check (value : UInt16) :
    (packet interface ip body).write 24 (shortBytes (htons value)) =
      some (packet interface { ip with check := value } body) := rfl

theorem packet_saddr (addr : InAddr) : (packet interface ip body).write 26 addr.bytes =
    some (packet interface { ip with saddr := addr } body) := rfl

theorem packet_daddr (addr : InAddr) : (packet interface ip body).write 30 addr.bytes =
    some (packet interface { ip with daddr := addr } body) := rfl

theorem packet_pointer_ip :
    (packet interface ip body).pointer 14 = ip.bytes ++ body.bytes := rfl

theorem packet_pointer_body (offset : Nat) :
    (packet interface ip body).pointer (34 + offset) = body.pointer offset := by
  rw [pointer, pointer, ← List.drop_drop]
  rfl

/-- A write after the IP header is a write into the rest. -/
theorem packet_write (offset : Nat) {after : Block bodySize}
    (written : body.write offset data = some after) :
    (packet interface ip body).write (34 + offset) data = some (packet interface ip after) := by
  have room := write_room written
  have sizes : bodySize = 30 ∧ frameSize = 64 := ⟨rfl, rfl⟩
  obtain ⟨whole, stored⟩ := (packet interface ip body).write_some (34 + offset) data (by omega)
  have front : (packet interface ip body).bytes.take (34 + offset) =
      headers interface ip ++ body.bytes.take offset :=
    (List.take_length_add_append offset : (headers interface ip ++ body.bytes).take _ = _)
  have back : (packet interface ip body).bytes.drop (34 + offset + data.length) =
      body.bytes.drop (offset + data.length) := by
    rw [Nat.add_assoc]
    exact packet_pointer_body interface ip body (offset + data.length)
  rw [stored]
  refine congrArg some (Block.ext ?_)
  calc whole.bytes
    _ = headers interface ip ++ (body.bytes.take offset ++ data ++
        body.bytes.drop (offset + data.length)) := by
      rw [bytes_write stored, front, back]
      simp only [List.append_assoc]
    _ = headers interface ip ++ after.bytes := by rw [bytes_write written]

end Packet

theorem getMac_eq (interface : Interface) : getMac interface ⟨.zero _, 0⟩ =
    some ⟨packet interface ⟨0, 0, 0, 0, 0, 0, 0, fun _ => 0, fun _ => 0⟩ (.zero _), 14⟩ := rfl

theorem finishIp_packet (interface : Interface) (ip : IpHeader) (body : Block bodySize)
    (totalLen : Int) :
    ∃ check, checksum ({ ip with totLen := UInt16.ofInt (totalLen - ethhdrSize) }.bytes ++
        body.bytes) iphdrSize = some check ∧
      finishIp ⟨packet interface ip body, totalLen⟩ = some ⟨packet interface { ip with
        totLen := UInt16.ofInt (totalLen - ethhdrSize), check := check } body, totalLen⟩ := by
  have fits : iphdrSize ≤ ({ ip with totLen := UInt16.ofInt (totalLen - ethhdrSize) }.bytes ++
      body.bytes).length := by
    rw [List.length_append]
    exact Nat.le_add_right ..
  have summed := @checksum_eq _ iphdrSize rfl fits (Nat.le_of_ble_eq_true rfl)
  have sized : (packet interface ip body).write (ethhdrSize + 2)
      (shortBytes (htons (UInt16.ofInt (totalLen - ethhdrSize)))) = some (packet interface
        { ip with totLen := UInt16.ofInt (totalLen - ethhdrSize) } body) := packet_totLen ..
  have written : ∀ check, (packet interface { ip with
      totLen := UInt16.ofInt (totalLen - ethhdrSize) } body).write (ethhdrSize + 10)
        (shortBytes (htons check)) = some (packet interface { ip with
          totLen := UInt16.ofInt (totalLen - ethhdrSize), check := check } body) :=
    packet_check interface { ip with totLen := UInt16.ofInt (totalLen - ethhdrSize) } body
  refine ⟨_, summed, ?_⟩
  simp only [finishIp, Option.bind_eq_bind]
  rw [sized, Option.bind_some, packet_pointer_ip, summed, Option.bind_some, written,
    Option.bind_some]

section Addresses

variable (inetNtoa : InAddr → List UInt8) (inetAddr : List UInt8 → InAddr)

/-- `get_ip` with the number of a protocol and the function that it calls. -/
def getIpWith (protocol : UInt8) (transport : State → Option State) (interface : Interface)
    (state : State) : Option State := do
  let iph := ethhdrSize
  let first ← state.sendbuff.bytes[iph]?
  let sendbuff ← state.sendbuff.write iph [first &&& 0xf0 ||| 5]
  let first ← sendbuff.bytes[iph]?
  let sendbuff ← sendbuff.write iph [first &&& 0x0f ||| 0x40]
  let sendbuff ← sendbuff.write (iph + 1) [16]
  let sendbuff ← sendbuff.write (iph + 4) (shortBytes (htons 10201))
  let sendbuff ← sendbuff.write (iph + 8) [64]
  let sendbuff ← sendbuff.write (iph + 9) [protocol]
  let sendbuff ← sendbuff.write (iph + 12) (inetAddr (inetNtoa interface.addr)).bytes
  let sendbuff ← sendbuff.write (iph + 16) (inetAddr destinationIp).bytes
  let state ← transport ⟨sendbuff, state.totalLen + iphdrSize⟩
  finishIp state

/-- What `main` does before it sends, with that `get_ip`. -/
def forgeWith (protocol : UInt8) (transport : State → Option State) (interface : Interface) :
    Option State := do
  let state ← getMac interface ⟨.zero _, 0⟩
  getIpWith inetNtoa inetAddr protocol transport interface state

/-- The header when that function is called. -/
def header (protocol : UInt8) (interface : Interface) : IpHeader :=
  ⟨0x45, 16, 0, 10201, 64, protocol, 0, inetAddr (inetNtoa interface.addr),
    inetAddr destinationIp⟩

theorem getIpWith_eq (protocol : UInt8) (transport : State → Option State)
    (interface : Interface) (body : Block bodySize) (totalLen : Int) :
    getIpWith inetNtoa inetAddr protocol transport interface
        ⟨packet interface ⟨0, 0, 0, 0, 0, 0, 0, fun _ => 0, fun _ => 0⟩ body, totalLen⟩ =
      (transport ⟨packet interface (header inetNtoa inetAddr protocol interface) body,
        totalLen + iphdrSize⟩).bind finishIp := by
  have first : ∀ ip body, (packet interface ip body).bytes[ethhdrSize]? = some ip.first :=
    fun _ _ => rfl
  simp only [getIpWith, Option.bind_eq_bind]
  rw [first, Option.bind_some, packet_first, Option.bind_some, first, Option.bind_some,
    packet_first, Option.bind_some, packet_tos, Option.bind_some, packet_id, Option.bind_some,
    packet_ttl, Option.bind_some, packet_protocol, Option.bind_some, packet_saddr,
    Option.bind_some, packet_daddr, Option.bind_some]
  rfl

/-- Whatever that function does to its bytes, the header is complete and its checksum is
right, with the length that `total_len` is at. -/
theorem forgeWith_eq {protocol : UInt8} {transport : State → Option State}
    {interface : Interface} {body : Block bodySize} {totalLen : Int}
    (built : transport ⟨packet interface (header inetNtoa inetAddr protocol interface)
      (.zero _), 34⟩ =
        some ⟨packet interface (header inetNtoa inetAddr protocol interface) body, totalLen⟩) :
    ∃ check, forgeWith inetNtoa inetAddr protocol transport interface =
        some ⟨packet interface { header inetNtoa inetAddr protocol interface with
          totLen := UInt16.ofInt (totalLen - ethhdrSize), check := check } body, totalLen⟩ ∧
      OnesComplement.sum 65536 (words { header inetNtoa inetAddr protocol interface with
        totLen := UInt16.ofInt (totalLen - ethhdrSize), check := check }.bytes) = 0xFFFF := by
  obtain ⟨check, summed, finished⟩ := finishIp_packet interface
    (header inetNtoa inetAddr protocol interface) body totalLen
  have stepped := getIpWith_eq inetNtoa inetAddr protocol transport interface (.zero _) 14
  have verified := IpHeader.verifies { header inetNtoa inetAddr protocol interface with
    totLen := UInt16.ofInt (totalLen - ethhdrSize) } body.bytes summed
  refine ⟨check, ?_, verified⟩
  have after : (14 + iphdrSize : Int) = 34 := rfl
  rw [after, built, Option.bind_some] at stepped
  rw [forgeWith, getMac_eq, Option.bind_eq_bind, Option.bind_some, stepped, finished]

end Addresses

/-- The numbers between the dots. -/
def dottedQuad (addr : InAddr) : List UInt8 :=
  Http.decimal (addr 0).toNat ++ [46] ++ Http.decimal (addr 1).toNat ++ [46] ++
    Http.decimal (addr 2).toNat ++ [46] ++ Http.decimal (addr 3).toNat

def parseQuad (text : List UInt8) : InAddr :=
  let numbers := (text.splitOnP (· == 46)).map fun digits =>
    digits.foldl (fun number digit => 10 * number + (digit - 48)) 0
  fun index => numbers.getD index 0

def ethernet : Interface :=
  ⟨fun index => [0x00, 0x0c, 0x29, 0x01, 0x02, 0x03][index],
    fun index => [192, 168, 117, 129][index]⟩

end CssLab.Forge
