import CssLab.Lib.Block

/-! The tunnel over ICMP: `send_icmp.c` and the two loops of its `main`, on a
little-endian machine with pointers of eight bytes. -/

namespace CssLab.Tunnel

open Block

abbrev namesize : Nat := 10

abbrev buffsize : Nat := 2048

/-- `sizeof(struct icmphdr)`; its fields are the type, the code, the checksum
at 2, the identifier at 4 and the sequence number at 6. -/
abbrev icmphdrSize : Nat := 8

/-- `sizeof(struct iphdr)` -/
abbrev iphdrSize : Nat := 20

/-- The fields of a `tunnel`. -/
abbrev snameAt : Nat := 0

abbrev dnameAt : Nat := namesize

abbrev dataAt : Nat := namesize + namesize

/-- `sizeof(tunnel)` -/
abbrev tunnelSize : Nat := namesize + namesize + buffsize

def key : UInt8 := 75

def icmpEcho : UInt8 := 8

/-- The loop of `icmp_checksum` over words in memory, with a last odd byte. -/
def icmpSum : Nat → List UInt8 → Nat
  | sum, low :: high :: rest => icmpSum (sum + (low.toNat + 256 * high.toNat)) rest
  | sum, [odd] => sum + odd.toNat
  | sum, [] => sum

def icmpChecksum (bytes : List UInt8) : UInt16 :=
  let sum := icmpSum 0 bytes
  let sum := sum / 65536 + sum % 65536
  let sum := sum + sum / 65536
  ~~~UInt16.ofNat sum

/-- The two bytes the other way round. -/
def htons (host : UInt16) : UInt16 :=
  UInt16.ofNat (host.toNat % 256 * 256 + host.toNat / 256)

/-- A short as it lies in memory. -/
def shortBytes (value : UInt16) : List UInt8 :=
  [UInt8.ofNat (value.toNat % 256), UInt8.ofNat (value.toNat / 256)]

def readShort (buffer : Block buffsize) (offset : Nat) : Option UInt16 := do
  let low ← buffer.bytes[offset]?
  let high ← buffer.bytes[offset + 1]?
  some (UInt16.ofNat (low.toNat + 256 * high.toNat))

/-- `encrypt` and `decrypt` of what a pointer to this offset points to: they go
over `sizeof(buff)` bytes, which is the size of the pointer. -/
def crypt (offset : Nat) (buffer : Block buffsize) : Block buffsize where
  bytes := buffer.bytes.mapIdx fun place byte =>
    if offset ≤ place ∧ place < offset + 8 then byte ^^^ key else byte
  length_bytes := by rw [List.length_mapIdx, buffer.length_bytes]

/-- The buffers of a process and what `tnel` points to. -/
structure Peer where
  sendbuff : Block buffsize
  recvbuff : Block buffsize
  tnel : Block tunnelSize

/-- `init_icmp_packet`, where `malloc` returned this block. -/
def initIcmpPacket (malloced : Block tunnelSize) (myname whoname : List UInt8) : Option Peer := do
  let tnel ← malloced.write snameAt myname
  let tnel ← tnel.write dnameAt whoname
  let sendbuff ← (Block.zero buffsize).write 1 [0]
  let sendbuff ← sendbuff.write 4 (shortBytes (htons 1))
  let sendbuff ← sendbuff.write 6 (shortBytes (htons 1))
  some ⟨sendbuff, Block.zero buffsize, tnel⟩

/-- `sendbuff` when `senddata` calls `encrypt`. -/
def plaintext (peer : Peer) : Option (Block buffsize) := do
  let sendbuff ← peer.sendbuff.write 0 [icmpEcho]
  let sendbuff ← sendbuff.strcpy (icmphdrSize + dnameAt) (peer.tnel.pointer dnameAt)
  let sendbuff ← sendbuff.strcpy (icmphdrSize + snameAt) (peer.tnel.pointer snameAt)
  let sendbuff ← sendbuff.strcpy (icmphdrSize + dataAt) (peer.tnel.pointer dataAt)
  let checksum := htons (icmpChecksum ((sendbuff.pointer iphdrSize).take icmphdrSize))
  sendbuff.write 2 (shortBytes checksum)

/-- `senddata`; what it hands to `sendto` is all of `sendbuff`. -/
def senddata (peer : Peer) : Option (List UInt8 × Peer) := do
  let sendbuff ← plaintext peer
  let sendbuff := crypt 0 sendbuff
  some (sendbuff.bytes, { peer with sendbuff })

/-- `filter` of the header behind the IP header in `recvbuff`, where it zeroes
the checksum. The comparisons stop at the first that fails. -/
def filter (peer : Peer) : Option (Bool × Block buffsize) := do
  let checksum ← readShort peer.recvbuff (iphdrSize + 2)
  let recvbuff ← peer.recvbuff.write (iphdrSize + 2) [0, 0]
  let type ← recvbuff.bytes[iphdrSize]?
  if type ≠ icmpEcho then some (false, recvbuff)
  else
    let same ← strcmp (recvbuff.pointer (iphdrSize + icmphdrSize + dnameAt))
      (peer.tnel.pointer snameAt)
    if same = false then some (false, recvbuff)
    else
      let own := htons (icmpChecksum ((peer.sendbuff.pointer iphdrSize).take icmphdrSize))
      some (own = checksum, recvbuff)

/-- A round of the receiving loop of `main`: what it prints, if it prints. -/
def receiveRound (packet : List UInt8) (peer : Peer) :
    Option (Option (List UInt8 × List UInt8) × Peer) := do
  let recvbuff ← peer.recvbuff.write 0 (packet.take buffsize)
  let recvbuff := crypt iphdrSize recvbuff
  let (accepted, recvbuff) ← filter { peer with recvbuff }
  if accepted then
    let sname ← cstring (recvbuff.pointer (iphdrSize + icmphdrSize + snameAt))
    let data ← cstring (recvbuff.pointer (iphdrSize + icmphdrSize + dataAt))
    some (some (sname, data), { peer with recvbuff := Block.zero buffsize })
  else some (none, { peer with recvbuff := Block.zero buffsize })

/-- A round of the sending loop of `main`: the datagram, if it sends one. At the
end of the input `fgets` leaves the buffer as it was. -/
def sendRound (stdin : List UInt8) (peer : Peer) :
    Option (Option (List UInt8) × List UInt8 × Peer) := do
  let (stored, left) := fgets buffsize stdin
  let tnel ← if stored = [] then some peer.tnel else peer.tnel.write dataAt (stored ++ [0])
  let cut ← strcspn 10 (tnel.pointer dataAt)
  let tnel ← tnel.write (dataAt + cut) [0]
  let string ← cstring (tnel.pointer dataAt)
  if string.length = 0 then some (none, left, { peer with tnel })
  else
    let (datagram, peer) ← senddata { peer with tnel }
    some (some datagram, left, peer)

/-- A name that `main` reads into an array of `NAMESIZE` characters. -/
structure Name where
  bytes : List UInt8
  nonzero : 0 ∉ bytes
  short : bytes.length < namesize

/-- A line that is typed, without its newline. -/
structure Line where
  bytes : List UInt8
  nonzero : 0 ∉ bytes
  single : 10 ∉ bytes
  nonempty : bytes ≠ []

/-- What `receiver` prints for the first datagram of `sender`, who types the
line; `whom` is who the receiver wants to talk to. -/
def exchange (senderMemory receiverMemory : Block tunnelSize) (sender receiver whom : Name)
    (line : Line) (header : Block iphdrSize) : Option (Option (List UInt8 × List UInt8)) := do
  let a ← initIcmpPacket senderMemory sender.bytes receiver.bytes
  let b ← initIcmpPacket receiverMemory receiver.bytes whom.bytes
  let (datagram, _) ← sendRound (line.bytes ++ [10]) a
  let datagram ← datagram
  let (printed, _) ← receiveRound (header.bytes ++ datagram) b
  some printed

end CssLab.Tunnel
