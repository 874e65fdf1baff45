import CssLab.Lib.Printf

/-! `packet-process.c`, `filterByProtocol` of `filter.c` and the loop of `main`, on
a little-endian machine. -/

namespace CssLab.Sniffer

open Http Printf

/-- What a pointer to bytes sees, by the offset. -/
abbrev Pointer := Nat → UInt8

/-- The pointer moved by this many bytes. -/
def Pointer.add (pointer : Pointer) (offset : Nat) : Pointer :=
  fun place => pointer (offset + place)

/-- A field of two bytes as it lies in memory. -/
def short (pointer : Pointer) (offset : Nat) : Nat :=
  (pointer offset).toNat + 256 * (pointer (offset + 1)).toNat

/-- `ntohs` of such a field. -/
def ntohs (pointer : Pointer) (offset : Nat) : Nat :=
  256 * (pointer offset).toNat + (pointer (offset + 1)).toNat

/-- `ntohl` of a field of four bytes. -/
def ntohl (pointer : Pointer) (offset : Nat) : Nat :=
  65536 * ntohs pointer offset + ntohs pointer (offset + 2)

/-- `sizeof(struct ethhdr)`: the destination at 0, the source at 6, the protocol at 12. -/
abbrev ethhdrSize : Nat := 14

abbrev hProtoAt : Nat := 12

/-- Where `protocol` is in a `struct iphdr`. -/
abbrev protocolAt : Nat := 9

/-- `sizeof(struct arphdr)` -/
abbrev arphdrSize : Nat := 8

abbrev tcphdrSize : Nat := 20

abbrev udphdrSize : Nat := 8

abbrev icmphdrSize : Nat := 8

abbrev ethertypeIp : Nat := 0x0800

abbrev ethertypeArp : Nat := 0x0806

abbrev ipprotoIcmp : UInt8 := 1

abbrev ipprotoIgmp : UInt8 := 2

abbrev ipprotoTcp : UInt8 := 6

abbrev ipprotoUdp : UInt8 := 17

/-- A line of a header: its label and the value. -/
def line (label : String) (value : List UInt8) : List UInt8 := text label ++ (value ++ [10])

/-- Six bytes in hexadecimal with dashes between them. -/
def macAddress (address : Pointer) : List UInt8 :=
  (text "-").intercalate ((List.range 6).map fun place => hexLower 2 (address place).toNat)

def inetNtoa (address : Pointer) : List UInt8 :=
  decimal (address 0).toNat ++ text "." ++ decimal (address 1).toNat ++ text "." ++
    decimal (address 2).toNat ++ text "." ++ decimal (address 3).toNat

def macHeader (buffer : Pointer) : List UInt8 :=
  text "\nEthernet Header\n" ++
  line "\t|-Source Address      : " (macAddress (buffer.add 6)) ++
  line "\t|-Destination Address : " (macAddress buffer) ++
  line "\t|-Protocol            : " (decimal (ntohs buffer hProtoAt))

/-- The field `ihl`; the global `ipheader_len` is four times this, and `ip_header`
sets it before it is used. -/
def ihl (ip : Pointer) : Nat := (ip 0).toNat % 16

def ipheaderLen (buffer : Pointer) : Nat := ihl (buffer.add ethhdrSize) * 4

/-- What is printed of a `struct iphdr`. -/
def ipFields (ip : Pointer) : List UInt8 :=
  text "\nIP Header\n" ++
  line "\t|-Version                 : " (decimal ((ip 0).toNat / 16)) ++
  line "\t|-Internet Header Length  : "
    (decimal (ihl ip) ++ text " DWORDS or " ++ decimal (ihl ip * 4) ++ text " Bytes") ++
  line "\t|-Type of Service         : " (decimal (ip 1).toNat) ++
  line "\t|-Total length            : " (decimal (ntohs ip 2) ++ text " Bytes") ++
  line "\t|-Identification          : " (decimal (ntohs ip 4)) ++
  line "\t|-TTL                     : " (decimal (ip 8).toNat) ++
  line "\t|-Protocol                : " (decimal (ip protocolAt).toNat) ++
  line "\t|-Header Checksum         : " (decimal (ntohs ip 10)) ++
  line "\t|-Source IP               : " (inetNtoa (ip.add 12)) ++
  line "\t|-Destination IP          : " (inetNtoa (ip.add 16))

def ipHeader (buffer : Pointer) : List UInt8 := ipFields (buffer.add ethhdrSize)

def arpFields (arp : Pointer) : List UInt8 :=
  text "\nARP Header\n" ++
  line "\t|-Format of Hardware Address      : " (decimal (short arp 0)) ++
  line "\t|-Format of Protocol Address      : " (hexLower 4 (short arp 2)) ++
  -- The two lengths are printed as characters.
  line "\t|-Length of Hardware Address      : " [arp 4] ++
  line "\t|-Length of Protocol Address      : " [arp 5] ++
  line "\t|-ARP opcode:                     : " (decimal (short arp 6))

def arpHeader (buffer : Pointer) : List UInt8 := arpFields (buffer.add ethhdrSize)

/-- A bit of the byte with the flags. -/
def flag (tcp : Pointer) (bit : Nat) : Nat := (tcp 13).toNat >>> bit % 2

def tcpFields (tcp : Pointer) : List UInt8 :=
  let doff := (tcp 12).toNat / 16
  text "\nTCP Header\n" ++
  line "\t|-Source Port             : " (decimal (ntohs tcp 0)) ++
  line "\t|-Destination Port        : " (decimal (ntohs tcp 2)) ++
  line "\t|-Sequence Number         : " (decimal (ntohl tcp 4)) ++
  line "\t|-Acknowledge Number      : " (decimal (ntohl tcp 8)) ++
  line "\t|-Header Length           : "
    (decimal doff ++ text " DWORDS or " ++ decimal (doff * 4) ++ text " BYTES") ++
  text "\t|----------Flags-----------\n" ++
  line "\t\t|-Urgent Flag          : " (decimal (flag tcp 5)) ++
  line "\t\t|-Acknowledgement Flag : " (decimal (flag tcp 4)) ++
  line "\t\t|-Push Flag            : " (decimal (flag tcp 3)) ++
  line "\t\t|-Reset Flag           : " (decimal (flag tcp 2)) ++
  line "\t\t|-Synchronise Flag     : " (decimal (flag tcp 1)) ++
  line "\t\t|-Finish Flag          : " (decimal (flag tcp 0)) ++
  line "\t|-Window size             : " (decimal (ntohs tcp 14)) ++
  line "\t|-Checksum                : " (decimal (ntohs tcp 16)) ++
  line "\t|-Urgent Pointer          : " (decimal (short tcp 18))

def tcpHeader (buffer : Pointer) : List UInt8 :=
  tcpFields (buffer.add (ipheaderLen buffer + ethhdrSize))

def udpFields (udp : Pointer) : List UInt8 :=
  text "\nUDP Header\n" ++
  line "\t|-Source Port    \t      : " (decimal (ntohs udp 0)) ++
  line "\t|-Destination Port\t      : " (decimal (ntohs udp 2)) ++
  line "\t|-UDP Length      \t      : " (decimal (ntohs udp 4)) ++
  line "\t|-UDP Checksum   \t      : " (decimal (ntohs udp 6))

def udpHeader (buffer : Pointer) : List UInt8 :=
  udpFields (buffer.add (ipheaderLen buffer + ethhdrSize))

def icmpFields (icmp : Pointer) : List UInt8 :=
  text "\nICMP Header\n" ++
  line "\t|-TYPE                    : " (decimal (icmp 0).toNat) ++
  line "\t|-CODE                    : " (decimal (icmp 1).toNat) ++
  line "\t|-CHECKSUM                : " (decimal (ntohs icmp 2))

def icmpHeader (buffer : Pointer) : List UInt8 :=
  icmpFields (buffer.add (ipheaderLen buffer + ethhdrSize))

/-- The loop goes no further for a length below zero than for zero. -/
def payload (data : Pointer) (length : Nat) : List UInt8 :=
  text "\nData\n" ++
  ((List.range length).flatMap fun place =>
    (if place ≠ 0 ∧ place % 16 = 0 then [10] else []) ++
      text " " ++ hexUpper 2 (data place).toNat ++ text " ") ++
  [10]

/-- A printer: its title, the headers, and the data behind this many bytes. -/
def printer (title : String) (headers : List UInt8) (headersLen : Nat) (buffer : Pointer)
    (bufferLen : Nat) : List UInt8 :=
  text title ++ macHeader buffer ++ headers ++
    payload (buffer.add headersLen) (bufferLen - headersLen) ++
    text "--------------------------------------------------------------\n\n\n"

/-- A printer of what an IP packet carries, behind a header of this size. -/
def ipPrinter (title : String) (header : Pointer → List UInt8) (size : Nat) (buffer : Pointer)
    (bufferLen : Nat) : List UInt8 :=
  printer title (ipHeader buffer ++ header buffer) (ethhdrSize + ipheaderLen buffer + size)
    buffer bufferLen

def icmpPrinter : Pointer → Nat → List UInt8 :=
  ipPrinter "\n---------------------------ICMP Packet---------------------------" icmpHeader
    icmphdrSize

def arpPrinter (buffer : Pointer) (bufferLen : Nat) : List UInt8 :=
  printer "\n---------------------------ARP Packet---------------------------"
    (arpHeader buffer) (ethhdrSize + arphdrSize) buffer bufferLen

def tcpPrinter : Pointer → Nat → List UInt8 :=
  ipPrinter "\n---------------------------TCP Packet---------------------------"
    tcpHeader tcphdrSize

def udpPrinter : Pointer → Nat → List UInt8 :=
  ipPrinter "\n---------------------------UDP Packet---------------------------"
    udpHeader udphdrSize

/-- The counters, which are of type `int`. -/
structure Counters where
  total : BitVec 32
  tcp : BitVec 32
  udp : BitVec 32
  icmp : BitVec 32
  igmp : BitVec 32
  other : BitVec 32
  arpPacket : BitVec 32
  deriving DecidableEq

def Counters.zero : Counters := ⟨0, 0, 0, 0, 0, 0, 0⟩

/-- The last line that `packet_process` prints. -/
def result (counters : Counters) : List UInt8 :=
  text "Result: [TCP : " ++ signed counters.tcp.toInt ++
  text "], [UDP : " ++ signed counters.udp.toInt ++
  text "], [ARP : " ++ signed counters.arpPacket.toInt ++
  text "], [ICMP : " ++ signed counters.icmp.toInt ++
  text "], [IGMP : " ++ signed counters.igmp.toInt ++
  text "], [OTHER : " ++ signed counters.other.toInt ++
  text "], [TOTAL : " ++ signed counters.total.toInt ++ text "]\n"

/-- The inner `switch`, on the protocol of an IP packet. -/
def processIp (buffer : Pointer) (bufferLen : Nat) (counters : Counters) :
    List UInt8 × Counters :=
  let protocol := buffer (ethhdrSize + protocolAt)
  if protocol = ipprotoIcmp then
    (icmpPrinter buffer bufferLen, { counters with icmp := counters.icmp + 1 })
  else if protocol = ipprotoIgmp then ([], { counters with igmp := counters.igmp + 1 })
  else if protocol = ipprotoTcp then
    (tcpPrinter buffer bufferLen, { counters with tcp := counters.tcp + 1 })
  else if protocol = ipprotoUdp then
    (udpPrinter buffer bufferLen, { counters with udp := counters.udp + 1 })
  else ([], { counters with other := counters.other + 1 })

/-- The outer `switch`. -/
def processFrame (buffer : Pointer) (bufferLen : Nat) (counters : Counters) :
    List UInt8 × Counters :=
  if ntohs buffer hProtoAt = ethertypeIp then processIp buffer bufferLen counters
  else if ntohs buffer hProtoAt = ethertypeArp then
    -- There is no `break` before `default`.
    (arpPrinter buffer bufferLen,
      { counters with arpPacket := counters.arpPacket + 1, other := counters.other + 1 })
  else ([], { counters with other := counters.other + 1 })

def packetProcess (buffer : Pointer) (bufferLen : Nat) (counters : Counters) :
    List UInt8 × Counters :=
  let (printed, counters) :=
    processFrame buffer bufferLen { counters with total := counters.total + 1 }
  (printed ++ result counters, counters)

/-- Whether the frame is filtered out: true leaves it to `packet_process`. -/
def filterByProtocol (buffer : Pointer) (type : Int) : Bool :=
  if type < 1 ∧ type > 4 then true
  else if ntohs buffer hProtoAt = ethertypeArp then if type = 1 then false else true
  else
    let protocol := buffer (ethhdrSize + protocolAt)
    if protocol = ipprotoIcmp ∧ type = 2 then false
    else if protocol = ipprotoTcp ∧ type = 3 then false
    else if protocol = ipprotoUdp ∧ type = 4 then false
    else true

/-- `BUF_SIZE` -/
abbrev bufSize : Nat := 65536

/-- A pointer to `buf`. -/
def pointerTo (buf : Block bufSize) : Pointer := fun place => buf.bytes.getD place 0

/-- What `recvfrom` stores. -/
structure Frame where
  bytes : List UInt8
  nonempty : 0 < bytes.length
  fits : bytes.length ≤ bufSize

/-- `recvfrom` overwrites the start of `buf`. -/
def receive (frame : Frame) (buf : Block bufSize) : Block bufSize where
  bytes := frame.bytes ++ buf.bytes.drop frame.bytes.length
  length_bytes := by
    rw [List.length_append, List.length_drop, buf.length_bytes]
    exact Nat.add_sub_cancel' frame.fits

/-- A round of the loop of `main`. -/
def sniff (buf : Block bufSize) (counters : Counters) (frame : Frame) :
    List UInt8 × Block bufSize × Counters :=
  let buf := receive frame buf
  if filterByProtocol (pointerTo buf) 2 then
    let (printed, counters) := packetProcess (pointerTo buf) frame.bytes.length counters
    (printed, buf, counters)
  else ([], buf, counters)

end CssLab.Sniffer
