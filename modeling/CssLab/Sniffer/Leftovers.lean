import CssLab.Sniffer.Counters
import Mathlib.Logic.Function.DependsOn
import Mathlib.Order.Interval.Set.Defs

namespace CssLab.Sniffer

open Http Printf

/-- A number that takes the bytes up to this one, and differs when only this one does. -/
structure Tells (number : Pointer → Nat) (needs : Nat) : Prop where
  depends : DependsOn number (Set.Iio (needs + 1))
  differs : ∀ pointer other : Pointer, (∀ place < needs, pointer place = other place) →
    number pointer = number other → pointer needs = other needs

theorem byte_tells (place : Nat) : Tells (fun pointer => (pointer place).toNat) place where
  depends _ _ same := congrArg UInt8.toNat (same place (Nat.lt_succ_self place))
  differs _ _ _ same := UInt8.toNat_inj.mp same

theorem short_tells (offset : Nat) : Tells (short · offset) (offset + 1) where
  depends pointer other same := by
    have first : offset < offset + 1 + 1 := by omega
    simp only [short, same offset first, same (offset + 1) (Nat.lt_succ_self _)]
  differs pointer other before same := by
    simp only [short, before offset (Nat.lt_succ_self offset)] at same
    rw [← UInt8.toNat_inj]
    omega

theorem ntohs_tells (offset : Nat) : Tells (ntohs · offset) (offset + 1) where
  depends pointer other same := by
    have first : offset < offset + 1 + 1 := by omega
    simp only [ntohs, same offset first, same (offset + 1) (Nat.lt_succ_self _)]
  differs pointer other before same := by
    simp only [ntohs, before offset (Nat.lt_succ_self offset)] at same
    rw [← UInt8.toNat_inj]
    omega

/-- What is printed of a header takes this many bytes of it and one more, which only the
number in the last line tells. -/
def Shows (fields : Pointer → List UInt8) (needs : Nat) : Prop :=
  ∃ (front : Pointer → List UInt8) (number : Pointer → Nat),
    (∀ pointer, fields pointer = front pointer ++ (decimal (number pointer) ++ [10])) ∧
    DependsOn front (Set.Iio needs) ∧ Tells number needs

theorem Shows.depends (shows : Shows fields needs) : DependsOn fields (Set.Iio (needs + 1)) := by
  obtain ⟨front, number, split, before, tells⟩ := shows
  intro pointer other same
  rw [split, split, tells.depends same,
    before fun place below => same place (Nat.lt_succ_of_lt below)]

/-- The end of a header: its last line ends in a number. -/
theorem append_line (front value : List UInt8) (label : String) (number : Nat) :
    front ++ line label (value ++ decimal number) =
      front ++ text label ++ value ++ (decimal number ++ [10]) := by
  simp only [line, List.append_assoc]

theorem append_line_decimal (front : List UInt8) (label : String) (number : Nat) :
    front ++ line label (decimal number) = front ++ text label ++ (decimal number ++ [10]) := by
  simp only [line, List.append_assoc]

theorem ipFields_shows : Shows ipFields 19 := by
  refine ⟨?front, _, fun ip => ?split, ?depends, byte_tells 19⟩
  case split =>
    rw [ipFields, inetNtoa, inetNtoa, append_line]
    rfl
  case depends =>
    intro ip other same
    have byte (place : Nat) (below : place < 19) : ip place = other place := same place below
    simp (disch := decide) only [ihl, ntohs, Pointer.add, byte]

theorem arpFields_shows : Shows arpFields 7 := by
  refine ⟨?front, _, fun arp => ?split, ?depends, short_tells 6⟩
  case split => rw [arpFields, append_line_decimal]
  case depends =>
    intro arp other same
    have byte (place : Nat) (below : place < 7) : arp place = other place := same place below
    simp (disch := decide) only [short, byte]

theorem icmpFields_shows : Shows icmpFields 3 := by
  refine ⟨?front, _, fun icmp => ?split, ?depends, ntohs_tells 2⟩
  case split => rw [icmpFields, append_line_decimal]
  case depends =>
    intro icmp other same
    have byte (place : Nat) (below : place < 3) : icmp place = other place := same place below
    simp (disch := decide) only [byte]

theorem tcpFields_shows : Shows tcpFields 19 := by
  refine ⟨?front, _, fun tcp => ?split, ?depends, short_tells 18⟩
  case split => rw [tcpFields, append_line_decimal]
  case depends =>
    intro tcp other same
    have byte (place : Nat) (below : place < 19) : tcp place = other place := same place below
    simp (disch := decide) only [flag, ntohl, ntohs, byte]

theorem udpFields_shows : Shows udpFields 7 := by
  refine ⟨?front, _, fun udp => ?split, ?depends, ntohs_tells 6⟩
  case split => rw [udpFields, append_line_decimal]
  case depends =>
    intro udp other same
    have byte (place : Nat) (below : place < 7) : udp place = other place := same place below
    simp (disch := decide) only [ntohs, byte]

theorem macAddress_depends : DependsOn macAddress (Set.Iio 6) := by
  intro address other same
  rw [macAddress, macAddress]
  congr 1
  exact List.map_congr_left fun place member => by rw [same place (List.mem_range.mp member)]

theorem macHeader_depends : DependsOn macHeader (Set.Iio ethhdrSize) := by
  intro (buffer : Pointer) (other : Pointer) same
  have source : macAddress (buffer.add 6) = macAddress (other.add 6) :=
    macAddress_depends fun place below => same (6 + place) (Nat.add_lt_add_left below 6 |>.trans
      (by decide))
  have destination : macAddress buffer = macAddress other :=
    macAddress_depends fun place below => same place (Nat.lt_trans below (by decide))
  have protocol : ntohs buffer hProtoAt = ntohs other hProtoAt :=
    (ntohs_tells hProtoAt).depends same
  rw [macHeader, macHeader, source, destination, protocol]

theorem payload_congr {data other : Pointer} {length : Nat}
    (same : ∀ place < length, data place = other place) :
    payload data length = payload other length := by
  rw [payload, payload]
  congr 2
  exact List.flatMap_congr fun place member => by rw [same place (List.mem_range.mp member)]

section Printer

variable {fields header : Pointer → List UInt8} {needs size bufferLen : Nat} {title : String}
  {buffer other : Pointer}

theorem printer_congr (same : ∀ place < bufferLen, buffer place = other place)
    (whole : ethhdrSize ≤ bufferLen) (headers : List UInt8) (headersLen : Nat) :
    printer title headers headersLen buffer bufferLen =
      printer title headers headersLen other bufferLen := by
  have mac : macHeader buffer = macHeader other :=
    macHeader_depends fun place below => same place (Nat.lt_of_lt_of_le below whole)
  have data : payload (buffer.add headersLen) (bufferLen - headersLen) =
      payload (other.add headersLen) (bufferLen - headersLen) :=
    payload_congr fun place below => same (headersLen + place) (by omega)
  rw [printer, printer, mac, data]

theorem ipheaderLen_congr (same : buffer ethhdrSize = other ethhdrSize) :
    ipheaderLen buffer = ipheaderLen other := by
  rw [ipheaderLen, ipheaderLen, ihl, ihl, Pointer.add, Pointer.add, Nat.add_zero, same]

theorem ipPrinter_congr (shows : Shows fields needs)
    (behind : ∀ buffer, header buffer = fields (buffer.add (ipheaderLen buffer + ethhdrSize)))
    (same : ∀ place < bufferLen, buffer place = other place)
    (enough : max 34 (ethhdrSize + ipheaderLen buffer + (needs + 1)) ≤ bufferLen) :
    ipPrinter title header size buffer bufferLen =
      ipPrinter title header size other bufferLen := by
  have eth : ethhdrSize = 14 := rfl
  have length : ipheaderLen buffer = ipheaderLen other :=
    ipheaderLen_congr (same ethhdrSize (by omega))
  have ip : ipHeader buffer = ipHeader other :=
    ipFields_shows.depends fun place (below : place < 20) => same (ethhdrSize + place) (by omega)
  have own : header buffer = header other := by
    rw [behind, behind, ← length]
    refine shows.depends fun place (below : place < needs + 1) => ?_
    exact same (ipheaderLen buffer + ethhdrSize + place) (by omega)
  rw [ipPrinter, ipPrinter, ip, own, length, printer_congr same (by omega)]

theorem printer_ne {headersLen headersLen' : Nat} {headers headers' front : List UInt8}
    {number number' : Nat} {rest rest' : List UInt8}
    (mac : macHeader buffer = macHeader other) (differ : number ≠ number')
    (shown : headers = front ++ (decimal number ++ 10 :: rest))
    (shown' : headers' = front ++ (decimal number' ++ 10 :: rest')) (more more' : List UInt8) :
    printer title headers headersLen buffer bufferLen ++ more ≠
      printer title headers' headersLen' other bufferLen ++ more' := by
  intro same
  simp only [printer, shown, shown', mac, List.append_assoc, List.cons_append,
    List.append_cancel_left_eq] at same
  exact differ (decimal_line_injective same)

theorem Shows.ne (shows : Shows fields needs) {offset : Nat}
    (before : ∀ place < offset + needs, buffer place = other place)
    (differ : buffer (offset + needs) ≠ other (offset + needs)) :
    ∃ front number number', number ≠ number' ∧
      fields (buffer.add offset) = front ++ (decimal number ++ [10]) ∧
      fields (other.add offset) = front ++ (decimal number' ++ [10]) := by
  obtain ⟨front, number, split, depends, tells⟩ := shows
  have inside : ∀ place < needs, buffer.add offset place = other.add offset place :=
    fun place below => before (offset + place) (Nat.add_lt_add_left below offset)
  have fronts : front (buffer.add offset) = front (other.add offset) := depends inside
  refine ⟨_, _, _, mt (tells.differs _ _ inside) differ, split _, ?_⟩
  rw [split, fronts]

theorem ipPrinter_ne (shows : Shows fields needs)
    (behind : ∀ buffer, header buffer = fields (buffer.add (ipheaderLen buffer + ethhdrSize)))
    {last : Nat} (same : ∀ place, place ≠ last → buffer place = other place)
    (differ : buffer last ≠ other last)
    (bound : last + 1 = max 34 (ethhdrSize + ipheaderLen buffer + (needs + 1)))
    (more more' : List UInt8) :
    ipPrinter title header size buffer bufferLen ++ more ≠
      ipPrinter title header size other bufferLen ++ more' := by
  have eth : ethhdrSize = 14 := rfl
  have mac : macHeader buffer = macHeader other :=
    macHeader_depends fun place (below : place < 14) => same place (by omega)
  have length : ipheaderLen buffer = ipheaderLen other :=
    ipheaderLen_congr (same ethhdrSize (by omega))
  by_cases ip : last = 33
  · -- the last byte of the IP header
    subst ip
    obtain ⟨front, number, number', unequal, shown, shown'⟩ :=
      @Shows.ne _ _ buffer other ipFields_shows ethhdrSize
        (fun place below => same place (by omega)) differ
    have headers : ipHeader buffer ++ header buffer =
        front ++ (decimal number ++ 10 :: header buffer) := by
      rw [ipHeader, shown]
      simp only [List.append_assoc, List.singleton_append]
    have headers' : ipHeader other ++ header other =
        front ++ (decimal number' ++ 10 :: header other) := by
      rw [ipHeader, shown']
      simp only [List.append_assoc, List.singleton_append]
    exact printer_ne mac unequal headers headers' more more'
  · have whole : last = ipheaderLen buffer + ethhdrSize + needs := by omega
    subst whole
    obtain ⟨front, number, number', unequal, shown, shown'⟩ := shows.ne
      (fun place below => same place (by omega)) differ
    have ip : ipHeader buffer = ipHeader other :=
      ipFields_shows.depends fun place (below : place < 20) => same (ethhdrSize + place) (by omega)
    have headers : ipHeader buffer ++ header buffer =
        ipHeader buffer ++ front ++ (decimal number ++ [10]) := by
      rw [behind, shown, List.append_assoc]
    have headers' : ipHeader other ++ header other =
        ipHeader buffer ++ front ++ (decimal number' ++ [10]) := by
      rw [behind, ← length, shown', ip, List.append_assoc]
    exact printer_ne mac unequal headers headers' more more'

end Printer

/-- How many bytes of a frame `packet_process` reads. -/
def needed (buffer : Pointer) : Nat :=
  if ntohs buffer hProtoAt = ethertypeIp then
    let protocol := buffer (ethhdrSize + protocolAt)
    let behind := ethhdrSize + ipheaderLen buffer
    if protocol = ipprotoIcmp then max 34 (behind + 4)
    else if protocol = ipprotoTcp then max 34 (behind + 20)
    else if protocol = ipprotoUdp then max 34 (behind + 8)
    else 24
  else if ntohs buffer hProtoAt = ethertypeArp then 22
  else 14

theorem le_needed (buffer : Pointer) :
    14 ≤ needed buffer ∧ (ntohs buffer hProtoAt = ethertypeIp → 24 ≤ needed buffer) := by
  rw [needed]
  by_cases ip : ntohs buffer hProtoAt = ethertypeIp
  · rw [if_pos ip]
    dsimp only
    repeat' split
    all_goals omega
  · rw [if_neg ip]
    split <;> simp [ip]

section Process

variable {buffer other : Pointer} {bufferLen : Nat}

theorem icmpPrinter_congr (same : ∀ place < bufferLen, buffer place = other place)
    (enough : max 34 (ethhdrSize + ipheaderLen buffer + 4) ≤ bufferLen) :
    icmpPrinter buffer bufferLen = icmpPrinter other bufferLen :=
  ipPrinter_congr icmpFields_shows (fun _ => rfl) same enough

theorem tcpPrinter_congr (same : ∀ place < bufferLen, buffer place = other place)
    (enough : max 34 (ethhdrSize + ipheaderLen buffer + 20) ≤ bufferLen) :
    tcpPrinter buffer bufferLen = tcpPrinter other bufferLen :=
  ipPrinter_congr tcpFields_shows (fun _ => rfl) same enough

theorem udpPrinter_congr (same : ∀ place < bufferLen, buffer place = other place)
    (enough : max 34 (ethhdrSize + ipheaderLen buffer + 8) ≤ bufferLen) :
    udpPrinter buffer bufferLen = udpPrinter other bufferLen :=
  ipPrinter_congr udpFields_shows (fun _ => rfl) same enough

theorem processIp_congr (same : ∀ place < bufferLen, buffer place = other place)
    (ip : ntohs buffer hProtoAt = ethertypeIp) (enough : needed buffer ≤ bufferLen)
    (counters : Counters) :
    processIp buffer bufferLen counters = processIp other bufferLen counters := by
  have protocol : buffer (ethhdrSize + protocolAt) = other (ethhdrSize + protocolAt) :=
    same _ (Nat.lt_of_lt_of_le ((le_needed buffer).2 ip) enough)
  rw [needed, if_pos ip] at enough
  rw [processIp, processIp, ← protocol]
  generalize buffer (ethhdrSize + protocolAt) = number at enough
  by_cases icmp : number = ipprotoIcmp
  · simp only [if_pos icmp] at enough ⊢
    rw [icmpPrinter_congr same enough]
  · by_cases tcp : number = ipprotoTcp
    · simp only [if_neg icmp, if_pos tcp] at enough ⊢
      rw [tcpPrinter_congr same enough]
    · by_cases udp : number = ipprotoUdp
      · simp only [if_neg icmp, if_neg tcp, if_pos udp] at enough ⊢
        rw [udpPrinter_congr same enough]
      · simp only [if_neg icmp, if_neg tcp, if_neg udp]

/-- A frame that is as long as what is read of it. -/
theorem packetProcess_congr (same : ∀ place < bufferLen, buffer place = other place)
    (enough : needed buffer ≤ bufferLen) (counters : Counters) :
    packetProcess buffer bufferLen counters = packetProcess other bufferLen counters := by
  have whole : ethhdrSize ≤ bufferLen := Nat.le_trans (le_needed buffer).1 enough
  have type : ntohs buffer hProtoAt = ntohs other hProtoAt :=
    (ntohs_tells hProtoAt).depends fun place below => same place (Nat.lt_of_lt_of_le below whole)
  have frame (counters : Counters) :
      processFrame buffer bufferLen counters = processFrame other bufferLen counters := by
    rw [processFrame, processFrame, ← type]
    by_cases ip : ntohs buffer hProtoAt = ethertypeIp
    · rw [if_pos ip, if_pos ip, processIp_congr same ip enough]
    · rw [if_neg ip, if_neg ip]
      by_cases arp : ntohs buffer hProtoAt = ethertypeArp
      · rw [needed, if_neg ip, if_pos arp] at enough
        have header : arpHeader buffer = arpHeader other :=
          arpFields_shows.depends fun place (below : place < 8) =>
            same (ethhdrSize + place) (Nat.lt_of_lt_of_le (Nat.add_lt_add_left below _) enough)
        rw [if_pos arp, if_pos arp, arpPrinter, arpPrinter, header, printer_congr same whole]
      · rw [if_neg arp, if_neg arp]
  rw [packetProcess, packetProcess, frame]

/-- A frame whose EtherType starts with anything but 8 is neither IP nor ARP. -/
theorem ntohs_of_high (high : buffer hProtoAt ≠ 8) :
    ntohs buffer hProtoAt ≠ ethertypeIp ∧ ntohs buffer hProtoAt ≠ ethertypeArp := by
  have low := (buffer (hProtoAt + 1)).toNat_lt
  have other : (buffer hProtoAt).toNat ≠ 8 := fun same => high (UInt8.toNat_inj.mp same)
  simp only [ntohs, ethertypeIp, ethertypeArp]
  omega

theorem packetProcess_high (high : buffer hProtoAt ≠ 8) (counters : Counters) :
    packetProcess buffer bufferLen counters =
      (result (counters.count .other), counters.count .other) := by
  rw [packetProcess, processFrame, if_neg (ntohs_of_high high).1, if_neg (ntohs_of_high high).2]
  rfl

theorem icmpPrinter_ne {last : Nat} (same : ∀ place, place ≠ last → buffer place = other place)
    (differ : buffer last ≠ other last)
    (bound : last + 1 = max 34 (ethhdrSize + ipheaderLen buffer + 4)) (more more' : List UInt8) :
    icmpPrinter buffer bufferLen ++ more ≠ icmpPrinter other bufferLen ++ more' :=
  ipPrinter_ne icmpFields_shows (fun _ => rfl) same differ bound more more'

theorem tcpPrinter_ne {last : Nat} (same : ∀ place, place ≠ last → buffer place = other place)
    (differ : buffer last ≠ other last)
    (bound : last + 1 = max 34 (ethhdrSize + ipheaderLen buffer + 20)) (more more' : List UInt8) :
    tcpPrinter buffer bufferLen ++ more ≠ tcpPrinter other bufferLen ++ more' :=
  ipPrinter_ne tcpFields_shows (fun _ => rfl) same differ bound more more'

theorem udpPrinter_ne {last : Nat} (same : ∀ place, place ≠ last → buffer place = other place)
    (differ : buffer last ≠ other last)
    (bound : last + 1 = max 34 (ethhdrSize + ipheaderLen buffer + 8)) (more more' : List UInt8) :
    udpPrinter buffer bufferLen ++ more ≠ udpPrinter other bufferLen ++ more' :=
  ipPrinter_ne udpFields_shows (fun _ => rfl) same differ bound more more'

/-- The last byte that is read of an IP packet shows in what is printed. -/
theorem packetProcess_ip_ne {last : Nat} (ip : ntohs buffer hProtoAt = ethertypeIp)
    (same : ∀ place, place ≠ last → buffer place = other place)
    (differ : buffer last ≠ other last) (bound : last + 1 = needed buffer) (long : 24 ≤ last)
    (counters : Counters) :
    packetProcess buffer bufferLen counters ≠ packetProcess other bufferLen counters := by
  have sizes : ethhdrSize + protocolAt = 23 ∧ hProtoAt = 12 := ⟨rfl, rfl⟩
  have type : ntohs buffer hProtoAt = ntohs other hProtoAt :=
    (ntohs_tells hProtoAt).depends fun place (below : place < 14) => same place (by omega)
  have protocol : buffer (ethhdrSize + protocolAt) = other (ethhdrSize + protocolAt) :=
    same _ (by omega)
  intro whole
  have texts := congrArg Prod.fst whole
  rw [needed, if_pos ip] at bound
  simp only [packetProcess, processFrame, ← type, if_pos ip, processIp, ← protocol] at texts
  generalize buffer (ethhdrSize + protocolAt) = number at bound texts
  by_cases icmp : number = ipprotoIcmp
  · simp only [if_pos icmp] at bound texts
    exact icmpPrinter_ne same differ bound _ _ texts
  · by_cases tcp : number = ipprotoTcp
    · have igmp : number ≠ ipprotoIgmp := by
        rw [tcp]
        decide
      simp only [if_neg icmp, if_neg igmp, if_pos tcp] at bound texts
      exact tcpPrinter_ne same differ bound _ _ texts
    · by_cases udp : number = ipprotoUdp
      · have igmp : number ≠ ipprotoIgmp := by
          rw [udp]
          decide
        simp only [if_neg icmp, if_neg igmp, if_neg tcp, if_pos udp] at bound texts
        exact udpPrinter_ne same differ bound _ _ texts
      · simp only [if_neg icmp, if_neg tcp, if_neg udp] at bound
        omega

theorem packetProcess_arp_ne (arp : ntohs buffer hProtoAt = ethertypeArp)
    (same : ∀ place, place ≠ 21 → buffer place = other place) (differ : buffer 21 ≠ other 21)
    (counters : Counters) :
    packetProcess buffer bufferLen counters ≠ packetProcess other bufferLen counters := by
  have type : ntohs buffer hProtoAt = ntohs other hProtoAt :=
    (ntohs_tells hProtoAt).depends fun place (below : place < 14) => same place (by omega)
  have mac : macHeader buffer = macHeader other :=
    macHeader_depends fun place (below : place < 14) => same place (by omega)
  have ip : ethertypeArp ≠ ethertypeIp := by decide
  obtain ⟨front, number, number', unequal, shown, shown'⟩ :=
    @Shows.ne _ _ buffer other arpFields_shows ethhdrSize
      (fun place (below : place < 21) => same place (by omega)) differ
  intro whole
  have texts := congrArg Prod.fst whole
  simp only [packetProcess, processFrame, ← type, arp, if_neg ip, if_true] at texts
  exact printer_ne mac unequal shown shown' _ _ texts

theorem needed_congr (same : ∀ place < 24, buffer place = other place) :
    needed buffer = needed other := by
  have type : ntohs buffer hProtoAt = ntohs other hProtoAt :=
    (ntohs_tells hProtoAt).depends fun place (below : place < 14) => same place (by omega)
  have length : ipheaderLen buffer = ipheaderLen other := ipheaderLen_congr (same 14 (by decide))
  rw [needed, needed, type, length, same (ethhdrSize + protocolAt) (by decide)]

theorem needed_le (buffer : Pointer) : needed buffer ≤ 94 := by
  have small : ipheaderLen buffer ≤ 60 := by
    rw [ipheaderLen, ihl]
    omega
  have eth : ethhdrSize = 14 := rfl
  rw [needed]
  dsimp only
  repeat' split
  all_goals omega

end Process

/-- The bytes of a frame alone. -/
def Frame.pointer (frame : Frame) : Pointer := fun place => frame.bytes.getD place 0

/-- What is done with a frame is the same whatever is behind it in the buffer. -/
def Confined (frame : Frame) (type : Int) : Prop :=
  ∀ first second : Block bufSize, frame.bytes <+: first.bytes → frame.bytes <+: second.bytes →
    filterByProtocol (pointerTo first) type = filterByProtocol (pointerTo second) type ∧
    ∀ counters, packetProcess (pointerTo first) frame.bytes.length counters =
      packetProcess (pointerTo second) frame.bytes.length counters

/-- `packet_process` reads nothing behind the frame, or only a byte of an EtherType
that is neither that of IP nor of ARP anyway. -/
def Frame.Processed (frame : Frame) : Prop :=
  needed frame.pointer ≤ frame.bytes.length ∨
    frame.bytes.length = 13 ∧ frame.pointer hProtoAt ≠ 8

/-- `filterByProtocol` looks for the protocol in a frame that is not ARP. -/
def Frame.Filtered (frame : Frame) (type : Int) : Prop :=
  2 ≤ type ∧ type ≤ 4 →
    24 ≤ frame.bytes.length ∨ ntohs frame.pointer hProtoAt = ethertypeArp

theorem pointerTo_eq {frame : Frame} {buf : Block bufSize} (begins : frame.bytes <+: buf.bytes)
    {place : Nat} (below : place < frame.bytes.length) :
    frame.pointer place = pointerTo buf place := by
  obtain ⟨rest, whole⟩ := begins
  rw [Frame.pointer, pointerTo, ← whole, List.getD_eq_getElem?_getD, List.getD_eq_getElem?_getD,
    List.getElem?_append_left below]

/-- The frame with these bytes behind it in the buffer. -/
def Frame.extend (frame : Frame) (behind : Pointer) : Block bufSize :=
  receive frame ⟨(List.range bufSize).map behind, by rw [List.length_map, List.length_range]⟩

theorem Frame.extend_begins (frame : Frame) (behind : Pointer) :
    frame.bytes <+: (frame.extend behind).bytes :=
  List.prefix_append _ _

theorem Frame.pointerTo_extend (frame : Frame) (behind : Pointer) (place : Nat) :
    pointerTo (frame.extend behind) place =
      if place < frame.bytes.length then frame.pointer place
      else if place < bufSize then behind place else 0 := by
  by_cases inside : place < frame.bytes.length
  · rw [if_pos inside, pointerTo_eq (frame.extend_begins behind) inside]
  · rw [if_neg inside, pointerTo, Frame.extend, receive, List.getD_eq_getElem?_getD,
      List.getElem?_append_right (by omega), List.getElem?_drop,
      Nat.add_sub_cancel' (by omega), List.getElem?_map]
    by_cases below : place < bufSize
    · rw [List.getElem?_range below, if_pos below]
      rfl
    · rw [List.getElem?_eq_none (by rw [List.length_range]; omega), if_neg below]
      rfl

theorem Frame.pointerTo_behind (frame : Frame) (behind : Pointer) {place : Nat}
    (outside : ¬place < frame.bytes.length) (below : place < bufSize) :
    pointerTo (frame.extend behind) place = behind place := by
  rw [frame.pointerTo_extend, if_neg outside, if_pos below]

section Confined

variable {frame : Frame} {type : Int}

theorem arp_iff (processed : frame.Processed) {buf : Block bufSize}
    (begins : frame.bytes <+: buf.bytes) :
    ntohs (pointerTo buf) hProtoAt = ethertypeArp ↔
      ntohs frame.pointer hProtoAt = ethertypeArp := by
  rcases processed with enough | ⟨length, high⟩
  · have whole : 14 ≤ frame.bytes.length := Nat.le_trans (le_needed _).1 enough
    have same : ntohs frame.pointer hProtoAt = ntohs (pointerTo buf) hProtoAt :=
      (ntohs_tells hProtoAt).depends fun place (below : place < 14) =>
        pointerTo_eq begins (Nat.lt_of_lt_of_le below whole)
    rw [same]
  · have high' : pointerTo buf hProtoAt ≠ 8 := by
      rwa [← pointerTo_eq begins (by rw [length]; decide)]
    exact iff_of_false (ntohs_of_high high').2 (ntohs_of_high high).2

theorem packetProcess_confined (processed : frame.Processed) {buf : Block bufSize}
    (begins : frame.bytes <+: buf.bytes) (counters : Counters) :
    packetProcess (pointerTo buf) frame.bytes.length counters =
      packetProcess frame.pointer frame.bytes.length counters := by
  rcases processed with enough | ⟨length, high⟩
  · exact (packetProcess_congr (fun place below => pointerTo_eq begins below) enough counters).symm
  · have high' : pointerTo buf hProtoAt ≠ 8 := by
      rwa [← pointerTo_eq begins (by rw [length]; decide)]
    rw [packetProcess_high high, packetProcess_high high']

theorem filterByProtocol_confined (processed : frame.Processed) (filtered : frame.Filtered type)
    {buf : Block bufSize} (begins : frame.bytes <+: buf.bytes) :
    filterByProtocol (pointerTo buf) type = filterByProtocol frame.pointer type := by
  have same := arp_iff processed begins
  by_cases arp : ntohs frame.pointer hProtoAt = ethertypeArp
  · simp only [filterByProtocol, arp, same.mpr arp, if_true]
  · simp only [filterByProtocol, if_neg arp, if_neg (mt same.mp arp)]
    by_cases known : 2 ≤ type ∧ type ≤ 4
    · have long := (filtered known).resolve_right arp
      rw [pointerTo_eq begins (Nat.lt_of_lt_of_le (by decide : _ < 24) long)]
    · have two : type ≠ 2 := by omega
      have three : type ≠ 3 := by omega
      have four : type ≠ 4 := by omega
      simp only [two, three, four, and_false, if_false]

theorem kind_of_confined (confined : Confined frame type) (behind behind' : Pointer) :
    Counters.zero.count (kind (pointerTo (frame.extend behind))) =
      Counters.zero.count (kind (pointerTo (frame.extend behind'))) := by
  have same := (confined _ _ (frame.extend_begins behind) (frame.extend_begins behind')).2
    Counters.zero
  rw [← packetProcess_counters _ frame.bytes.length, same, packetProcess_counters]

/-- A frame that ends before its EtherType may turn out to be ARP. -/
theorem processed_of_short (confined : Confined frame type) (short : frame.bytes.length < 14) :
    frame.Processed := by
  by_contra unread
  have hproto : hProtoAt = 12 := rfl
  have etherType (later : UInt8) : ntohs (pointerTo
      (frame.extend fun place => if place = hProtoAt then 8 else later)) hProtoAt =
      2048 + later.toNat := by
    have high : pointerTo (frame.extend fun place => if place = hProtoAt then 8 else later)
        hProtoAt = 8 := by
      rw [frame.pointerTo_extend]
      by_cases inside : hProtoAt < frame.bytes.length
      · rw [if_pos inside]
        by_contra high
        exact unread (.inr ⟨by omega, high⟩)
      · rw [if_neg inside]
        rfl
    rw [ntohs, high, frame.pointerTo_behind _ (by omega) (by decide)]
    rfl
  have same := kind_of_confined confined (fun place => if place = hProtoAt then 8 else 6)
    (fun place => if place = hProtoAt then 8 else 1)
  have arp := (kind_eq_arp _).mpr (etherType 6)
  have other : kind (pointerTo (frame.extend fun place => if place = hProtoAt then 8 else 1)) =
      .other := by
    rw [kind, etherType 1]
    rfl
  rw [arp, other] at same
  revert same
  decide

section Long

variable (long : 14 ≤ frame.bytes.length)
include long

theorem ntohs_extend (behind : Pointer) :
    ntohs (pointerTo (frame.extend behind)) hProtoAt = ntohs frame.pointer hProtoAt :=
  ((ntohs_tells hProtoAt).depends fun place (below : place < 14) =>
    pointerTo_eq (frame.extend_begins behind) (Nat.lt_of_lt_of_le below long)).symm

/-- An IP packet that ends before the protocol may be ICMP as well as IGMP. -/
theorem protocol_of_confined (confined : Confined frame type)
    (ip : ntohs frame.pointer hProtoAt = ethertypeIp) : 24 ≤ frame.bytes.length := by
  by_contra short
  have protocol (number : UInt8) :
      pointerTo (frame.extend fun _ => number) (ethhdrSize + protocolAt) = number :=
    frame.pointerTo_behind _ short (by decide)
  have same := kind_of_confined confined (fun _ => ipprotoIcmp) (fun _ => ipprotoIgmp)
  rw [kind, kind, ntohs_extend long, ntohs_extend long, if_pos ip, if_pos ip, protocol,
    protocol] at same
  revert same
  decide

/-- The last byte that is read is one of the frame. -/
theorem needed_of_confined (confined : Confined frame type) :
    needed frame.pointer ≤ frame.bytes.length := by
  by_contra short
  have few := needed_le frame.pointer
  have buf : bufSize = 65536 := rfl
  -- two buffers that differ only there
  obtain ⟨last, bound⟩ : ∃ last, last + 1 = needed frame.pointer :=
    Nat.exists_eq_add_one_of_ne_zero (by omega) |>.imp fun _ => Eq.symm
  have differ : pointerTo (frame.extend fun _ => 0) last ≠
      pointerTo (frame.extend fun place => if place = last then 1 else 0) last := by
    have outside : ¬last < frame.bytes.length := by omega
    have below : last < bufSize := by omega
    rw [frame.pointerTo_behind _ outside below, frame.pointerTo_behind _ outside below, if_pos rfl]
    decide
  have same (place : Nat) (apart : place ≠ last) : pointerTo (frame.extend fun _ => 0) place =
      pointerTo (frame.extend fun place => if place = last then 1 else 0) place := by
    rw [frame.pointerTo_extend, frame.pointerTo_extend, if_neg apart]
  have equal := (confined _ _ (frame.extend_begins fun _ => 0) (frame.extend_begins fun place =>
    if place = last then 1 else 0)).2 Counters.zero
  by_cases ip : ntohs frame.pointer hProtoAt = ethertypeIp
  · have whole := protocol_of_confined long confined ip
    have needs : needed (pointerTo (frame.extend fun _ => 0)) = needed frame.pointer :=
      (needed_congr fun place below =>
        pointerTo_eq (frame.extend_begins _) (Nat.lt_of_lt_of_le below whole)).symm
    exact packetProcess_ip_ne ((ntohs_extend long _).trans ip) same differ (bound.trans needs.symm)
      (by omega) Counters.zero equal
  · by_cases arp : ntohs frame.pointer hProtoAt = ethertypeArp
    · rw [needed, if_neg ip, if_pos arp] at bound
      obtain rfl : last = 21 := by omega
      exact packetProcess_arp_ne ((ntohs_extend long _).trans arp) same differ Counters.zero equal
    · rw [needed, if_neg ip, if_neg arp] at short
      exact short long

end Long

/-- The filter tells the protocol of a frame that is not ARP. -/
theorem filtered_of_confined (confined : Confined frame type) (processed : frame.Processed) :
    frame.Filtered type := by
  intro known
  by_contra neither
  rw [not_or] at neither
  have protocol (number : UInt8) :
      pointerTo (frame.extend fun _ => number) (ethhdrSize + protocolAt) = number :=
    frame.pointerTo_behind _ neither.1 (by decide)
  have notArp (number : UInt8) :
      ntohs (pointerTo (frame.extend fun _ => number)) hProtoAt ≠ ethertypeArp :=
    mt (arp_iff processed (frame.extend_begins _)).mp neither.2
  have same := (confined _ _ (frame.extend_begins fun _ => 0)
    (frame.extend_begins fun _ => protocolOf type)).1
  have known' : 1 ≤ type ∧ type ≤ 4 := by omega
  have ip : type ≠ 1 := by omega
  have passed := (filterByProtocol_protocol known' ip _).mpr ⟨notArp _, protocol (protocolOf type)⟩
  rw [← same, filterByProtocol_protocol known' ip, protocol] at passed
  obtain rfl | rfl | rfl : type = 2 ∨ type = 3 ∨ type = 4 := by omega
  all_goals exact absurd passed.2 (by decide)

end Confined

/-- What is done with a frame depends on its own bytes alone exactly when it has all
the bytes that are read of it. -/
theorem confined_iff (frame : Frame) (type : Int) :
    Confined frame type ↔ frame.Processed ∧ frame.Filtered type := by
  constructor
  · intro confined
    have processed : frame.Processed := by
      rcases Nat.lt_or_ge frame.bytes.length 14 with short | long
      · exact processed_of_short confined short
      · exact .inl (needed_of_confined long confined)
    exact ⟨processed, filtered_of_confined confined processed⟩
  · rintro ⟨processed, filtered⟩ first second begins begins'
    refine ⟨?_, fun counters => ?_⟩
    · rw [filterByProtocol_confined processed filtered begins,
        filterByProtocol_confined processed filtered begins']
    · rw [packetProcess_confined processed begins, packetProcess_confined processed begins']

/-- A round of the loop, for a frame that has all that is read of it. -/
theorem sniff_eq {frame : Frame} (processed : frame.Processed) (filtered : frame.Filtered 2)
    (buf : Block bufSize) (counters : Counters) :
    sniff buf counters frame =
      if filterByProtocol frame.pointer 2 then
        ((packetProcess frame.pointer frame.bytes.length counters).1, receive frame buf,
          (packetProcess frame.pointer frame.bytes.length counters).2)
      else ([], receive frame buf, counters) := by
  have begins : frame.bytes <+: (receive frame buf).bytes := List.prefix_append _ _
  simp only [sniff, filterByProtocol_confined processed filtered begins,
    packetProcess_confined processed begins]

/-- A frame of 14 bytes that says it is IP: what it is counted as is in the bytes
that an earlier frame left. -/
theorem leftover_counted : ¬ ∀ frame type, Confined frame type := by
  intro confined
  have long := @protocol_of_confined ⟨List.replicate 12 0 ++ [8, 0], by decide, by decide⟩ 1
    (by decide) (confined _ 1) (by decide)
  revert long
  decide

end CssLab.Sniffer
