import CssLab.Sniffer.Packet

/-! `filterByPort` of `filter.c` beside the ports that `tcp_header` and `udp_header` print. -/

namespace CssLab.Sniffer

open Http Printf

/-- `sizeof(struct iphdr)`, which has no options. -/
abbrev iphdrSize : Nat := 20

/-- There is no `return` for a type other than 0 and 1. -/
def filterByPort (buffer : Pointer) (port : UInt16) (type : Int) : Option Bool :=
  if ntohs buffer hProtoAt ≠ ethertypeIp then some false
  else
    let protocol := buffer (ethhdrSize + protocolAt)
    if protocol ≠ ipprotoTcp ∧ protocol ≠ ipprotoUdp then some false
    else if protocol = ipprotoTcp then
      let tcp := buffer.add (iphdrSize + ethhdrSize)
      -- The fields are not put in the order of the machine.
      if type = 0 then if short tcp 0 = port.toNat then some false else some true
      else if type = 1 then if short tcp 2 = port.toNat then some false else some true
      else none
    else
      let udp := buffer.add (iphdrSize + ethhdrSize)
      if type = 0 then if short udp 0 = port.toNat then some false else some true
      else if type = 1 then if short udp 2 = port.toNat then some false else some true
      else none

/-- Where the port of this type is in either header. -/
def portAt (type : Int) : Nat := if type = 0 then 0 else 2

/-- The number that the filter compares. -/
def comparedPort (buffer : Pointer) (type : Int) : Nat :=
  short (buffer.add (iphdrSize + ethhdrSize)) (portAt type)

/-- The port in the header that is behind the whole IP header. -/
def framePort (buffer : Pointer) (type : Int) : Nat :=
  ntohs (buffer.add (ipheaderLen buffer + ethhdrSize)) (portAt type)

/-- What is printed starts with lines that give the port of this type. -/
def PortLines (title source dest : String) (printed : List UInt8) (type : Int) (port : Nat) :
    Prop :=
  ∃ sport dport,
    text title ++ line source (decimal sport) ++ line dest (decimal dport) <+: printed ∧
      port = if type = 0 then sport else dport

/-- The port of this type in the header that is printed of a frame with TCP or UDP. -/
def Prints (buffer : Pointer) (type : Int) (port : Nat) : Prop :=
  if buffer (ethhdrSize + protocolAt) = ipprotoTcp then
    PortLines "\nTCP Header\n" "\t|-Source Port             : " "\t|-Destination Port        : "
      (tcpHeader buffer) type port
  else
    PortLines "\nUDP Header\n" "\t|-Source Port    \t      : " "\t|-Destination Port\t      : "
      (udpHeader buffer) type port

theorem portLines_iff {title source dest : String} {sport dport : Nat} {printed : List UInt8}
    (starts : text title ++ line source (decimal sport) ++ line dest (decimal dport) <+: printed)
    (type : Int) (port : Nat) :
    PortLines title source dest printed type port ↔ port = if type = 0 then sport else dport := by
  constructor
  · rintro ⟨sport', dport', starts', rfl⟩
    obtain ⟨rest, rfl⟩ := starts
    obtain ⟨rest', same⟩ := starts'
    simp only [line, List.append_assoc, List.cons_append, List.nil_append] at same
    have lines := List.append_cancel_left (List.append_cancel_left same)
    have first := decimal_line_injective lines
    subst first
    have second := decimal_line_injective (List.append_cancel_left
      (List.cons_injective (List.append_cancel_left lines)))
    rw [second]
  · intro given
    exact ⟨sport, dport, starts, given⟩

theorem framePort_eq (buffer : Pointer) (type : Int) : framePort buffer type =
    if type = 0 then ntohs (buffer.add (ipheaderLen buffer + ethhdrSize)) 0
    else ntohs (buffer.add (ipheaderLen buffer + ethhdrSize)) 2 := by
  rw [framePort, portAt]
  split
  · rfl
  · rfl

theorem prints_iff (buffer : Pointer) (type : Int) (port : Nat) :
    Prints buffer type port ↔ port = framePort buffer type := by
  have tcp : text "\nTCP Header\n" ++ line "\t|-Source Port             : "
        (decimal (ntohs (buffer.add (ipheaderLen buffer + ethhdrSize)) 0)) ++
      line "\t|-Destination Port        : "
        (decimal (ntohs (buffer.add (ipheaderLen buffer + ethhdrSize)) 2)) <+:
      tcpHeader buffer := by
    unfold tcpHeader tcpFields
    iterate 13 apply List.prefix_append_of_prefix
    exact List.prefix_rfl
  have udp : text "\nUDP Header\n" ++ line "\t|-Source Port    \t      : "
        (decimal (ntohs (buffer.add (ipheaderLen buffer + ethhdrSize)) 0)) ++
      line "\t|-Destination Port\t      : "
        (decimal (ntohs (buffer.add (ipheaderLen buffer + ethhdrSize)) 2)) <+:
      udpHeader buffer :=
    (List.prefix_append _ _).trans (List.prefix_append _ _)
  rw [Prints, framePort_eq, portLines_iff tcp, portLines_iff udp, ite_self]

/-- The filter returns false for a frame whose port it compares with is the given one. -/
theorem filterByPort_iff {buffer : Pointer} (isIp : ntohs buffer hProtoAt = ethertypeIp)
    (carries : buffer (ethhdrSize + protocolAt) = ipprotoTcp ∨
      buffer (ethhdrSize + protocolAt) = ipprotoUdp)
    {type : Int} (either : type = 0 ∨ type = 1) (port : UInt16) :
    filterByPort buffer port type = some false ↔ port.toNat = comparedPort buffer type := by
  have known : ¬ (buffer (ethhdrSize + protocolAt) ≠ ipprotoTcp ∧
      buffer (ethhdrSize + protocolAt) ≠ ipprotoUdp) :=
    fun both => carries.elim both.1 both.2
  have compares (place : Nat) :
      (if short (buffer.add (iphdrSize + ethhdrSize)) place = port.toNat then some false
        else some true) = some false ↔
      port.toNat = short (buffer.add (iphdrSize + ethhdrSize)) place := by
    split
    · exact iff_of_true rfl (Eq.symm ‹_›)
    · exact iff_of_false (by decide) (Ne.symm ‹_›)
  unfold filterByPort comparedPort portAt
  rw [if_neg (not_not.mpr isIp)]
  simp only [if_neg known, ite_self]
  rcases either with rfl | rfl
  · exact compares 0
  · exact compares 2

/-- The filter and the printed port agree exactly where the bytes that the filter reads, the
low one first, make the number of the printed port, or neither number is the given one. -/
theorem filterByPort_prints_iff (buffer : Pointer) (port : UInt16) (type : Int)
    (isIp : ntohs buffer hProtoAt = ethertypeIp)
    (carries : buffer (ethhdrSize + protocolAt) = ipprotoTcp ∨
      buffer (ethhdrSize + protocolAt) = ipprotoUdp)
    (either : type = 0 ∨ type = 1) :
    (filterByPort buffer port type = some false ↔ Prints buffer type port.toNat) ↔
      (comparedPort buffer type = framePort buffer type ∨
        port.toNat ≠ comparedPort buffer type ∧ port.toNat ≠ framePort buffer type) := by
  rw [filterByPort_iff isIp carries either, prints_iff]
  omega

/-- A TCP frame without options from a port that is 80. -/
def webFrame : Pointer := fun place =>
  [0, 0, 0, 0, 0, 0, 0, 0, 0, 0, 0, 0, 0x08, 0x00, 0x45, 0, 0, 40, 0, 0, 0, 0, 64, 6, 0, 0, 10, 0,
    0, 1, 10, 0, 0, 2, 0, 80].getD place 0

theorem filterByPort_prints_web :
    (filterByPort webFrame 443 0 = some false ↔ Prints webFrame 0 443) ↔
      (comparedPort webFrame 0 = framePort webFrame 0 ∨
        443 ≠ comparedPort webFrame 0 ∧ 443 ≠ framePort webFrame 0) :=
  filterByPort_prints_iff webFrame 443 0 rfl (.inl rfl) (.inl rfl)

/-- Port 80 is printed and not filtered. -/
theorem port_unfiltered : Prints webFrame 0 80 ∧ filterByPort webFrame 80 0 = some true := by
  constructor
  · rw [prints_iff]
    rfl
  · rfl

end CssLab.Sniffer
