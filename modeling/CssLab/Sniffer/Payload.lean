import CssLab.Sniffer.Packet

namespace CssLab.Sniffer

open Http Printf

/-- The protocols whose packets are printed. -/
inductive Transport where
  | icmp
  | tcp
  | udp
  deriving DecidableEq

namespace Transport

def protocol : Transport → UInt8
  | icmp => ipprotoIcmp
  | tcp => ipprotoTcp
  | udp => ipprotoUdp

/-- The printer that `packet_process` calls. -/
def printer : Transport → Pointer → Nat → List UInt8
  | icmp => icmpPrinter
  | tcp => tcpPrinter
  | udp => udpPrinter

/-- The `sizeof` that the printer skips. -/
def structSize : Transport → Nat
  | icmp => icmphdrSize
  | tcp => tcphdrSize
  | udp => udphdrSize

/-- What the printer shows before the data. -/
def headers (transport : Transport) (buffer : Pointer) : List UInt8 :=
  match transport with
  | icmp => text "\n---------------------------ICMP Packet---------------------------" ++
      macHeader buffer ++ (ipHeader buffer ++ icmpHeader buffer)
  | tcp => text "\n---------------------------TCP Packet---------------------------" ++
      macHeader buffer ++ (ipHeader buffer ++ tcpHeader buffer)
  | udp => text "\n---------------------------UDP Packet---------------------------" ++
      macHeader buffer ++ (ipHeader buffer ++ udpHeader buffer)

end Transport

/-- The field `tot_len`. -/
def totLen (buffer : Pointer) : Nat := ntohs (buffer.add ethhdrSize) 2

/-- Where the transport header starts. -/
def transportAt (buffer : Pointer) : Nat := ethhdrSize + ipheaderLen buffer

/-- The field `doff`. -/
def doff (buffer : Pointer) : Nat := (buffer (transportAt buffer + 12)).toNat / 16

/-- How long the transport header is by its own fields. -/
def headerLen : Transport → Pointer → Nat
  | .icmp, _ => icmphdrSize
  | .tcp, buffer => doff buffer * 4
  | .udp, _ => udphdrSize

/-- A frame of so many bytes with an IPv4 packet whose headers lie inside it. -/
structure WellFormed (transport : Transport) (buffer : Pointer) (n : Nat) : Prop where
  isIp : ntohs buffer hProtoAt = ethertypeIp
  version : (buffer ethhdrSize).toNat / 16 = 4
  ihl_ge : 5 ≤ ihl (buffer.add ethhdrSize)
  carries : buffer (ethhdrSize + protocolAt) = transport.protocol
  doff_ge : transport = .tcp → 5 ≤ doff buffer
  inside : ipheaderLen buffer + headerLen transport buffer ≤ totLen buffer
  captured : ethhdrSize + totLen buffer ≤ n

/-- The bytes of a frame from one offset up to another. -/
def bytesBetween (buffer : Pointer) (start stop : Nat) : List UInt8 :=
  (List.range (stop - start)).map (buffer.add start)

/-- The payload: what is behind the transport header, up to the end of the IP packet. -/
def payloadBytes (transport : Transport) (buffer : Pointer) : List UInt8 :=
  bytesBetween buffer (transportAt buffer + headerLen transport buffer)
    (ethhdrSize + totLen buffer)

/-- What `payload` prints of these bytes. -/
def dataText (bytes : List UInt8) : List UInt8 :=
  payload (fun place => bytes.getD place 0) bytes.length

def rule : List UInt8 :=
  text "--------------------------------------------------------------\n\n\n"

/-- The printer shows these bytes under `Data`. -/
def ShowsData (transport : Transport) (buffer : Pointer) (n : Nat) (bytes : List UInt8) : Prop :=
  transport.printer buffer n = transport.headers buffer ++ dataText bytes ++ rule

/-- What the printer writes for the byte at a place. -/
def cell (data : Pointer) (place : Nat) : List UInt8 :=
  (if place ≠ 0 ∧ place % 16 = 0 then [10] else []) ++
    text " " ++ hexUpper 2 (data place).toNat ++ text " "

theorem payload_eq (data : Pointer) (length : Nat) :
    payload data length =
      text "\nData\n" ++ (List.range length).flatMap (cell data) ++ [10] := rfl

/-- How wide a cell is depends on its place only. -/
def cellWidth (place : Nat) : Nat := (if place ≠ 0 ∧ place % 16 = 0 then 1 else 0) + 4

theorem length_cell (data : Pointer) (place : Nat) :
    (cell data place).length = cellWidth place := by
  have digits := hexUpper_two (data place).toNat_lt
  rw [cell, digits, cellWidth]
  split
  · rfl
  · rfl

theorem upperDigit_injective {first second : Nat} (small : first < 16) (small' : second < 16)
    (same : upperDigit first = upperDigit second) : first = second := by
  have digits : ∀ first second : Fin 16,
      upperDigit first.val = upperDigit second.val → first = second := by decide
  have both := digits ⟨first, small⟩ ⟨second, small'⟩ same
  exact congrArg Fin.val both

theorem cell_injective {data data' : Pointer} {place : Nat}
    (same : cell data place = cell data' place) : data place = data' place := by
  rw [cell, cell, List.append_left_inj, List.append_right_inj,
    hexUpper_two (data place).toNat_lt, hexUpper_two (data' place).toNat_lt, List.cons.injEq,
    List.cons.injEq] at same
  have high := upperDigit_injective (Nat.div_lt_of_lt_mul (data place).toNat_lt)
    (Nat.div_lt_of_lt_mul (data' place).toNat_lt) same.1
  have low := upperDigit_injective (Nat.mod_lt _ (by decide)) (Nat.mod_lt _ (by decide)) same.2.1
  rw [← UInt8.toNat_inj]
  omega

theorem cells_succ (data : Pointer) (length : Nat) :
    (List.range (length + 1)).flatMap (cell data) =
      (List.range length).flatMap (cell data) ++ cell data length := by
  rw [List.range_succ, List.flatMap_append, List.flatMap_singleton]

/-- So many cells take as much text whatever bytes they show. -/
theorem length_cells (data data' : Pointer) (length : Nat) :
    ((List.range length).flatMap (cell data)).length =
      ((List.range length).flatMap (cell data')).length := by
  induction length with
  | zero => rfl
  | succ length ih =>
    rw [cells_succ, cells_succ, List.length_append, List.length_append, ih, length_cell,
      length_cell]

theorem cells_lt {data data' : Pointer} {fewer more : Nat} (less : fewer < more) :
    ((List.range fewer).flatMap (cell data)).length <
      ((List.range more).flatMap (cell data')).length := by
  rw [length_cells data data']
  induction less with
  | refl =>
    rw [cells_succ, List.length_append, length_cell, cellWidth]
    omega
  | step _ ih =>
    rw [cells_succ, List.length_append]
    exact Nat.lt_of_lt_of_le ih (Nat.le_add_right _ _)

/-- As many cells with the same text are of the same bytes. -/
theorem cells_injective {data data' : Pointer} {length : Nat}
    (same : (List.range length).flatMap (cell data) = (List.range length).flatMap (cell data')) :
    ∀ place < length, data place = data' place := by
  induction length with
  | zero =>
    intro place below
    exact absurd below (Nat.not_lt_zero _)
  | succ length ih =>
    rw [cells_succ, cells_succ] at same
    obtain ⟨before, last⟩ := List.append_inj same (length_cells data data' length)
    intro place below
    rcases Nat.lt_succ_iff_lt_or_eq.mp below with earlier | rfl
    · exact ih before place earlier
    · exact cell_injective last

/-- The text of `payload` gives back how many bytes it shows and which. -/
theorem payload_inj {data data' : Pointer} {length length' : Nat} :
    payload data length = payload data' length' ↔
      length = length' ∧ ∀ place < length, data place = data' place := by
  rw [payload_eq, payload_eq, List.append_left_inj, List.append_right_inj]
  constructor
  · intro same
    have lengths : length = length' := by
      rcases Nat.lt_trichotomy length length' with less | equal | more
      · exact absurd (congrArg List.length same) (Nat.ne_of_lt (cells_lt less))
      · exact equal
      · exact absurd (congrArg List.length same) (Nat.ne_of_gt (cells_lt more))
    subst lengths
    exact ⟨rfl, cells_injective same⟩
  · rintro ⟨rfl, same⟩
    have cells : ∀ place ∈ List.range length, cell data place = cell data' place := by
      intro place member
      rw [cell, cell, same place (List.mem_range.mp member)]
    simp only [List.flatMap_def, List.map_congr_left cells]

/-- A printer skips the `sizeof` of its header and goes on to the end of the frame. -/
theorem printer_eq (transport : Transport) (buffer : Pointer) (n : Nat) :
    transport.printer buffer n = transport.headers buffer ++
      payload (buffer.add (transportAt buffer + transport.structSize))
        (n - (transportAt buffer + transport.structSize)) ++ rule := by
  cases transport with
  | icmp => rfl
  | tcp => rfl
  | udp => rfl

/-- The bytes that are shown are those behind the `sizeof`, and no others. -/
theorem showsData_iff (transport : Transport) (buffer : Pointer) (n : Nat) (bytes : List UInt8) :
    ShowsData transport buffer n bytes ↔
      bytes = bytesBetween buffer (transportAt buffer + transport.structSize) n := by
  rw [ShowsData, printer_eq, List.append_left_inj, List.append_right_inj, dataText, payload_inj]
  constructor
  · rintro ⟨lengths, same⟩
    apply List.ext_getElem
    · rw [bytesBetween, List.length_map, List.length_range, lengths]
    · intro place below _
      have shown := same place (by omega)
      rw [List.getD_eq_getElem?_getD, List.getElem?_eq_getElem below, Option.getD_some] at shown
      simp only [← shown, bytesBetween, List.getElem_map, List.getElem_range]
  · rintro rfl
    have lengths : (bytesBetween buffer (transportAt buffer + transport.structSize) n).length =
        n - (transportAt buffer + transport.structSize) := by
      rw [bytesBetween, List.length_map, List.length_range]
    refine ⟨lengths.symm, fun place below => ?_⟩
    rw [List.getD_eq_getElem?_getD, List.getElem?_eq_getElem (by omega), Option.getD_some]
    simp [bytesBetween]

theorem WellFormed.processFrame (wellFormed : WellFormed transport buffer n)
    (counters : Counters) :
    (processFrame buffer n counters).1 = transport.printer buffer n := by
  rw [Sniffer.processFrame, if_pos wellFormed.isIp, processIp, wellFormed.carries]
  cases transport with
  | icmp => rfl
  | tcp => rfl
  | udp => rfl

theorem WellFormed.structSize_le (wellFormed : WellFormed transport buffer n) :
    transport.structSize ≤ headerLen transport buffer := by
  cases transport with
  | icmp => exact Nat.le_refl _
  | tcp => exact Nat.mul_le_mul_right 4 (wellFormed.doff_ge rfl)
  | udp => exact Nat.le_refl _

theorem headerLen_eq_iff (transport : Transport) (buffer : Pointer) :
    headerLen transport buffer = transport.structSize ↔ (transport = .tcp → doff buffer = 5) := by
  cases transport with
  | icmp => simp [headerLen, Transport.structSize]
  | tcp =>
    simp only [headerLen, Transport.structSize, forall_const]
    change doff buffer * 4 = 5 * 4 ↔ doff buffer = 5
    omega
  | udp => simp [headerLen, Transport.structSize]

/-- The payload is what a printer shows when the frame ends with the IP packet and a TCP
header has no options, and only then. -/
theorem showsData_payload_iff (wellFormed : WellFormed transport buffer n) :
    ShowsData transport buffer n (payloadBytes transport buffer) ↔
      n = ethhdrSize + totLen buffer ∧ (transport = .tcp → doff buffer = 5) := by
  have longer := wellFormed.structSize_le
  have inside := wellFormed.inside
  have captured := wellFormed.captured
  have start : transportAt buffer = ethhdrSize + ipheaderLen buffer := rfl
  rw [showsData_iff, payloadBytes, ← headerLen_eq_iff]
  constructor
  · intro same
    have lengths := congrArg List.length same
    simp only [bytesBetween, List.length_map, List.length_range] at lengths
    omega
  · rintro ⟨ends, fixed⟩
    rw [fixed, ends]

/-- A datagram with the text `hi`. -/
def greeting : Pointer := fun place =>
  [0, 1, 2, 3, 4, 5, 0, 1, 2, 3, 4, 6, 8, 0,
    0x45, 0, 0, 30, 0, 1, 0, 0, 64, 17, 0, 0, 127, 0, 0, 1, 127, 0, 0, 1,
    0, 80, 0, 81, 0, 10, 0, 0, 104, 105].getD place 0

theorem greeting_wellFormed : WellFormed .udp greeting 44 where
  isIp := by decide
  version := by decide
  ihl_ge := by decide
  carries := by decide
  doff_ge := by decide
  inside := by decide
  captured := by decide

theorem showsData_payload_greeting :
    WellFormed .udp greeting 44 ∧ ShowsData .udp greeting 44 (payloadBytes .udp greeting) ∧
      payloadBytes .udp greeting = text "hi" :=
  ⟨greeting_wellFormed, (showsData_payload_iff greeting_wellFormed).mpr ⟨rfl, by decide⟩, rfl⟩

/-- A TCP segment without data; Ethernet fills such a frame up to 60 bytes. -/
def syn : Pointer := fun place =>
  [0, 1, 2, 3, 4, 5, 0, 1, 2, 3, 4, 6, 8, 0,
    0x45, 0, 0, 40, 0, 1, 0, 0, 64, 6, 0, 0, 127, 0, 0, 1, 127, 0, 0, 1,
    0, 80, 0, 81, 0, 0, 0, 0, 0, 0, 0, 0, 0x50, 2, 4, 0, 0, 0, 0, 0].getD place 0

/-- The six bytes that fill it up are shown as its data. -/
theorem padding_shown :
    WellFormed .tcp syn 60 ∧ payloadBytes .tcp syn = [] ∧
      ShowsData .tcp syn 60 [0, 0, 0, 0, 0, 0] ∧
      ¬ ShowsData .tcp syn 60 (payloadBytes .tcp syn) := by
  refine ⟨⟨by decide, by decide, by decide, by decide, by decide, by decide, by decide⟩, rfl, ?_,
    ?_⟩
  · rw [showsData_iff]
    rfl
  · rw [showsData_iff]
    decide

end CssLab.Sniffer
