import CssLab.Lib.Counter
import CssLab.Sniffer.Packet

namespace CssLab.Sniffer

/-- What a frame is to `packet_process`. -/
inductive Kind
  | tcp
  | udp
  | icmp
  | igmp
  | other
  | arp
  deriving DecidableEq

def kind (buffer : Pointer) : Kind :=
  if ntohs buffer hProtoAt = ethertypeIp then
    let protocol := buffer (ethhdrSize + protocolAt)
    if protocol = ipprotoIcmp then .icmp
    else if protocol = ipprotoIgmp then .igmp
    else if protocol = ipprotoTcp then .tcp
    else if protocol = ipprotoUdp then .udp
    else .other
  else if ntohs buffer hProtoAt = ethertypeArp then .arp
  else .other

/-- The counters after a frame of this kind. -/
def Counters.count (counters : Counters) (kind : Kind) : Counters :=
  let counters := { counters with total := counters.total + 1 }
  match kind with
  | .tcp => { counters with tcp := counters.tcp + 1 }
  | .udp => { counters with udp := counters.udp + 1 }
  | .icmp => { counters with icmp := counters.icmp + 1 }
  | .igmp => { counters with igmp := counters.igmp + 1 }
  | .other => { counters with other := counters.other + 1 }
  | .arp => { counters with arpPacket := counters.arpPacket + 1, other := counters.other + 1 }

theorem packetProcess_counters (buffer : Pointer) (bufferLen : Nat) (counters : Counters) :
    (packetProcess buffer bufferLen counters).2 = counters.count (kind buffer) := by
  simp only [packetProcess, processFrame, kind]
  by_cases ip : ntohs buffer hProtoAt = ethertypeIp
  · rw [if_pos ip, if_pos ip]
    simp only [processIp]
    split
    · rfl
    · split
      · rfl
      · split
        · rfl
        · split <;> rfl
  · rw [if_neg ip, if_neg ip]
    split <;> rfl

/-- The counters of a run that starts with all of them zero. -/
def processAll (frames : List (Pointer × Nat)) : Counters :=
  frames.foldl (fun counters frame => (packetProcess frame.1 frame.2 counters).2) Counters.zero

/-- Each frame of the run is counted once, under one protocol. -/
def Partition (frames : List (Pointer × Nat)) : Prop :=
  let counters := processAll frames
  counters.total.toInt = frames.length ∧
    counters.total.toInt = counters.tcp.toInt + counters.udp.toInt + counters.icmp.toInt +
      counters.igmp.toInt + counters.arpPacket.toInt + counters.other.toInt

/-- The kinds of the frames of a run. -/
def kinds (frames : List (Pointer × Nat)) : List Kind := frames.map fun frame => kind frame.1

/-- The counters that frames of these kinds lead to. -/
def tally (kinds : List Kind) : Counters where
  total := BitVec.ofNat 32 kinds.length
  tcp := BitVec.ofNat 32 (kinds.count .tcp)
  udp := BitVec.ofNat 32 (kinds.count .udp)
  icmp := BitVec.ofNat 32 (kinds.count .icmp)
  igmp := BitVec.ofNat 32 (kinds.count .igmp)
  other := BitVec.ofNat 32 (kinds.count .other + kinds.count .arp)
  arpPacket := BitVec.ofNat 32 (kinds.count .arp)

theorem tally_concat (kinds : List Kind) (kind : Kind) :
    tally (kinds ++ [kind]) = (tally kinds).count kind := by
  cases kind with
  | other | arp =>
    simp [tally, Counters.count, List.count_append, BitVec.ofNat_add]
    ac_rfl
  | _ => simp [tally, Counters.count, List.count_append, BitVec.ofNat_add]

theorem processAll_eq (frames : List (Pointer × Nat)) :
    processAll frames = tally (kinds frames) := by
  induction frames using List.reverseRecOn with
  | nil => rfl
  | append_singleton frames frame ih =>
    have before : frames.foldl (fun counters frame => (packetProcess frame.1 frame.2 counters).2)
        Counters.zero = tally (kinds frames) := ih
    have last : kinds (frames ++ [frame]) = kinds frames ++ [kind frame.1] := List.map_append
    rw [processAll, List.foldl_append, before, last, tally_concat]
    exact packetProcess_counters frame.1 frame.2 _

theorem length_eq_counts (kinds : List Kind) :
    kinds.length = kinds.count .tcp + kinds.count .udp + kinds.count .icmp + kinds.count .igmp +
      kinds.count .arp + kinds.count .other := by
  induction kinds with
  | nil => rfl
  | cons kind kinds ih =>
    rw [List.length_cons, ih]
    cases kind <;> simp <;> omega

/-- A count that an `int` holds is read as it is. -/
theorem kind_eq_arp (buffer : Pointer) :
    kind buffer = .arp ↔ ntohs buffer hProtoAt = ethertypeArp := by
  rw [kind]
  by_cases ip : ntohs buffer hProtoAt = ethertypeIp
  · rw [if_pos ip, ip]
    refine iff_of_false ?_ (by decide)
    dsimp only
    repeat' split
    all_goals decide
  · rw [if_neg ip]
    split <;> simp [*]

theorem count_arp (frames : List (Pointer × Nat)) :
    (kinds frames).count .arp = 0 ↔ ∀ frame ∈ frames, ntohs frame.1 hProtoAt ≠ ethertypeArp := by
  rw [List.count_eq_zero, kinds, List.mem_map, not_exists]
  refine forall_congr' fun frame => ?_
  rw [not_and, kind_eq_arp]

/-- The counters partition a run exactly when it has no ARP frame, which is counted
twice, and no more frames than an `int` counts. -/
theorem partition_iff (frames : List (Pointer × Nat)) :
    Partition frames ↔ frames.length < 2147483648 ∧
      ∀ frame ∈ frames, ntohs frame.1 hProtoAt ≠ ethertypeArp := by
  have length : (kinds frames).length = frames.length := List.length_map _
  have parts := length_eq_counts (kinds frames)
  rw [Partition, processAll_eq, ← count_arp]
  simp only [tally, length]
  constructor
  · rintro ⟨whole, sum⟩
    have small : frames.length < 2147483648 := by
      have bound := BitVec.toInt_lt (x := BitVec.ofNat 32 frames.length)
      simp at bound
      omega
    refine ⟨small, ?_⟩
    repeat rw [(Counter.toInt_eq_iff _).mpr (by omega)] at sum
    omega
  · rintro ⟨small, none⟩
    repeat rw [(Counter.toInt_eq_iff _).mpr (by omega)]
    omega

/-- A frame that says it is ARP is counted as ARP and as other. -/
theorem arp_counted_twice : ¬ ∀ frames, Partition frames := by
  intro always
  have sum := (always [(fun place => if place = hProtoAt then 8 else 6, 42)]).2
  rw [processAll_eq] at sum
  revert sum
  decide

/-- The types that `filterByProtocol` knows, and the counters and numbers that go with them. -/
def kindOf (type : Int) : Kind :=
  if type = 1 then .arp else if type = 2 then .icmp else if type = 3 then .tcp else .udp

def protocolOf (type : Int) : UInt8 :=
  if type = 2 then ipprotoIcmp else if type = 3 then ipprotoTcp else ipprotoUdp

def Counters.ofType (counters : Counters) (type : Int) : BitVec 32 :=
  if type = 1 then counters.arpPacket else if type = 2 then counters.icmp
  else if type = 3 then counters.tcp else counters.udp

/-- `packet_process` on this frame increments the counter of the type. -/
def Increments (buffer : Pointer) (bufferLen : Nat) (type : Int) : Prop :=
  ∀ counters, (packetProcess buffer bufferLen counters).2.ofType type = counters.ofType type + 1

theorem increments_iff {type : Int} (known : 1 ≤ type ∧ type ≤ 4) (buffer : Pointer)
    (bufferLen : Nat) : Increments buffer bufferLen type ↔ kind buffer = kindOf type := by
  simp only [Increments, packetProcess_counters]
  obtain rfl | rfl | rfl | rfl : type = 1 ∨ type = 2 ∨ type = 3 ∨ type = 4 := by omega
  all_goals
    constructor
    · intro counted
      have once := counted Counters.zero
      revert once
      cases kind buffer <;> decide
    · intro same counters
      rw [same]
      rfl

theorem kind_eq_protocol {type : Int} (known : 1 ≤ type ∧ type ≤ 4) (ip : type ≠ 1)
    (buffer : Pointer) : kind buffer = kindOf type ↔
      ntohs buffer hProtoAt = ethertypeIp ∧
        buffer (ethhdrSize + protocolAt) = protocolOf type := by
  rw [kind]
  by_cases isIp : ntohs buffer hProtoAt = ethertypeIp
  · rw [if_pos isIp, and_iff_right isIp]
    generalize buffer (ethhdrSize + protocolAt) = protocol
    obtain rfl | rfl | rfl : type = 2 ∨ type = 3 ∨ type = 4 := by omega
    all_goals
      simp only [kindOf, protocolOf]
      repeat' split
      all_goals simp_all <;> decide
  · rw [if_neg isIp]
    refine iff_of_false ?_ fun both => isIp both.1
    obtain rfl | rfl | rfl : type = 2 ∨ type = 3 ∨ type = 4 := by omega
    all_goals split <;> decide

theorem filterByProtocol_arp (buffer : Pointer) :
    filterByProtocol buffer 1 = false ↔ ntohs buffer hProtoAt = ethertypeArp := by
  by_cases arp : ntohs buffer hProtoAt = ethertypeArp <;> simp [filterByProtocol, arp]

/-- The protocol is looked at in any frame that is not ARP. -/
theorem filterByProtocol_protocol {type : Int} (known : 1 ≤ type ∧ type ≤ 4) (ip : type ≠ 1)
    (buffer : Pointer) : filterByProtocol buffer type = false ↔
      ntohs buffer hProtoAt ≠ ethertypeArp ∧
        buffer (ethhdrSize + protocolAt) = protocolOf type := by
  by_cases arp : ntohs buffer hProtoAt = ethertypeArp
  · simp [filterByProtocol, arp, ip]
  · obtain rfl | rfl | rfl : type = 2 ∨ type = 3 ∨ type = 4 := by omega
    all_goals simp [filterByProtocol, arp, protocolOf]

/-- The filter and the dispatcher agree exactly for ARP as the type, for IP and ARP
frames, and for other frames that happen not to have the number of the type in the
place of the protocol. -/
theorem filter_agrees_iff (buffer : Pointer) (bufferLen : Nat) {type : Int}
    (known : 1 ≤ type ∧ type ≤ 4) :
    (filterByProtocol buffer type = false ↔ Increments buffer bufferLen type) ↔
      type = 1 ∨ ntohs buffer hProtoAt = ethertypeIp ∨ ntohs buffer hProtoAt = ethertypeArp ∨
        buffer (ethhdrSize + protocolAt) ≠ protocolOf type := by
  rw [increments_iff known]
  by_cases one : type = 1
  · subst one
    rw [filterByProtocol_arp]
    exact iff_of_true (kind_eq_arp buffer).symm (.inl rfl)
  · rw [filterByProtocol_protocol known one, kind_eq_protocol known one]
    have differ : ethertypeIp ≠ ethertypeArp := by decide
    by_cases ip : ntohs buffer hProtoAt = ethertypeIp
    · simp [ip, differ]
    · by_cases arp : ntohs buffer hProtoAt = ethertypeArp
      · simp [arp, differ.symm]
      · simp [ip, arp, one]

/-- A frame of IPv6 with 1 in the place of the protocol. -/
def ipv6Frame : Pointer := fun place =>
  if place = hProtoAt then 0x86 else if place = hProtoAt + 1 then 0xdd
  else if place = ethhdrSize + protocolAt then 1 else 0

theorem filter_agrees_iff_ipv6 :
    (filterByProtocol ipv6Frame 2 = false ↔ Increments ipv6Frame 60 2) ↔
      (2 : Int) = 1 ∨ ntohs ipv6Frame hProtoAt = ethertypeIp ∨
        ntohs ipv6Frame hProtoAt = ethertypeArp ∨
        ipv6Frame (ethhdrSize + protocolAt) ≠ protocolOf 2 :=
  filter_agrees_iff ipv6Frame 60 (by decide)

/-- The filter takes it for ICMP, and `packet_process` counts it as other. -/
theorem ipv6_taken_for_icmp :
    ¬ ∀ (buffer : Pointer) (bufferLen : Nat), 34 ≤ bufferLen → ∀ type : Int,
      1 ≤ type ∧ type ≤ 4 →
        (filterByProtocol buffer type = false ↔ Increments buffer bufferLen type) := by
  intro agree
  have same := agree ipv6Frame 60 (by decide) 2 (by decide)
  rw [increments_iff (by decide)] at same
  revert same
  decide

end CssLab.Sniffer
