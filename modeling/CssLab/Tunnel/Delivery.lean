import CssLab.Tunnel.Packet

namespace CssLab.Tunnel

open Block

theorem htons_injective {left right : UInt16} (same : htons left = htons right) : left = right := by
  have bound := left.toNat_lt
  have bound' := right.toNat_lt
  have swapped := congrArg UInt16.toNat same
  simp only [htons, UInt16.toNat_ofNat'] at swapped
  apply UInt16.toNat_inj.mp
  omega

theorem short_shortBytes (value : UInt16) :
    UInt16.ofNat ((UInt8.ofNat (value.toNat % 256)).toNat +
      256 * (UInt8.ofNat (value.toNat / 256)).toNat) = value := by
  have bound := value.toNat_lt
  apply UInt16.toNat_inj.mp
  simp only [UInt16.toNat_ofNat', UInt8.toNat_ofNat']
  omega

theorem icmpSum_eq_zero {sum : Nat} {bytes : List UInt8} :
    icmpSum sum bytes = 0 ↔ sum = 0 ∧ ∀ byte ∈ bytes, byte = 0 := by
  have zero (byte : UInt8) : byte = 0 ↔ byte.toNat = 0 := by
    rw [← UInt8.toNat_inj]
    rfl
  induction sum, bytes using icmpSum.induct with
  | case1 sum low high rest ih =>
    rw [icmpSum]
    refine ih.trans ?_
    rw [List.forall_mem_cons, List.forall_mem_cons, zero low, zero high, ← and_assoc, ← and_assoc]
    refine and_congr_left fun _ => ?_
    omega
  | case2 sum odd =>
    rw [icmpSum, List.forall_mem_singleton, zero odd]
    omega
  | case3 sum => simp [icmpSum]

theorem icmpSum_le (sum : Nat) (bytes : List UInt8) :
    2 * icmpSum sum bytes ≤ 2 * sum + (65535 * bytes.length + 65535) := by
  induction sum, bytes using icmpSum.induct with
  | case1 sum low high rest ih =>
    have bound := low.toNat_lt
    have bound' := high.toNat_lt
    rw [icmpSum, List.length_cons, List.length_cons]
    refine Nat.le_trans ih ?_
    omega
  | case2 sum odd =>
    have bound := odd.toNat_lt
    rw [icmpSum, List.length_singleton]
    omega
  | case3 sum => simp [icmpSum]

/-- The checksum is all ones exactly for bytes that are all zero. -/
theorem icmpChecksum_ones {bytes : List UInt8} (few : bytes.length ≤ 65536) :
    icmpChecksum bytes = 65535 ↔ ∀ byte ∈ bytes, byte = 0 := by
  have bound := icmpSum_le 0 bytes
  have zero : icmpSum 0 bytes = 0 ↔ ∀ byte ∈ bytes, byte = 0 := by
    rw [icmpSum_eq_zero]
    simp
  rw [← zero, icmpChecksum]
  generalize icmpSum 0 bytes = sum at bound
  have ones (value : Nat) : ~~~UInt16.ofNat value = 65535 ↔ value % 65536 = 0 := by
    rw [← UInt16.toNat_inj, UInt16.toNat_not, UInt16.toNat_ofNat']
    change 65536 - 1 - value % 65536 = 65535 ↔ _
    omega
  rw [ones]
  have quotient : sum / 65536 ≤ 65535 := by omega
  have remainder : sum % 65536 < 65536 := Nat.mod_lt _ (by decide)
  have parts := Nat.div_add_mod sum 65536
  generalize sum / 65536 = high at *
  generalize sum % 65536 = low at *
  -- the second fold adds a carry of one at most
  rcases Nat.lt_or_ge (high + low) 65536 with small | carry
  · rw [Nat.div_eq_of_lt small]
    omega
  · have one : (high + low) / 65536 = 1 := by omega
    rw [one]
    omega

/-- What the sending loop has in `tnel` when it sends a line that is typed. -/
structure Typed (peer : Peer) (line : Line) (tnel : Block tunnelSize) : Prop where
  data : cstring (tnel.pointer dataAt) = some (line.bytes.take (buffsize - 1))
  names : ∀ place < dataAt, tnel.bytes[place]? = peer.tnel.bytes[place]?

theorem sendRound_line (peer : Peer) (line : Line) (more : List UInt8) :
    ∃ tnel, Typed peer line tnel ∧ sendRound (line.bytes ++ 10 :: more) peer =
      (senddata { peer with tnel }).map fun sent =>
        (some sent.1, (fgets buffsize (line.bytes ++ 10 :: more)).2, sent.2) := by
  have data20 : dataAt = 20 := rfl
  have buff : buffsize = 2048 := rfl
  have whole : tunnelSize = 2068 := rfl
  have stored := fgets_line line.single (buffsize - 1) more
  have nonempty : line.bytes.take (buffsize - 1) ≠ [] := by
    simp [line.nonempty]
  have nonzero : 0 ∉ line.bytes.take (buffsize - 1) :=
    fun member => line.nonzero (List.mem_of_mem_take member)
  have single : 10 ∉ line.bytes.take (buffsize - 1) :=
    fun member => line.single (List.mem_of_mem_take member)
  -- the newline, or the zero after a line that is too long, is what `strcspn` finds
  obtain ⟨stop, rest, stops, shape⟩ : ∃ stop rest, (stop = 0 ∨ stop = 10) ∧
      (line.bytes ++ [10]).take (buffsize - 1) ++ [0] =
        line.bytes.take (buffsize - 1) ++ stop :: rest := by
    by_cases fits : line.bytes.length < buffsize - 1
    · refine ⟨10, [0], Or.inr rfl, ?_⟩
      rw [List.take_of_length_le (by simp; omega), List.take_of_length_le (by omega),
        List.append_assoc]
      rfl
    · exact ⟨0, [], Or.inl rfl, by rw [List.take_append_of_le_length (by omega)]⟩
  generalize string : line.bytes.take (buffsize - 1) = typed at *
  have short : typed.length ≤ buffsize - 1 := by
    rw [← string]
    exact List.length_take_le _ _
  have room : dataAt + ((line.bytes ++ [10]).take (buffsize - 1) ++ [0]).length ≤ tunnelSize := by
    have taken := List.length_take_le (buffsize - 1) (line.bytes ++ [10])
    simp only [List.length_append, List.length_singleton] at taken ⊢
    omega
  obtain ⟨first, written⟩ := peer.tnel.write_some _ _ room
  have cut : strcspn 10 (first.pointer dataAt) = some typed.length := by
    rw [pointer_write written, shape, List.append_assoc, List.cons_append]
    exact strcspn_append nonzero single stops _
  have room' : dataAt + typed.length + [(0 : UInt8)].length ≤ tunnelSize := by
    rw [List.length_singleton]
    omega
  obtain ⟨second, closed⟩ := first.write_some _ _ room'
  have data : cstring (second.pointer dataAt) = some typed := by
    refine cstring_pointer.mpr ⟨nonzero, fun place below => ?_⟩
    rcases Nat.lt_succ_iff_lt_or_eq.mp below with inside | rfl
    · have seen := congrArg (·[place]?) (pointer_write written)
      simp only [pointer, List.getElem?_drop, shape, List.append_assoc] at seen
      rw [get_write_of_lt closed (by omega), seen, List.getElem?_append_left inside,
        List.getElem?_append_left inside]
    · rw [get_write closed, if_pos (by simp)]
      simp
  refine ⟨second, ⟨string ▸ data, ?_⟩, ?_⟩
  · intro place below
    rw [get_write_of_lt closed (by omega), get_write_of_lt written below]
  · have something : (line.bytes ++ [10]).take (buffsize - 1) ≠ [] := by
      simp [line.nonempty]
    have stored' : (fgets buffsize (line.bytes ++ 10 :: more)).1 =
        (line.bytes ++ [10]).take (buffsize - 1) := stored
    simp only [sendRound, stored', if_neg something, written, cut, closed, data,
      Option.bind_eq_bind, Option.bind_some]
    rw [if_neg (fun none => nonempty (List.length_eq_zero_iff.mp none))]
    cases senddata { peer with tnel := second } <;> rfl

/-- A byte of a block after a string was copied to an offset, and what was there before. -/
def layer (offset : Nat) (string : List UInt8) (place : Nat) (before : Option UInt8) :
    Option UInt8 :=
  if offset ≤ place ∧ place < offset + (string.length + 1) then (string ++ [0])[place - offset]?
  else before

/-- The plain text of what `senddata` sends: each string covers what was copied before it. -/
structure Sent (peer : Peer) (own whom typed : List UInt8) (packet : Block buffsize) :
    Prop where
  sname : cstring (peer.tnel.pointer snameAt) = some own
  dname : cstring (peer.tnel.pointer dnameAt) = some whom
  data : cstring (peer.tnel.pointer dataAt) = some typed
  type : packet.bytes[0]? = some icmpEcho
  checksum : readShort packet 2 =
    some (htons (icmpChecksum ((packet.pointer iphdrSize).take icmphdrSize)))
  body : ∀ place, icmphdrSize ≤ place → packet.bytes[place]? =
    layer (icmphdrSize + dataAt) typed place (layer (icmphdrSize + snameAt) own place
      (layer (icmphdrSize + dnameAt) whom place peer.sendbuff.bytes[place]?))

theorem get_copied {block after : Block buffsize}
    (copied : block.write offset (string ++ [0]) = some after) (place : Nat) :
    after.bytes[place]? = layer offset string place block.bytes[place]? := by
  rw [get_write copied, layer, List.length_append, List.length_singleton]

theorem readShort_written {block after : Block buffsize} {value : UInt16}
    (written : block.write offset (shortBytes value) = some after) :
    readShort after offset = some value := by
  have low : after.bytes[offset]? = some (UInt8.ofNat (value.toNat % 256)) := by
    rw [get_write written, if_pos (by simp [shortBytes]), Nat.sub_self]
    rfl
  have high : after.bytes[offset + 1]? = some (UInt8.ofNat (value.toNat / 256)) := by
    rw [get_write written, if_pos (by simp [shortBytes]), Nat.add_sub_cancel_left]
    rfl
  simp only [readShort, low, high, Option.bind_eq_bind, Option.bind_some]
  rw [short_shortBytes]

theorem senddata_spec {peer after : Peer} (sends : senddata peer = some (datagram, after)) :
    ∃ own whom typed packet, Sent peer own whom typed packet ∧
      datagram = (crypt 0 packet).bytes := by
  simp only [senddata, plaintext, strcpy, Option.bind_eq_bind, Option.bind_eq_some_iff,
    Option.some.injEq, Prod.mk.injEq] at sends
  obtain ⟨packet, ⟨first, type, second, ⟨whom, dname, dcopied⟩, third, ⟨own, sname, scopied⟩,
    fourth, ⟨typed, data, copied⟩, summed⟩, rfl, _⟩ := sends
  have sizes : icmphdrSize = 8 ∧ snameAt = 0 ∧ dnameAt = 10 ∧ dataAt = 20 := ⟨rfl, rfl, rfl, rfl⟩
  have rest : (shortBytes (htons (icmpChecksum
      ((fourth.pointer iphdrSize).take icmphdrSize)))).length = 2 := rfl
  refine ⟨own, whom, typed, packet, ⟨sname, dname, data, ?_, ?_, ?_⟩, rfl⟩
  · rw [get_write_of_lt summed (by omega), get_write_of_lt copied (by omega),
      get_write_of_lt scopied (by omega), get_write_of_lt dcopied (by omega), get_write type]
    rfl
  · rw [readShort_written summed, pointer_write_of_le summed (by rw [rest]; decide)]
  · intro place beyond
    rw [get_write_of_le summed (by omega), get_copied copied, get_copied scopied,
      get_copied dcopied, get_write_of_le type (by simp; omega)]

theorem senddata_some {peer : Peer} (dname : cstring (peer.tnel.pointer dnameAt) = some whom)
    (sname : cstring (peer.tnel.pointer snameAt) = some own)
    (data : cstring (peer.tnel.pointer dataAt) = some typed) (short : whom.length < namesize)
    (short' : own.length < namesize) (fits : typed.length < 2000) :
    ∃ sent, senddata peer = some sent := by
  have sizes : icmphdrSize = 8 ∧ snameAt = 0 ∧ dnameAt = 10 ∧ dataAt = 20 ∧ namesize = 10 ∧
    buffsize = 2048 := ⟨rfl, rfl, rfl, rfl, rfl, rfl⟩
  obtain ⟨first, type⟩ := peer.sendbuff.write_some 0 [icmpEcho] (by decide)
  obtain ⟨second, dcopied⟩ := first.write_some (icmphdrSize + dnameAt) (whom ++ [0])
    (by simp; omega)
  obtain ⟨third, scopied⟩ := second.write_some (icmphdrSize + snameAt) (own ++ [0])
    (by simp; omega)
  obtain ⟨fourth, copied⟩ := third.write_some (icmphdrSize + dataAt) (typed ++ [0])
    (by simp; omega)
  obtain ⟨packet, summed⟩ := fourth.write_some 2 (shortBytes (htons (icmpChecksum
    ((fourth.pointer iphdrSize).take icmphdrSize)))) (by decide : 2 + 2 ≤ buffsize)
  refine ⟨((crypt 0 packet).bytes, { peer with sendbuff := crypt 0 packet }), ?_⟩
  simp only [senddata, plaintext, strcpy, type, dname, dcopied, sname, scopied, data, copied,
    summed, Option.bind_eq_bind, Option.bind_some]

theorem get_crypt (offset : Nat) (buffer : Block buffsize) (place : Nat) :
    (crypt offset buffer).bytes[place]? = buffer.bytes[place]?.map fun byte =>
      if offset ≤ place ∧ place < offset + 8 then byte ^^^ key else byte := by
  rw [crypt, List.getElem?_mapIdx]

/-- Behind the IP header the receiver has as much of the plain text as fits. -/
theorem get_received {packet first : Block buffsize} {header : Block iphdrSize}
    {recvbuff : Block buffsize}
    (written : recvbuff.write 0 ((header.bytes ++ (crypt 0 packet).bytes).take buffsize) =
      some first) (place : Nat) (below : place < buffsize - iphdrSize) :
    (crypt iphdrSize first).bytes[iphdrSize + place]? = packet.bytes[place]? := by
  have sizes : iphdrSize = 20 ∧ buffsize = 2048 := ⟨rfl, rfl⟩
  have long : ((header.bytes ++ (crypt 0 packet).bytes).take buffsize).length = buffsize := by
    rw [List.length_take, List.length_append, header.length_bytes, (crypt 0 packet).length_bytes]
    omega
  rw [get_crypt, get_write written, if_pos (by omega), List.getElem?_take_of_lt (by omega),
    List.getElem?_append_right (by rw [header.length_bytes]; omega), header.length_bytes,
    Nat.sub_zero, Nat.add_sub_cancel_left, get_crypt, Option.map_map]
  refine (congrArg (Option.map · _) (funext fun byte => ?_)).trans Option.map_id_apply
  simp only [Function.comp]
  by_cases crypted : place < 8
  · rw [if_pos (by omega), if_pos (by omega), UInt8.xor_assoc,
      UInt8.xor_self, UInt8.xor_zero]
    rfl
  · rw [if_neg (by omega), if_neg (by omega)]
    rfl

/-- What a pointer behind the IP header sees of the plain text. -/
theorem pointer_received {packet first : Block buffsize} {header : Block iphdrSize}
    {recvbuff : Block buffsize}
    (written : recvbuff.write 0 ((header.bytes ++ (crypt 0 packet).bytes).take buffsize) =
      some first) (offset : Nat) :
    (crypt iphdrSize first).pointer (iphdrSize + offset) =
      (packet.pointer offset).take (buffsize - iphdrSize - offset) := by
  have sizes : iphdrSize = 20 ∧ buffsize = 2048 := ⟨rfl, rfl⟩
  apply List.ext_getElem?
  intro place
  rw [pointer, pointer, List.getElem?_drop, List.getElem?_take, List.getElem?_drop, Nat.add_assoc]
  by_cases below : place < buffsize - iphdrSize - offset
  · rw [if_pos below, get_received written _ (by omega)]
  · rw [if_neg below, List.getElem?_eq_none (by rw [Block.length_bytes]; omega)]

/-- What it takes for a packet to be printed. -/
structure Accepted (peer : Peer) (packet : Block buffsize) (sname data : List UInt8) : Prop where
  dname : strcmp ((packet.pointer (icmphdrSize + dnameAt)).take
    (buffsize - iphdrSize - (icmphdrSize + dnameAt))) (peer.tnel.pointer snameAt) = some true
  checksum : icmpChecksum ((peer.sendbuff.pointer iphdrSize).take icmphdrSize) =
    icmpChecksum ((packet.pointer iphdrSize).take icmphdrSize)
  sname : cstring ((packet.pointer (icmphdrSize + snameAt)).take
    (buffsize - iphdrSize - (icmphdrSize + snameAt))) = some sname
  data : cstring ((packet.pointer (icmphdrSize + dataAt)).take
    (buffsize - iphdrSize - (icmphdrSize + dataAt))) = some data

theorem receiveRound_sent {sender peer : Peer} {packet : Block buffsize}
    (sent : Sent sender own whom typed packet) (header : Block iphdrSize)
    (sname data : List UInt8) :
    (∃ after, receiveRound (header.bytes ++ (crypt 0 packet).bytes) peer =
      some (some (sname, data), after)) ↔ Accepted peer packet sname data := by
  have sizes : iphdrSize = 20 ∧ icmphdrSize = 8 ∧ buffsize = 2048 ∧ namesize = 10 :=
    ⟨rfl, rfl, rfl, rfl⟩
  have fits : 0 + ((header.bytes ++ (crypt 0 packet).bytes).take buffsize).length ≤ buffsize := by
    rw [Nat.zero_add]
    exact List.length_take_le _ _
  obtain ⟨first, written⟩ := peer.recvbuff.write_some _ _ fits
  have room : iphdrSize + 2 + [(0 : UInt8), 0].length ≤ buffsize := by decide
  obtain ⟨second, cleared⟩ := (crypt iphdrSize first).write_some _ _ room
  have checksum : readShort (crypt iphdrSize first) (iphdrSize + 2) =
      some (htons (icmpChecksum ((packet.pointer iphdrSize).take icmphdrSize))) := by
    rw [← sent.checksum, readShort, readShort, Nat.add_assoc, get_received written _ (by omega),
      get_received written _ (by omega)]
  have type : second.bytes[iphdrSize]? = some icmpEcho := by
    rw [get_write_of_lt cleared (by omega), ← Nat.add_zero iphdrSize,
      get_received written 0 (by omega), sent.type]
  have string (offset : Nat) (beyond : icmphdrSize ≤ offset) :
      second.pointer (iphdrSize + offset) =
        (packet.pointer offset).take (buffsize - iphdrSize - offset) := by
    rw [pointer_write_of_le cleared (by simp; omega), pointer_received written]
  simp only [receiveRound, filter, written, checksum, cleared, type, Option.bind_eq_bind,
    Option.bind_some, ne_eq, not_true, if_false]
  rw [Nat.add_assoc, string _ (by omega)]
  constructor
  · rintro ⟨after, prints⟩
    cases dname : strcmp ((packet.pointer (icmphdrSize + dnameAt)).take
      (buffsize - iphdrSize - (icmphdrSize + dnameAt))) (peer.tnel.pointer snameAt) with
    | none => simp [dname] at prints
    | some same =>
      by_cases sums : icmpChecksum ((peer.sendbuff.pointer iphdrSize).take icmphdrSize) =
        icmpChecksum ((packet.pointer iphdrSize).take icmphdrSize)
      · cases same with
        | false => simp [dname] at prints
        | true =>
          simp only [dname, sums, Option.bind_some, Bool.true_eq_false, if_false, decide_true,
            if_true, Nat.add_assoc iphdrSize, Option.bind_eq_some_iff, Option.some.injEq,
            Prod.mk.injEq] at prints
          obtain ⟨_, own, _, line, ⟨rfl, rfl⟩, _⟩ := prints
          rw [string _ (by omega)] at own line
          exact ⟨dname, sums, own, line⟩
      · have differ := mt (@htons_injective _ _) sums
        cases same <;> simp [dname, differ] at prints
  · intro accepted
    have own := accepted.sname
    have line := accepted.data
    rw [← string _ (by omega), ← Nat.add_assoc] at own line
    refine ⟨{ peer with recvbuff := zero buffsize }, ?_⟩
    simp only [accepted.dname, accepted.checksum, own, line, Option.bind_some, Bool.true_eq_false,
      if_false, decide_true, if_true]

/-- A process after `init_icmp_packet`. -/
structure Started (malloced : Block tunnelSize) (myname whoname : List UInt8) (peer : Peer) :
    Prop where
  sendbuff : ∀ place, icmphdrSize ≤ place → place < buffsize →
    peer.sendbuff.bytes[place]? = some 0
  sname : ∀ place < namesize,
    peer.tnel.bytes[place]? = (myname ++ malloced.pointer myname.length)[place]?
  dname : ∀ place < namesize, peer.tnel.bytes[dnameAt + place]? =
    (whoname ++ malloced.pointer (dnameAt + whoname.length))[place]?

/-- A string in front of what a block has behind it is what was written there. -/
theorem get_name {block after : Block size} {name : List UInt8}
    (written : block.write offset name = some after) (place : Nat) :
    after.bytes[offset + place]? = (name ++ block.pointer (offset + name.length))[place]? := by
  rw [← pointer_write written, pointer, List.getElem?_drop]

theorem initIcmpPacket_started (malloced : Block tunnelSize) (myname whoname : Name) :
    ∃ peer, initIcmpPacket malloced myname.bytes whoname.bytes = some peer ∧
      Started malloced myname.bytes whoname.bytes peer := by
  have sizes : tunnelSize = 2068 ∧ buffsize = 2048 ∧ namesize = 10 ∧ dnameAt = 10 ∧ snameAt = 0 ∧
    icmphdrSize = 8 := ⟨rfl, rfl, rfl, rfl, rfl, rfl⟩
  have short := myname.short
  have short' := whoname.short
  obtain ⟨first, named⟩ := malloced.write_some snameAt myname.bytes (by omega)
  obtain ⟨tnel, named'⟩ := first.write_some dnameAt whoname.bytes (by omega)
  obtain ⟨code, coded⟩ := (zero buffsize).write_some 1 [0] (by decide)
  obtain ⟨numbered, numbers⟩ := code.write_some 4 (shortBytes (htons 1))
    (by decide)
  obtain ⟨sendbuff, ordered⟩ := numbered.write_some 6 (shortBytes (htons 1))
    (by decide)
  refine ⟨⟨sendbuff, zero buffsize, tnel⟩, ?_, ?_, ?_, ?_⟩
  · simp only [initIcmpPacket, named, named', coded, numbers, ordered, Option.bind_eq_bind,
      Option.bind_some]
  · intro place beyond below
    have two : (shortBytes (htons 1)).length = 2 := rfl
    have one : [(0 : UInt8)].length = 1 := rfl
    rw [get_write_of_le ordered (by omega), get_write_of_le numbers (by omega),
      get_write_of_le coded (by omega), get_zero, if_pos below]
  · intro place below
    have seen := get_name named place
    rw [show snameAt = 0 from rfl, Nat.zero_add, Nat.zero_add] at seen
    rw [get_write_of_lt named' (by omega), seen]
  · intro place below
    rw [get_name named', pointer_write_of_le named (by omega)]

theorem layer_of_lt {offset place : Nat} (before : place < offset) (string : List UInt8)
    (byte : Option UInt8) : layer offset string place byte = byte :=
  if_neg (by omega)

theorem layer_of_le {offset place : Nat} {string : List UInt8}
    (behind : offset + string.length < place) (byte : Option UInt8) :
    layer offset string place byte = byte :=
  if_neg (by omega)

theorem layer_add {place : Nat} {string : List UInt8} (inside : place < string.length + 1)
    (offset : Nat) (byte : Option UInt8) :
    layer offset string (offset + place) byte = (string ++ [0])[place]? := by
  rw [layer, if_pos (by omega), Nat.add_sub_cancel_left]

/-- A copied string starts with another exactly when it is the other. -/
theorem string_unique {own string : List UInt8} (nonzero : 0 ∉ own)
    (begins : ∀ place < string.length + 1, place < own.length + 1 →
      (own ++ [0])[place]? = (string ++ [0])[place]?) (short : string.length ≤ own.length) :
    own = string := by
  have same : own.length = string.length := by
    by_contra differ
    have last := begins string.length (by omega) (by omega)
    rw [List.getElem?_append_left (by omega), List.getElem?_concat_length] at last
    exact nonzero (List.mem_of_getElem? last)
  apply List.ext_getElem?
  intro place
  by_cases inside : place < string.length
  · have equal := begins place (by omega) (by omega)
    rwa [List.getElem?_append_left (by omega), List.getElem?_append_left inside] at equal
  · rw [List.getElem?_eq_none (by omega), List.getElem?_eq_none (by omega)]

section Names

variable {own whom typed : List UInt8} {peer : Peer} {packet : Block buffsize}

theorem Sent.get_sname (sent : Sent peer own whom typed packet)
    (blank : peer.sendbuff.bytes[icmphdrSize + snameAt + place]? = some 0)
    (below : place < namesize) :
    packet.bytes[icmphdrSize + snameAt + place]? =
      layer (icmphdrSize + snameAt) own (icmphdrSize + snameAt + place) (some 0) := by
  have sizes : icmphdrSize = 8 ∧ snameAt = 0 ∧ dnameAt = 10 ∧ dataAt = 20 ∧ namesize = 10 :=
    ⟨rfl, rfl, rfl, rfl, rfl⟩
  rw [sent.body _ (by omega), layer_of_lt (by omega), layer_of_lt (by omega) whom, blank]

theorem Sent.get_dname (sent : Sent peer own whom typed packet)
    (blank : peer.sendbuff.bytes[icmphdrSize + dnameAt + place]? = some 0)
    (short : own.length < namesize) (below : place < namesize) :
    packet.bytes[icmphdrSize + dnameAt + place]? =
      layer (icmphdrSize + dnameAt) whom (icmphdrSize + dnameAt + place) (some 0) := by
  have sizes : icmphdrSize = 8 ∧ snameAt = 0 ∧ dnameAt = 10 ∧ dataAt = 20 ∧ namesize = 10 :=
    ⟨rfl, rfl, rfl, rfl, rfl⟩
  rw [sent.body _ (by omega), layer_of_lt (by omega), layer_of_le (by omega), blank]

theorem Sent.cstring_data (sent : Sent peer own whom typed packet) :
    cstring (packet.pointer (icmphdrSize + dataAt)) = some typed := by
  refine cstring_pointer.mpr ⟨(cstring_pointer.mp sent.data).1, fun place inside => ?_⟩
  rw [sent.body _ (by omega), layer_add inside]

theorem Sent.cstring_sname (sent : Sent peer own whom typed packet)
    (blank : ∀ place, icmphdrSize ≤ place → place < buffsize →
      peer.sendbuff.bytes[place]? = some 0) (short : own.length < namesize) :
    cstring (packet.pointer (icmphdrSize + snameAt)) = some own := by
  have sizes : icmphdrSize = 8 ∧ snameAt = 0 ∧ namesize = 10 ∧ buffsize = 2048 :=
    ⟨rfl, rfl, rfl, rfl⟩
  refine cstring_pointer.mpr ⟨(cstring_pointer.mp sent.sname).1, fun place inside => ?_⟩
  rw [sent.get_sname (blank _ (by omega) (by omega)) (by omega), layer_add inside]

theorem Sent.cstring_dname (sent : Sent peer own whom typed packet)
    (blank : ∀ place, icmphdrSize ≤ place → place < buffsize →
      peer.sendbuff.bytes[place]? = some 0) (short : own.length < namesize)
    (short' : whom.length < namesize) :
    cstring (packet.pointer (icmphdrSize + dnameAt)) = some whom := by
  have sizes : icmphdrSize = 8 ∧ dnameAt = 10 ∧ namesize = 10 ∧ buffsize = 2048 :=
    ⟨rfl, rfl, rfl, rfl⟩
  refine cstring_pointer.mpr ⟨(cstring_pointer.mp sent.dname).1, fun place inside => ?_⟩
  rw [sent.get_dname (blank _ (by omega) (by omega)) short (by omega), layer_add inside]

/-- The bytes under the checksum are the end of `dname`, from its third byte on. -/
theorem Sent.summed_zero (sent : Sent peer own whom typed packet)
    (blank : ∀ place, icmphdrSize ≤ place → place < buffsize →
      peer.sendbuff.bytes[place]? = some 0) (short : own.length < namesize) :
    (∀ byte ∈ (packet.pointer iphdrSize).take icmphdrSize, byte = 0) ↔ whom.length ≤ 2 := by
  have sizes : icmphdrSize = 8 ∧ dnameAt = 10 ∧ namesize = 10 ∧ buffsize = 2048 ∧
    iphdrSize = 20 := ⟨rfl, rfl, rfl, rfl, rfl⟩
  have seen {place : Nat} (below : place < icmphdrSize) : packet.bytes[iphdrSize + place]? =
      layer (icmphdrSize + dnameAt) whom (icmphdrSize + dnameAt + (2 + place)) (some 0) := by
    rw [← sent.get_dname (blank _ (by omega) (by omega)) short (by omega)]
    congr 1
    omega
  constructor
  · intro zeros
    by_contra long
    have inside : 2 < whom.length := by omega
    have third := @seen 0 (by omega)
    rw [layer_add (by omega), List.getElem?_append_left (by omega), Nat.add_zero,
      List.getElem?_eq_getElem inside] at third
    have zero := zeros _ (mem_window.mpr ⟨0, by omega, third⟩)
    exact (cstring_pointer.mp sent.dname).1 (zero ▸ List.getElem_mem inside)
  · intro few byte member
    obtain ⟨place, below, found⟩ := mem_window.mp member
    rw [seen below] at found
    by_cases ends : 2 + place < whom.length + 1
    · have last : 2 + place = whom.length := by omega
      rw [layer_add ends, last, List.getElem?_concat_length] at found
      exact (Option.some.inj found).symm
    · rw [layer_of_le (by omega)] at found
      exact (Option.some.inj found).symm

end Names

/-- The receiver takes the checksum of a buffer it never fills. -/
theorem Started.checksum {malloced : Block tunnelSize} {peer : Peer}
    (started : Started malloced myname whoname peer) :
    icmpChecksum ((peer.sendbuff.pointer iphdrSize).take icmphdrSize) = 65535 := by
  have sizes : icmphdrSize = 8 ∧ buffsize = 2048 ∧ iphdrSize = 20 := ⟨rfl, rfl, rfl⟩
  refine (icmpChecksum_ones (by rw [List.length_take]; omega)).mpr fun byte member => ?_
  obtain ⟨place, below, found⟩ := mem_window.mp member
  rw [started.sendbuff _ (by omega) (by omega)] at found
  exact (Option.some.inj found).symm

/-- What it takes for the first line to come out as it went in. -/
structure Clear (senderMemory receiverMemory : Block tunnelSize) (sender receiver : Name)
    (line : Line) : Prop where
  ended : senderMemory.bytes[sender.bytes.length]? = some 0
  named : ∃ name, name.length ≤ 2 ∧
    cstring (receiver.bytes ++ senderMemory.pointer (dnameAt + receiver.bytes.length)) =
      some name ∧
    cstring (receiver.bytes ++ receiverMemory.pointer receiver.bytes.length) = some name
  short : line.bytes.length < 2000

/-- A name in `tnel` is what follows from the bytes that were copied. -/
theorem cstring_name {tnel : Block tunnelSize} {bytes string : List UInt8} {offset : Nat}
    (copied : ∀ place < namesize, tnel.bytes[offset + place]? = bytes[place]?)
    (short : string.length < namesize) :
    cstring (tnel.pointer offset) = some string ↔ cstring bytes = some string := by
  refine cstring_congr fun place below => ?_
  rw [pointer, List.getElem?_drop, copied place (by omega)]

theorem Sent.own_eq {peer : Peer} {packet : Block buffsize} {sender : Name}
    (sent : Sent peer own whom typed packet)
    (blank : ∀ place, icmphdrSize ≤ place → place < buffsize →
      peer.sendbuff.bytes[place]? = some 0)
    (copied : ∀ place < namesize,
      peer.tnel.bytes[place]? = (sender.bytes ++ more)[place]?)
    (seen : cstring (packet.pointer (icmphdrSize + snameAt)) = some sender.bytes) :
    own = sender.bytes := by
  have sizes : icmphdrSize = 8 ∧ snameAt = 0 ∧ namesize = 10 ∧ buffsize = 2048 :=
    ⟨rfl, rfl, rfl, rfl⟩
  have limit := sender.short
  have stored := cstring_pointer.mp sent.sname
  have printed := cstring_pointer.mp seen
  have long : sender.bytes.length ≤ own.length := by
    by_contra longer
    have last := stored.2 own.length (by omega)
    rw [List.getElem?_concat_length, Nat.zero_add, copied _ (by omega),
      List.getElem?_append_left (by omega)] at last
    exact sender.nonzero (List.mem_of_getElem? last)
  refine string_unique stored.1 (fun place below inside => ?_) long
  rw [← printed.2 place below, sent.get_sname (blank _ (by omega) (by omega)) (by omega),
    layer_add inside]

theorem exchange_eq {senderMemory receiverMemory : Block tunnelSize}
    {sender receiver whom : Name} {line : Line} {a b : Peer}
    (ready : initIcmpPacket senderMemory sender.bytes receiver.bytes = some a)
    (ready' : initIcmpPacket receiverMemory receiver.bytes whom.bytes = some b)
    (sends : sendRound (line.bytes ++ [10]) a =
      (senddata { a with tnel }).map fun sent => (some sent.1, left, sent.2))
    (header : Block iphdrSize) :
    exchange senderMemory receiverMemory sender receiver whom line header =
      (senddata { a with tnel }).bind fun sent =>
        (receiveRound (header.bytes ++ sent.1) b).map Prod.fst := by
  simp only [exchange, ready, ready', sends, Option.bind_eq_bind, Option.bind_some]
  cases senddata { a with tnel } with
  | none => rfl
  | some sent =>
    simp only [Option.map_some, Option.bind_some]
    cases receiveRound (header.bytes ++ sent.1) b <;> rfl

section Ends

variable {senderMemory receiverMemory : Block tunnelSize} {sender receiver : Name} {line : Line}

theorem Typed.cstring_names {peer : Peer} {tnel : Block tunnelSize} (stored : Typed peer line tnel)
    (started : Started senderMemory sender.bytes receiver.bytes peer) (string : List UInt8)
    (short : string.length < namesize) :
    (cstring (tnel.pointer snameAt) = some string ↔
      cstring (sender.bytes ++ senderMemory.pointer sender.bytes.length) = some string) ∧
    (cstring (tnel.pointer dnameAt) = some string ↔
      cstring (receiver.bytes ++ senderMemory.pointer (dnameAt + receiver.bytes.length)) =
        some string) := by
  have sizes : dnameAt = 10 ∧ dataAt = 20 ∧ namesize = 10 := ⟨rfl, rfl, rfl⟩
  constructor
  · refine cstring_name (fun place below => ?_) short
    rw [Nat.zero_add, stored.names _ (by omega), started.sname _ below]
  · refine cstring_name (fun place below => ?_) short
    rw [stored.names _ (by omega), started.dname _ below]

theorem Started.cstring_sname {peer : Peer} {whom string : List UInt8}
    (started : Started receiverMemory receiver.bytes whom peer) (short : string.length < namesize) :
    cstring (peer.tnel.pointer snameAt) = some string ↔
      cstring (receiver.bytes ++ receiverMemory.pointer receiver.bytes.length) = some string := by
  refine cstring_name (fun place below => ?_) short
  rw [Nat.zero_add, started.sname _ below]

/-- A name is the string in `tnel` when the byte after it was zero. -/
theorem cstring_own :
    cstring (sender.bytes ++ senderMemory.pointer sender.bytes.length) = some sender.bytes ↔
      senderMemory.bytes[sender.bytes.length]? = some 0 := by
  have within : sender.bytes.length < senderMemory.bytes.length := by
    rw [senderMemory.length_bytes]
    exact Nat.lt_trans sender.short (by decide)
  rw [cstring_append sender.nonzero, pointer, List.drop_eq_getElem_cons within,
    List.getElem?_eq_getElem within, cstring]
  by_cases zero : senderMemory.bytes[sender.bytes.length] = 0
  · simp [zero]
  · simp [zero]

theorem clear_of_exchange {whom : Name} {header : Block iphdrSize}
    (prints : exchange senderMemory receiverMemory sender receiver whom line header =
      some (some (sender.bytes, line.bytes))) :
    Clear senderMemory receiverMemory sender receiver line := by
  have sizes : icmphdrSize = 8 ∧ dnameAt = 10 ∧ dataAt = 20 ∧ namesize = 10 ∧ buffsize = 2048 ∧
    iphdrSize = 20 ∧ tunnelSize = 2068 := ⟨rfl, rfl, rfl, rfl, rfl, rfl, rfl⟩
  obtain ⟨a, ready, started⟩ := initIcmpPacket_started senderMemory sender receiver
  obtain ⟨b, ready', started'⟩ := initIcmpPacket_started receiverMemory receiver whom
  obtain ⟨tnel, stored, sends⟩ := sendRound_line a line []
  have limit := sender.short
  rw [exchange_eq ready ready' sends header] at prints
  obtain ⟨⟨datagram, _⟩, sending, received⟩ := Option.bind_eq_some_iff.mp prints
  obtain ⟨⟨_, after⟩, round, rfl⟩ := Option.map_eq_some_iff.mp received
  obtain ⟨own, name, typed, packet, sent, rfl⟩ := senddata_spec sending
  have accepted := (receiveRound_sent sent header _ _).mp ⟨after, round⟩
  have copied : ∀ place < namesize, tnel.bytes[place]? =
      (sender.bytes ++ senderMemory.pointer sender.bytes.length)[place]? := by
    intro place below
    rw [stored.names _ (by omega), started.sname _ below]
  obtain rfl := sent.own_eq started.sendbuff copied (cstring_take.mp accepted.sname).1
  have few : name.length ≤ 2 := by
    rw [← sent.summed_zero started.sendbuff limit,
      ← icmpChecksum_ones (by rw [List.length_take]; omega), ← accepted.checksum,
      started'.checksum]
  -- the name that arrives is the one the sender has
  obtain ⟨string, arrived, known⟩ := strcmp_eq_true.mp accepted.dname
  have same := (cstring_take.mp arrived).1
  rw [sent.cstring_dname started.sendbuff limit (by omega)] at same
  obtain rfl := Option.some.inj same
  have short : name.length < namesize := by omega
  refine ⟨?_, ⟨name, few, ?_, ?_⟩, (cstring_take.mp accepted.data).2⟩
  · exact cstring_own.mp ((stored.cstring_names started _ limit).1.mp sent.sname)
  · exact (stored.cstring_names started _ short).2.mp sent.dname
  · exact (started'.cstring_sname short).mp known

theorem exchange_of_clear (clear : Clear senderMemory receiverMemory sender receiver line)
    (whom : Name) (header : Block iphdrSize) :
    exchange senderMemory receiverMemory sender receiver whom line header =
      some (some (sender.bytes, line.bytes)) := by
  have sizes : icmphdrSize = 8 ∧ dnameAt = 10 ∧ dataAt = 20 ∧ namesize = 10 ∧ buffsize = 2048 ∧
    iphdrSize = 20 ∧ tunnelSize = 2068 ∧ snameAt = 0 := ⟨rfl, rfl, rfl, rfl, rfl, rfl, rfl, rfl⟩
  obtain ⟨ended, ⟨name, few, dnamed, known⟩, fits⟩ := clear
  obtain ⟨a, ready, started⟩ := initIcmpPacket_started senderMemory sender receiver
  obtain ⟨b, ready', started'⟩ := initIcmpPacket_started receiverMemory receiver whom
  obtain ⟨tnel, stored, sends⟩ := sendRound_line a line []
  have limit := sender.short
  have short : name.length < namesize := by omega
  have sname : cstring (tnel.pointer snameAt) = some sender.bytes :=
    (stored.cstring_names started _ limit).1.mpr (cstring_own.mpr ended)
  have dname : cstring (tnel.pointer dnameAt) = some name :=
    (stored.cstring_names started _ short).2.mpr dnamed
  have data := stored.data
  rw [List.take_of_length_le (by omega)] at data
  obtain ⟨⟨datagram, _⟩, sending⟩ := @senddata_some _ _ _ { a with tnel } dname sname data short
    limit fits
  obtain ⟨own, whom', typed, packet, sent, rfl⟩ := senddata_spec sending
  obtain rfl := Option.some.inj (sname.symm.trans sent.sname)
  obtain rfl := Option.some.inj (dname.symm.trans sent.dname)
  obtain rfl := Option.some.inj (data.symm.trans sent.data)
  have checksum : icmpChecksum ((packet.pointer iphdrSize).take icmphdrSize) = 65535 :=
    (icmpChecksum_ones (by rw [List.length_take]; omega)).mpr
      ((sent.summed_zero started.sendbuff limit).mpr few)
  have accepted : Accepted b packet sender.bytes line.bytes := by
    refine ⟨strcmp_eq_true.mpr ⟨name, ?_, ?_⟩, started'.checksum.trans checksum.symm, ?_, ?_⟩
    · exact cstring_take.mpr ⟨sent.cstring_dname started.sendbuff limit short, by omega⟩
    · exact (started'.cstring_sname short).mpr known
    · exact cstring_take.mpr ⟨sent.cstring_sname started.sendbuff limit, by omega⟩
    · exact cstring_take.mpr ⟨sent.cstring_data, by omega⟩
  obtain ⟨after, round⟩ := (receiveRound_sent sent header _ _).mpr accepted
  rw [exchange_eq ready ready' sends header, sending, Option.bind_some, round]
  rfl

end Ends

/-- The receiver prints the sender's name and the line exactly when they come out clear. -/
theorem delivered_iff (senderMemory receiverMemory : Block tunnelSize)
    (sender receiver whom : Name) (line : Line) (header : Block iphdrSize) :
    exchange senderMemory receiverMemory sender receiver whom line header =
        some (some (sender.bytes, line.bytes)) ↔
      Clear senderMemory receiverMemory sender receiver line :=
  ⟨clear_of_exchange, fun clear => exchange_of_clear clear whom header⟩

/-- `al` types `hi` to `bob`, in memory that was zero: the checksum that `bob` takes
of his own buffer is not the one that was sent. -/
theorem lost_hi :
    exchange (Block.zero _) (Block.zero _) ⟨[97, 108], by decide, by decide⟩
        ⟨[98, 111, 98], by decide, by decide⟩ ⟨[97, 108], by decide, by decide⟩
        ⟨[104, 105], by decide, by decide, by decide⟩ (Block.zero _) ≠
      some (some ([97, 108], [104, 105])) := by
  intro prints
  obtain ⟨name, few, named, _⟩ := (clear_of_exchange prints).named
  rw [cstring_append (by decide)] at named
  obtain ⟨rest, _, rfl⟩ := Option.map_eq_some_iff.mp named
  simp at few

end CssLab.Tunnel
