import CssLab.Tunnel.Delivery

namespace CssLab.Tunnel

open Block

theorem senddata_eq (peer : Peer) : senddata peer = (plaintext peer).map fun packet =>
    ((crypt 0 packet).bytes, { peer with sendbuff := crypt 0 packet }) :=
  Option.map_eq_bind.symm

/-- Every byte of what is sent is the one of the plain text, encrypted. -/
def Encrypted (plain : Block buffsize) (datagram : List UInt8) : Prop :=
  datagram = plain.bytes.map (· ^^^ key)

theorem get_crypt_of_le {place : Nat} (behind : 8 ≤ place) (buffer : Block buffsize) :
    (crypt 0 buffer).bytes[place]? = buffer.bytes[place]? := by
  rw [get_crypt]
  refine (congrArg (Option.map · _) (funext fun byte => ?_)).trans Option.map_id_apply
  rw [if_neg (by omega)]
  rfl

theorem xor_key_ne (byte : UInt8) : byte ^^^ key ≠ byte := by
  intro same
  have zero : key = 0 := by
    rw [← UInt8.zero_xor (a := key), ← UInt8.xor_self (a := byte), UInt8.xor_assoc, same,
      UInt8.xor_self]
  exact absurd zero (by decide)

theorem crypt_not_encrypted (plain : Block buffsize) :
    ¬Encrypted plain (crypt 0 plain).bytes := by
  intro encrypted
  have inside : 8 < plain.bytes.length := by
    rw [plain.length_bytes]
    decide
  have ninth := get_crypt_of_le (Nat.le_refl 8) plain
  rw [encrypted, List.getElem?_map, List.getElem?_eq_getElem inside] at ninth
  exact xor_key_ne _ (Option.some.inj ninth)

theorem plaintext_some {peer : Peer} (dname : cstring (peer.tnel.pointer dnameAt) = some whom)
    (sname : cstring (peer.tnel.pointer snameAt) = some own)
    (data : cstring (peer.tnel.pointer dataAt) = some typed) (short : whom.length < namesize)
    (short' : own.length < namesize) (fits : typed.length < 2000) :
    ∃ packet, plaintext peer = some packet := by
  obtain ⟨sent, sends⟩ := senddata_some dname sname data short short' fits
  rw [senddata_eq] at sends
  obtain ⟨packet, reached, -⟩ := Option.map_eq_some_iff.mp sends
  exact ⟨packet, reached⟩

/-- `al`, who typed `hi` to `bob`. -/
def alTyped : Peer where
  sendbuff := .zero _
  recvbuff := .zero _
  tnel := ⟨[97, 108, 0, 0, 0, 0, 0, 0, 0, 0, 98, 111, 98, 0, 0, 0, 0, 0, 0, 0, 104, 105] ++
    List.replicate 2046 0, by rw [List.length_append, List.length_replicate]; rfl⟩

theorem alTyped_plaintext : ∃ packet, plaintext alTyped = some packet := by
  have dname : cstring (alTyped.tnel.pointer dnameAt) = some [98, 111, 98] := rfl
  have sname : cstring (alTyped.tnel.pointer snameAt) = some [97, 108] := rfl
  have data : cstring (alTyped.tnel.pointer dataAt) = some [104, 105] := rfl
  exact plaintext_some dname sname data (by decide) (by decide) (by decide)

/-- Whatever `sendbuff` is when `encrypt` is called, `sendto` gets it with most of it in clear. -/
theorem senddata_not_encrypted {peer : Peer} {plain : Block buffsize}
    (reached : plaintext peer = some plain) :
    ∃ datagram after, senddata peer = some (datagram, after) ∧ ¬Encrypted plain datagram := by
  rw [senddata_eq, reached]
  exact ⟨_, _, rfl, crypt_not_encrypted plain⟩

theorem senddata_not_encrypted_hi : ∃ plain, plaintext alTyped = some plain ∧
    ∃ datagram after, senddata alTyped = some (datagram, after) ∧ ¬Encrypted plain datagram := by
  obtain ⟨plain, reached⟩ := alTyped_plaintext
  exact ⟨plain, reached, senddata_not_encrypted reached⟩

/-- Of what `al` sends only the header is encrypted. -/
theorem hi_in_clear : ¬ ∀ peer plain, plaintext peer = some plain →
    ∃ datagram after, senddata peer = some (datagram, after) ∧ Encrypted plain datagram := by
  intro always
  obtain ⟨plain, reached⟩ := alTyped_plaintext
  obtain ⟨datagram, after, sends, encrypted⟩ := always alTyped plain reached
  rw [senddata_eq, reached] at sends
  cases sends
  exact crypt_not_encrypted plain encrypted

/-- The sending loop of `main` for as many rounds: the datagrams it sends. -/
def sendLoop : Nat → List UInt8 → Peer → Option (List (List UInt8) × List UInt8 × Peer)
  | 0, stdin, peer => some ([], stdin, peer)
  | rounds + 1, stdin, peer => do
    let (sent, left, peer) ← sendRound stdin peer
    let (later, left, peer) ← sendLoop rounds left peer
    some (sent.toList ++ later, left, peer)

/-- What a process sends in its first rounds, from `init_icmp_packet` on. -/
def session (malloced : Block tunnelSize) (myname whoname : List UInt8) (rounds : Nat)
    (stdin : List UInt8) : Option (List (List UInt8)) := do
  let peer ← initIcmpPacket malloced myname whoname
  let (datagrams, _) ← sendLoop rounds stdin peer
  some datagrams

/-- An echo request with code 0, identifier 1 and sequence number 1, apart from its checksum. -/
structure EchoHeader (packet : Block buffsize) : Prop where
  type : packet.bytes[0]? = some icmpEcho
  code : packet.bytes[1]? = some 0
  id : packet.bytes[4]? = some 0 ∧ packet.bytes[5]? = some 1
  sequence : packet.bytes[6]? = some 0 ∧ packet.bytes[7]? = some 1

/-- The bytes of the header that `senddata` never writes: the code, and the identifier
and the sequence number. -/
def Unwritten (place : Nat) : Prop := place = 1 ∨ 4 ≤ place ∧ place < 8

/-- The header as `init_icmp_packet` leaves it, encrypted as often as `senddata` was called. -/
def Flipped (times : Nat) (sendbuff : Block buffsize) : Prop :=
  ∀ place, Unwritten place → sendbuff.bytes[place]? =
    some ([0, 0, 0, 0, 0, 1, 0, 1].getD place 0 ^^^ if times % 2 = 0 then 0 else key)

theorem initIcmpPacket_flipped
    (ready : initIcmpPacket malloced myname whoname = some peer) : Flipped 0 peer.sendbuff := by
  simp only [initIcmpPacket, Option.bind_eq_bind, Option.bind_eq_some_iff, Option.some.injEq]
    at ready
  obtain ⟨_, _, _, _, first, code, second, id, third, sequence, rfl⟩ := ready
  intro place unwritten
  have two : (shortBytes (htons 1)).length = 2 := rfl
  rw [get_write sequence, get_write id, get_write code, get_zero]
  obtain rfl | rfl | rfl | rfl | rfl :
      place = 1 ∨ place = 4 ∨ place = 5 ∨ place = 6 ∨ place = 7 := by
    unfold Unwritten at unwritten
    omega
  all_goals rfl

/-- The plain text of each datagram is an echo request with the header there was before. -/
theorem plaintext_kept {packet : Block buffsize} (reached : plaintext peer = some packet) :
    packet.bytes[0]? = some icmpEcho ∧
      ∀ place, Unwritten place → packet.bytes[place]? = peer.sendbuff.bytes[place]? := by
  simp only [plaintext, strcpy, Option.bind_eq_bind, Option.bind_eq_some_iff] at reached
  obtain ⟨first, type, second, ⟨whom, -, dcopied⟩, third, ⟨own, -, scopied⟩, fourth,
    ⟨typed, -, copied⟩, summed⟩ := reached
  have sizes : icmphdrSize = 8 ∧ snameAt = 0 ∧ dnameAt = 10 ∧ dataAt = 20 := ⟨rfl, rfl, rfl, rfl⟩
  have two : (shortBytes (htons (icmpChecksum
      ((fourth.pointer iphdrSize).take icmphdrSize)))).length = 2 := rfl
  have one : [icmpEcho].length = 1 := rfl
  have copies (place : Nat) (header : place < 8) (apart : place < 2 ∨ 4 ≤ place) :
      packet.bytes[place]? = first.bytes[place]? := by
    rw [get_write summed, if_neg (by omega), get_write_of_lt copied (by omega),
      get_write_of_lt scopied (by omega), get_write_of_lt dcopied (by omega)]
  constructor
  · rw [copies 0 (by decide) (by decide), get_write type]
    rfl
  · intro place unwritten
    unfold Unwritten at unwritten
    rw [copies place (by omega) (by omega), get_write_of_le type (by omega)]

/-- A round sends nothing and leaves `sendbuff`, or it sends it with the echo type. -/
theorem sendRound_cases (round : sendRound stdin peer = some (sent, left, after)) :
    sent = none ∧ after.sendbuff = peer.sendbuff ∨
      ∃ packet : Block buffsize, packet.bytes[0]? = some icmpEcho ∧
        (∀ place, Unwritten place → packet.bytes[place]? = peer.sendbuff.bytes[place]?) ∧
        sent = some (crypt 0 packet).bytes ∧ after.sendbuff = crypt 0 packet := by
  simp only [sendRound, Option.bind_eq_bind] at round
  -- with a line to store or at the end of the input
  split at round
  all_goals
    simp only [Option.bind_eq_some_iff] at round
    obtain ⟨_, -, cut, -, tnel, -, string, -, round⟩ := round
    split at round
    · cases round
      exact .inl ⟨rfl, rfl⟩
    · obtain ⟨⟨datagram, after'⟩, sends, same⟩ := Option.bind_eq_some_iff.mp round
      rw [senddata_eq] at sends
      obtain ⟨packet, reached, sends⟩ := Option.map_eq_some_iff.mp sends
      cases sends
      cases same
      exact .inr ⟨packet, (plaintext_kept reached).1, (plaintext_kept reached).2, rfl, rfl⟩

theorem Flipped.crypt {packet sendbuff : Block buffsize} (flipped : Flipped times sendbuff)
    (kept : ∀ place, Unwritten place → packet.bytes[place]? = sendbuff.bytes[place]?) :
    Flipped (times + 1) (crypt 0 packet) := by
  intro place unwritten
  have inside : 0 ≤ place ∧ place < 0 + 8 := by
    unfold Unwritten at unwritten
    omega
  rw [get_crypt, kept place unwritten, flipped place unwritten, Option.map_some, if_pos inside,
    UInt8.xor_assoc]
  congr 2
  rcases Nat.mod_two_eq_zero_or_one times with even | odd
  · rw [if_pos even, if_neg (by omega)]
    rfl
  · rw [if_neg (by omega), if_pos (by omega)]
    rfl

theorem crypt_crypt (offset : Nat) (buffer : Block buffsize) :
    crypt offset (crypt offset buffer) = buffer := by
  apply Block.ext
  apply List.ext_getElem?
  intro place
  rw [get_crypt, get_crypt, Option.map_map]
  refine (congrArg (Option.map · _) (funext fun byte => ?_)).trans Option.map_id_apply
  simp only [Function.comp]
  split
  · rw [UInt8.xor_assoc, UInt8.xor_self, UInt8.xor_zero]
    rfl
  · rfl

/-- The header is what it should be before it was encrypted, and after an even number of times. -/
theorem echoHeader_iff {packet sendbuff : Block buffsize} (flipped : Flipped times sendbuff)
    (type : packet.bytes[0]? = some icmpEcho)
    (kept : ∀ place, Unwritten place → packet.bytes[place]? = sendbuff.bytes[place]?) :
    EchoHeader packet ↔ times % 2 = 0 := by
  have byte (place : Nat) (unwritten : Unwritten place) :=
    (kept place unwritten).trans (flipped place unwritten)
  constructor
  · intro header
    by_contra odd
    have code := byte 1 (.inl rfl)
    rw [header.code, if_neg odd] at code
    exact absurd code (by decide)
  · intro even
    simp only [if_pos even] at byte
    exact ⟨type, byte 1 (.inl rfl), ⟨byte 4 (.inr (by decide)), byte 5 (.inr (by decide))⟩,
      byte 6 (.inr (by decide)), byte 7 (.inr (by decide))⟩

theorem sendLoop_echo (ran : sendLoop rounds stdin peer = some (datagrams, left, after))
    (flipped : Flipped times peer.sendbuff) {k : Nat} {packet : Block buffsize}
    (sent : datagrams[k]? = some packet.bytes) :
    EchoHeader (crypt 0 packet) ↔ (times + k) % 2 = 0 := by
  induction rounds generalizing stdin peer datagrams left after times k with
  | zero =>
    cases ran
    cases sent
  | succ rounds ih =>
    obtain ⟨⟨first, left', peer'⟩, round, ran⟩ := Option.bind_eq_some_iff.mp ran
    obtain ⟨⟨later, _, _⟩, rest, same⟩ := Option.bind_eq_some_iff.mp ran
    cases same
    rcases sendRound_cases round with ⟨rfl, unchanged⟩ | ⟨plain, type, kept, rfl, changed⟩
    · exact ih rest (unchanged ▸ flipped) sent
    · cases k with
      | zero =>
        have whole : (crypt 0 plain).bytes = packet.bytes := Option.some.inj sent
        obtain rfl := Block.ext whole
        rw [crypt_crypt]
        exact echoHeader_iff flipped type kept
      | succ k =>
        have flipped' : Flipped (times + 1) peer'.sendbuff := changed ▸ flipped.crypt kept
        rw [ih rest flipped' sent, Nat.add_assoc, Nat.add_comm 1 k]

/-- Names that are strings in `tnel`. -/
structure Named (peer : Peer) (own whom : List UInt8) : Prop where
  sname : cstring (peer.tnel.pointer snameAt) = some own
  dname : cstring (peer.tnel.pointer dnameAt) = some whom
  short : own.length < namesize
  short' : whom.length < namesize

theorem Named.typed {own whom : List UInt8} (named : Named peer own whom)
    (stored : Typed peer line tnel) : Named { peer with tnel } own whom := by
  have sizes : snameAt = 0 ∧ dnameAt = 10 ∧ dataAt = 20 ∧ namesize = 10 := ⟨rfl, rfl, rfl, rfl⟩
  have short := named.short
  have short' := named.short'
  refine ⟨(cstring_congr fun place below => ?_).mpr named.sname,
    (cstring_congr fun place below => ?_).mpr named.dname, short, short'⟩
  · rw [pointer, pointer, List.getElem?_drop, List.getElem?_drop]
    exact stored.names _ (by omega)
  · rw [pointer, pointer, List.getElem?_drop, List.getElem?_drop]
    exact stored.names _ (by omega)

theorem sendRound_named {own whom : List UInt8} (named : Named peer own whom) {line : Line}
    (fits : line.bytes.length < 2000) (more : List UInt8) :
    ∃ (packet : Block buffsize) (after : Peer), Named after own whom ∧
      sendRound (line.bytes ++ 10 :: more) peer = some (some packet.bytes, more, after) := by
  have buff : buffsize = 2048 := rfl
  have left : (fgets buffsize (line.bytes ++ 10 :: more)).2 = more :=
    @fgets_left _ line.single 2047 (by omega) more
  obtain ⟨tnel, stored, sends⟩ := sendRound_line peer line more
  have named' := named.typed stored
  have data := stored.data
  rw [List.take_of_length_le (by omega)] at data
  obtain ⟨packet, reached⟩ := @plaintext_some _ _ _ { peer with tnel } named'.dname
    named'.sname data named'.short' named'.short fits
  rw [senddata_eq, reached, left] at sends
  exact ⟨crypt 0 packet, { peer with sendbuff := crypt 0 packet, tnel },
    ⟨named'.sname, named'.dname, named'.short, named'.short'⟩, sends⟩

/-- The lines as they are typed. -/
def typedLines (lines : List Line) : List UInt8 := lines.flatMap fun line => line.bytes ++ [10]

theorem sendLoop_lines {own whom : List UInt8} {lines : List Line}
    (fits : ∀ line ∈ lines, line.bytes.length < 2000) (named : Named peer own whom) :
    ∃ (packets : List (Block buffsize)) (after : Peer), packets.length = lines.length ∧
      sendLoop lines.length (typedLines lines) peer =
        some (packets.map Block.bytes, [], after) := by
  induction lines generalizing peer with
  | nil => exact ⟨[], peer, rfl, rfl⟩
  | cons line lines ih =>
    rw [List.forall_mem_cons] at fits
    obtain ⟨packet, after, named', round⟩ := sendRound_named named fits.1 (typedLines lines)
    obtain ⟨packets, last, each, rest⟩ := ih fits.2 named'
    have input : typedLines (line :: lines) = line.bytes ++ 10 :: typedLines lines := by
      rw [typedLines, List.flatMap_cons, List.append_assoc]
      rfl
    refine ⟨packet :: packets, last, congrArg (· + 1) each, ?_⟩
    simp only [List.length_cons, sendLoop, input, round, rest, Option.bind_eq_bind,
      Option.bind_some]
    rfl

/-- Names that end in a zero in the memory from `malloc`. -/
theorem initIcmpPacket_named {malloced : Block tunnelSize} {myname whoname : Name}
    (ended : malloced.bytes[myname.bytes.length]? = some 0)
    (ended' : malloced.bytes[dnameAt + whoname.bytes.length]? = some 0) :
    ∃ peer, initIcmpPacket malloced myname.bytes whoname.bytes = some peer ∧
      Named peer myname.bytes whoname.bytes := by
  obtain ⟨peer, ready, started⟩ := initIcmpPacket_started malloced myname whoname
  refine ⟨peer, ready, ?_, ?_, myname.short, whoname.short⟩
  · exact (started.cstring_sname myname.short).mpr (cstring_own.mpr ended)
  · refine (cstring_name started.dname whoname.short).mpr ?_
    have empty : cstring (malloced.pointer (dnameAt + whoname.bytes.length)) = some [] := by
      refine cstring_pointer.mpr ⟨List.not_mem_nil, fun place below => ?_⟩
      obtain rfl := Nat.lt_one_iff.mp below
      exact ended'
    rw [cstring_append whoname.nonzero, empty, Option.map_some, List.append_nil]

theorem session_lines {malloced : Block tunnelSize} {myname whoname : Name}
    (ended : malloced.bytes[myname.bytes.length]? = some 0)
    (ended' : malloced.bytes[dnameAt + whoname.bytes.length]? = some 0) {lines : List Line}
    (fits : ∀ line ∈ lines, line.bytes.length < 2000) :
    ∃ packets : List (Block buffsize), packets.length = lines.length ∧
      session malloced myname.bytes whoname.bytes lines.length (typedLines lines) =
        some (packets.map Block.bytes) := by
  obtain ⟨peer, ready, named⟩ := initIcmpPacket_named ended ended'
  obtain ⟨packets, after, each, ran⟩ := sendLoop_lines fits named
  refine ⟨packets, each, ?_⟩
  simp only [session, ready, ran, Option.bind_eq_bind, Option.bind_some]

theorem session_eq_some (ran : session malloced myname whoname rounds stdin = some datagrams) :
    ∃ peer left after, initIcmpPacket malloced myname whoname = some peer ∧
      sendLoop rounds stdin peer = some (datagrams, left, after) := by
  obtain ⟨peer, ready, ran⟩ := Option.bind_eq_some_iff.mp ran
  obtain ⟨⟨_, left, after⟩, loop, same⟩ := Option.bind_eq_some_iff.mp ran
  cases same
  exact ⟨peer, left, after, ready, loop⟩

/-- Exactly every other datagram, from the first on, is an echo request once it is decrypted. -/
theorem kth_echo_iff (ran : session malloced myname whoname rounds stdin = some datagrams)
    {k : Nat} {packet : Block buffsize} (sent : datagrams[k]? = some packet.bytes) :
    EchoHeader (crypt 0 packet) ↔ k % 2 = 0 := by
  obtain ⟨peer, _, _, ready, loop⟩ := session_eq_some ran
  rw [sendLoop_echo loop (initIcmpPacket_flipped ready) sent, Nat.zero_add]

/-- `al` and `bob`, and the line `hi`. -/
def al : Name := ⟨[97, 108], by decide, by decide⟩

def bob : Name := ⟨[98, 111, 98], by decide, by decide⟩

def hi : Line := ⟨[104, 105], by decide, by decide, by decide⟩

theorem session_hi (lines : List Line) (same : ∀ line ∈ lines, line = hi) :
    ∃ packets : List (Block buffsize), packets.length = lines.length ∧
      session (.zero _) al.bytes bob.bytes lines.length (typedLines lines) =
        some (packets.map Block.bytes) :=
  session_lines (get_zero tunnelSize 2) (get_zero tunnelSize 13) fun line member => by
    rw [same line member]
    decide

theorem kth_echo_iff_hi : ∃ datagrams, ∃ packet : Block buffsize,
    session (.zero _) al.bytes bob.bytes 1 (typedLines [hi]) = some datagrams ∧
      datagrams[0]? = some packet.bytes ∧ (EchoHeader (crypt 0 packet) ↔ 0 % 2 = 0) := by
  obtain ⟨packets, one, ran⟩ := session_hi [hi] (by simp)
  obtain ⟨packet, rfl⟩ := List.length_eq_one_iff.mp one
  exact ⟨_, packet, ran, rfl, kth_echo_iff ran rfl⟩

/-- The second line is sent under another code. -/
theorem second_hi_not_echo : ¬ ∀ (malloced : Block tunnelSize) (myname whoname : List UInt8)
    (rounds : Nat) (stdin : List UInt8) (datagrams : List (List UInt8)),
    session malloced myname whoname rounds stdin = some datagrams →
      ∀ (k : Nat) (packet : Block buffsize), datagrams[k]? = some packet.bytes →
        EchoHeader (crypt 0 packet) := by
  intro always
  obtain ⟨packets, two, ran⟩ := session_hi [hi, hi] (by simp)
  obtain ⟨first, second, rfl⟩ := List.length_eq_two.mp two
  have header := always _ _ _ _ _ _ ran 1 second rfl
  obtain ⟨peer, _, _, ready, loop⟩ := session_eq_some ran
  have sent : ([first, second].map Block.bytes)[1]? = some second.bytes := rfl
  have even := (sendLoop_echo loop (initIcmpPacket_flipped ready) sent).mp header
  exact absurd even (by decide)

end CssLab.Tunnel
