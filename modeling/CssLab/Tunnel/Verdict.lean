import CssLab.Tunnel.Delivery

namespace CssLab.Tunnel

open Block

/-- A packet for this end of the tunnel. -/
structure Addressed (peer : Peer) : Prop where
  type : peer.recvbuff.bytes[iphdrSize]? = some icmpEcho
  name : ∃ name, cstring (peer.recvbuff.pointer (iphdrSize + icmphdrSize + dnameAt)) = some name ∧
    cstring (peer.tnel.pointer snameAt) = some name

/-- The checksum in the received header. -/
def received (peer : Peer) : Option UInt16 := readShort peer.recvbuff (iphdrSize + 2)

/-- The checksum of the received header, taken as the sender does with a zero in its place. -/
def expected (peer : Peer) : Option UInt16 := do
  let cleared ← peer.recvbuff.write (iphdrSize + 2) [0, 0]
  some (htons (icmpChecksum ((cleared.pointer iphdrSize).take icmphdrSize)))

/-- The checksum that `filter` takes. -/
def taken (peer : Peer) : UInt16 :=
  htons (icmpChecksum ((peer.sendbuff.pointer iphdrSize).take icmphdrSize))

/-- A packet for this end, with the right checksum. -/
def Valid (peer : Peer) : Prop := Addressed peer ∧ received peer = expected peer

/-- `filter` returns 1. -/
def Passes (peer : Peer) : Prop := ∃ after, filter peer = some (true, after)

theorem received_some (peer : Peer) : ∃ checksum, received peer = some checksum := by
  have low : iphdrSize + 2 < peer.recvbuff.bytes.length := by
    rw [peer.recvbuff.length_bytes]
    decide
  have high : iphdrSize + 2 + 1 < peer.recvbuff.bytes.length := by
    rw [peer.recvbuff.length_bytes]
    decide
  simp [received, readShort, List.getElem?_eq_getElem low, List.getElem?_eq_getElem high]

theorem passes_iff (peer : Peer) :
    Passes peer ↔ Addressed peer ∧ received peer = some (taken peer) := by
  have sizes : iphdrSize = 20 ∧ icmphdrSize = 8 ∧ dnameAt = 10 := ⟨rfl, rfl, rfl⟩
  obtain ⟨checksum, read⟩ := received_some peer
  have room : iphdrSize + 2 + [(0 : UInt8), 0].length ≤ buffsize := by decide
  obtain ⟨cleared, zeroed⟩ := peer.recvbuff.write_some _ _ room
  have type : cleared.bytes[iphdrSize]? = peer.recvbuff.bytes[iphdrSize]? :=
    get_write_of_lt zeroed (by omega)
  have dname : cleared.pointer (iphdrSize + icmphdrSize + dnameAt) =
      peer.recvbuff.pointer (iphdrSize + icmphdrSize + dnameAt) :=
    pointer_write_of_le zeroed (by decide)
  have read' : readShort peer.recvbuff (iphdrSize + 2) = some checksum := read
  rw [read]
  constructor
  · rintro ⟨after, verdict⟩
    simp only [filter, read', zeroed, type, dname, Option.bind_eq_bind, Option.bind_some,
      Option.bind_eq_some_iff] at verdict
    obtain ⟨found, isType, verdict⟩ := verdict
    split at verdict
    · cases verdict
    · rename_i echo
      obtain ⟨same, compared, verdict⟩ := Option.bind_eq_some_iff.mp verdict
      split at verdict
      · cases verdict
      · rename_i equal
        have own : taken peer = checksum := by
          simpa [taken] using congrArg (Option.map Prod.fst) verdict
        rw [Bool.not_eq_false] at equal
        rw [not_not] at echo
        exact ⟨⟨echo ▸ isType, strcmp_eq_true.mp (equal ▸ compared)⟩, congrArg some own.symm⟩
  · rintro ⟨⟨echo, named⟩, own⟩
    refine ⟨cleared, ?_⟩
    have own' : taken peer = checksum := (Option.some.inj own).symm
    simp only [filter, read', zeroed, type, dname, echo, strcmp_eq_true.mpr named,
      Option.bind_eq_bind, Option.bind_some, ne_eq, not_true, if_false, Bool.true_eq_false]
    simpa [taken] using own'

/-- The verdict is right exactly for packets that are for someone else or no echo, where
the two checksums are the same, and where the packet has neither of them. -/
theorem verdict_iff (peer : Peer) :
    (Passes peer ↔ Valid peer) ↔
      ¬Addressed peer ∨ some (taken peer) = expected peer ∨
        received peer ≠ some (taken peer) ∧ received peer ≠ expected peer := by
  rw [passes_iff, Valid, and_congr_right_iff]
  by_cases addressed : Addressed peer
  · simp only [addressed, true_imp_iff, not_true, false_or]
    constructor
    · intro both
      by_cases own : received peer = some (taken peer)
      · exact .inl (own.symm.trans (both.mp own))
      · exact .inr ⟨own, mt both.mpr own⟩
    · rintro (same | ⟨own, header⟩)
      · rw [same]
      · exact iff_of_false own header
  · simp [addressed]

/-- An intact packet from `al` for the process of `bob`, which has sent nothing yet. -/
def intact : Peer where
  sendbuff := ⟨[0, 0, 0, 0, 0, 1, 0, 1] ++ List.replicate 2040 0, by
    rw [List.length_append, List.length_replicate]
    rfl⟩
  recvbuff := ⟨List.replicate 20 0 ++ [8, 0, 0xfd, 0xf7, 0, 1, 0, 1] ++
      [97, 108, 0, 0, 0, 0, 0, 0, 0, 0, 98, 111, 98] ++ List.replicate 2007 0, by
    simp only [List.length_append, List.length_replicate]
    rfl⟩
  tnel := ⟨[98, 111, 98, 0, 0, 0, 0, 0, 0, 0, 97, 108] ++ List.replicate 2056 0, by
    rw [List.length_append, List.length_replicate]
    rfl⟩

/-- It is turned down: the bytes of `sendbuff` that are summed up are zeros. -/
theorem intact_rejected : ¬ ∀ peer, Passes peer ↔ Valid peer := by
  intro right
  have addressed : Addressed intact := ⟨rfl, [98, 111, 98], rfl, rfl⟩
  have valid : Valid intact := ⟨addressed, by decide⟩
  have own := ((passes_iff intact).mp ((right intact).mpr valid)).2
  revert own
  decide

end CssLab.Tunnel
