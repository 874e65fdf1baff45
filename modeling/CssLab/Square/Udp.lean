import CssLab.Square.Answer

/-! `square-server-udp.c`: what is left of earlier datagrams in the replies, each of
which is the whole buffer. -/

namespace CssLab.Square

open Block Http

/-- `recvfrom` and the zero behind what came. -/
def recvfrom (buffer : Block bufSize) (datagram : List UInt8) : Option (Block bufSize) := do
  let received := datagram.take bufSize
  let buffer ← buffer.write 0 received
  buffer.write received.length [0]

/-- The datagrams that leave room for the zero. -/
abbrev Short (datagram : List UInt8) : Prop := datagram.length < bufSize

section Reply

variable (floats : Floats)

/-- The buffer that `sendto` sends. -/
def reply (buffer : Block bufSize) (datagram : List UInt8) : Option (Block bufSize) := do
  let buffer ← recvfrom buffer datagram
  let string ← answer floats buffer
  sprintf buffer string

def serveAll (buffer : Block bufSize) (datagrams : List (List UInt8)) : Option (Block bufSize) :=
  datagrams.foldlM (reply floats) buffer

/-- The reply to a request does not tell what came before it. -/
def Private (buffer : Block bufSize) (request : List UInt8) : Prop :=
  ∀ history history' after after', (∀ datagram ∈ history, Short datagram) →
    (∀ datagram ∈ history', Short datagram) →
    serveAll floats buffer (history ++ [request]) = some after →
    serveAll floats buffer (history' ++ [request]) = some after' → after.bytes = after'.bytes

theorem recvfrom_long (buffer : Block bufSize) {datagram : List UInt8} (long : ¬Short datagram) :
    recvfrom buffer datagram = none := by
  have full : (datagram.take bufSize).length = bufSize := by
    rw [List.length_take]
    omega
  simp only [recvfrom, full]
  cases buffer.write 0 (datagram.take bufSize) with
  | none => rfl
  | some filled =>
    change filled.write bufSize [0] = none
    exact dif_neg (Nat.not_succ_le_self bufSize)

/-- A short datagram, a zero, and what the buffer had behind them. -/
theorem recvfrom_short (buffer : Block bufSize) {datagram : List UInt8} (short : Short datagram) :
    ∃ received, recvfrom buffer datagram = some received ∧
      received.bytes = datagram ++ 0 :: buffer.bytes.drop (datagram.length + 1) := by
  have whole : datagram.take bufSize = datagram := List.take_of_length_le (Nat.le_of_lt short)
  obtain ⟨filled, stored⟩ := write_some buffer 0 datagram (by
    rw [Nat.zero_add]
    exact Nat.le_of_lt short)
  obtain ⟨received, ended⟩ := write_some filled datagram.length [0] short
  refine ⟨received, ?_, ?_⟩
  · simp only [recvfrom, whole, stored, Option.bind_eq_bind, Option.bind_some, ended]
  · have bytes := bytes_write stored
    rw [List.take_zero, List.nil_append, Nat.zero_add] at bytes
    rw [bytes_write ended, bytes, List.take_left, List.append_assoc, List.singleton_append,
      List.length_singleton, List.drop_append, List.drop_of_length_le (by omega),
      List.nil_append, List.drop_drop]
    congr 3
    omega

theorem get_received (buffer : Block bufSize) {datagram : List UInt8} (short : Short datagram)
    (came : recvfrom buffer datagram = some received) (place : Nat) :
    received.bytes[place]? = if place < datagram.length then datagram[place]?
      else if place = datagram.length then some 0 else buffer.bytes[place]? := by
  obtain ⟨received', came', bytes⟩ := recvfrom_short buffer short
  cases came.symm.trans came'
  rw [bytes]
  rcases Nat.lt_trichotomy place datagram.length with before | rfl | after
  · rw [if_pos before, List.getElem?_append_left before]
  · rw [if_neg (Nat.lt_irrefl _), if_pos rfl, List.getElem?_append_right (Nat.le_refl _),
      Nat.sub_self]
    rfl
  · obtain ⟨behind, rfl⟩ := Nat.exists_eq_add_of_lt after
    rw [if_neg (by omega), if_neg (by omega), List.getElem?_append_right (by omega),
      Nat.add_assoc, Nat.add_sub_cancel_left, List.getElem?_cons_succ, List.getElem?_drop]
    congr 1
    omega

/-- Behind the text of a reply stands what was received or what stood there before. -/
theorem get_reply (replied : reply floats buffer datagram = some after) (behind : 47 ≤ place) :
    ∃ received, recvfrom buffer datagram = some received ∧
      after.bytes[place]? = received.bytes[place]? := by
  obtain ⟨received, came, replied⟩ := Option.bind_eq_some_iff.mp replied
  obtain ⟨string, answered, printed⟩ := Option.bind_eq_some_iff.mp replied
  have short := length_answer_le floats answered
  refine ⟨received, came, get_write_of_le printed ?_⟩
  rw [List.length_append, List.length_singleton]
  omega

/-- A request is answered if there is a zero where a number of it may stand. -/
theorem reply_isSome (buffer : Block bufSize) {request : List UInt8} (short : Short request)
    (ends : 2 ≤ request.length ∨ buffer.bytes[1023]? = some 0) :
    ∃ after, reply floats buffer request = some after := by
  obtain ⟨received, came, bytes⟩ := recvfrom_short buffer short
  have zero : 0 ∈ received.pointer 2 := by
    rcases ends with long | last
    · rw [pointer, bytes, List.drop_append_of_le_length long]
      exact List.mem_append_right _ List.mem_cons_self
    · apply List.mem_of_getElem? (i := 1021)
      rw [pointer, List.getElem?_drop, get_received buffer short came,
        if_neg (Nat.not_lt_of_le (Nat.le_of_lt_succ short)), last, ite_self]
  obtain ⟨string, answered⟩ := answer_isSome floats zero
  obtain ⟨after, printed, -⟩ := sprintf_answer floats answered
  refine ⟨after, ?_⟩
  simp only [reply, came, Option.bind_eq_bind, Option.bind_some, answered, printed]

theorem last_reply (short : Short datagram) (last : buffer.bytes[1023]? = some 0)
    (replied : reply floats buffer datagram = some after) : after.bytes[1023]? = some 0 := by
  obtain ⟨received, came, same⟩ := get_reply floats replied (by decide : 47 ≤ 1023)
  rw [same, get_received buffer short came, if_neg (Nat.not_lt_of_le (Nat.le_of_lt_succ short)),
    last, ite_self]

theorem last_serveAll (history : List (List UInt8)) (short : ∀ datagram ∈ history, Short datagram)
    (last : buffer.bytes[1023]? = some 0) (served : serveAll floats buffer history = some after) :
    after.bytes[1023]? = some 0 := by
  induction history generalizing buffer with
  | nil =>
    cases served
    exact last
  | cons datagram history ih =>
    rw [List.forall_mem_cons] at short
    obtain ⟨next, replied, served⟩ := Option.bind_eq_some_iff.mp served
    exact ih short.2 (last_reply floats short.1 last replied) served

/-- What a datagram does not overwrite is what the next reply is made of. -/
theorem reply_congr {buffer buffer' : Block bufSize} {datagram : List UInt8}
    (short : Short datagram) (same : ∀ place, datagram.length < place →
      buffer.bytes[place]? = buffer'.bytes[place]?) :
    reply floats buffer datagram = reply floats buffer' datagram := by
  obtain ⟨received, came, bytes⟩ := recvfrom_short buffer short
  obtain ⟨received', came', bytes'⟩ := recvfrom_short buffer' short
  have rest : buffer.bytes.drop (datagram.length + 1) =
      buffer'.bytes.drop (datagram.length + 1) := by
    apply List.ext_getElem?
    intro place
    rw [List.getElem?_drop, List.getElem?_drop]
    exact same _ (by omega)
  have equal : received = received' := by
    apply Block.ext
    rw [bytes, bytes', rest]
  rw [reply, reply, came, came', equal]

theorem serveAll_snoc (history : List (List UInt8)) :
    serveAll floats buffer (history ++ [request]) = some after ↔
      ∃ before, serveAll floats buffer history = some before ∧
        reply floats before request = some after := by
  rw [serveAll, List.foldlM_append]
  simp only [List.foldlM_cons, Option.bind_eq_bind, Option.bind_eq_some_iff, List.foldlM_nil]
  constructor
  · rintro ⟨before, served, next, replied, same⟩
    cases same
    exact ⟨before, served, replied⟩
  · rintro ⟨before, served, replied⟩
    exact ⟨before, served, after, replied, rfl⟩

/-- A datagram of as many bytes as there is room for stays behind its reply. -/
theorem serveAll_fill (buffer : Block bufSize) (byte : UInt8) :
    ∃ after, serveAll floats buffer [List.replicate 1023 byte] = some after ∧
      after.bytes[1022]? = some byte ∧ after.bytes[1023]? = some 0 := by
  have length : (List.replicate 1023 byte).length = 1023 := List.length_replicate ..
  have short : Short (List.replicate 1023 byte) := by
    rw [Short, length]
    decide
  obtain ⟨after, replied⟩ := reply_isSome floats buffer short (.inl (by rw [length]; decide))
  refine ⟨after, (serveAll_snoc floats []).mpr ⟨buffer, rfl, replied⟩, ?_, ?_⟩
  · obtain ⟨received, came, same⟩ := get_reply floats replied (by decide : 47 ≤ 1022)
    rw [same, get_received buffer short came, length, if_pos (by decide),
      List.getElem?_replicate, if_pos (by decide)]
  · obtain ⟨received, came, same⟩ := get_reply floats replied (by decide : 47 ≤ 1023)
    rw [same, get_received buffer short came, length, if_neg (by decide), if_pos rfl]

theorem reply_keeps (short : Short request) (replied : reply floats buffer request = some after)
    (place : Nat) (behind : request.length < place) (behind' : 47 ≤ place) :
    after.bytes[place]? = buffer.bytes[place]? := by
  obtain ⟨received, came, same⟩ := get_reply floats replied behind'
  rw [same, get_received buffer short came, if_neg (by omega), if_neg (by omega)]

theorem short_fill (byte : UInt8) : ∀ datagram ∈ [List.replicate 1023 byte], Short datagram := by
  intro datagram member
  rw [List.mem_singleton] at member
  subst member
  rw [Short, List.length_replicate]
  decide

/-- Shorter requests are sent back a byte of the datagram before. -/
theorem not_private_of_lt (buffer : Block bufSize) {request : List UInt8}
    (fewer : request.length < 1022) : ¬Private floats buffer request := by
  intro apart
  have short : Short request := Nat.lt_trans fewer (by decide)
  obtain ⟨first, filled, kept, last⟩ := serveAll_fill floats buffer 97
  obtain ⟨second, filled', kept', last'⟩ := serveAll_fill floats buffer 98
  obtain ⟨after, replied⟩ := reply_isSome floats first short (.inr last)
  obtain ⟨after', replied'⟩ := reply_isSome floats second short (.inr last')
  have ran := (serveAll_snoc floats _).mpr ⟨first, filled, replied⟩
  have ran' := (serveAll_snoc floats _).mpr ⟨second, filled', replied'⟩
  have same := apart _ _ _ _ (short_fill 97) (short_fill 98) ran ran'
  have byte := reply_keeps floats short replied 1022 fewer (by decide)
  rw [same, reply_keeps floats short replied' 1022 fewer (by decide), kept, kept'] at byte
  exact absurd byte (by decide)

/-- The byte that a request of 1022 bytes leaves is either the first one that was there or
a zero. -/
theorem not_private_of_eq {buffer : Block bufSize} {request : List UInt8}
    (whole : request.length = 1022) (first : buffer.bytes[1023]? ≠ some 0) :
    ¬Private floats buffer request := by
  intro apart
  have short : Short request := by
    rw [Short, whole]
    decide
  have behind : request.length < 1023 := by
    rw [whole]
    decide
  obtain ⟨filled, ran, -, last⟩ := serveAll_fill floats buffer 97
  obtain ⟨after, replied⟩ := reply_isSome floats filled short (.inr last)
  obtain ⟨after', replied'⟩ := reply_isSome floats buffer short (.inl (by rw [whole]; decide))
  have same := apart _ _ _ _ (short_fill 97) (fun _ member => absurd member List.not_mem_nil)
    ((serveAll_snoc floats _).mpr ⟨filled, ran, replied⟩)
    ((serveAll_snoc floats []).mpr ⟨buffer, rfl, replied'⟩)
  have byte := reply_keeps floats short replied' 1023 behind (by decide)
  rw [← same, reply_keeps floats short replied 1023 behind (by decide), last] at byte
  exact first byte.symm

/-- Replies tell nothing of what came before exactly to the requests that overwrite
the buffer but for a last byte that is zero from the start. A request that leaves no
room for the zero has none. -/
theorem private_iff (buffer : Block bufSize) (request : List UInt8) :
    Private floats buffer request ↔
      1023 ≤ request.length ∨ request.length = 1022 ∧ buffer.bytes[1023]? = some 0 := by
  constructor
  · intro apart
    rcases Nat.lt_trichotomy request.length 1022 with fewer | whole | more
    · exact absurd apart (not_private_of_lt floats buffer fewer)
    · refine .inr ⟨whole, ?_⟩
      by_contra first
      exact not_private_of_eq floats whole first apart
    · exact .inl more
  · intro overwrites history history' after after' short short' ran ran'
    obtain ⟨before, served, replied⟩ := (serveAll_snoc floats history).mp ran
    obtain ⟨before', served', replied'⟩ := (serveAll_snoc floats history').mp ran'
    by_cases long : ¬Short request
    · rw [reply, recvfrom_long before long] at replied
      cases replied
    · rw [not_not] at long
      have same : reply floats before request = reply floats before' request := by
        apply reply_congr floats long
        intro place behind
        by_cases outside : bufSize ≤ place
        · rw [List.getElem?_eq_none (by rw [before.length_bytes]; exact outside),
            List.getElem?_eq_none (by rw [before'.length_bytes]; exact outside)]
        · have size : bufSize = 1024 := rfl
          obtain ⟨-, last⟩ := overwrites.resolve_left (by omega)
          obtain rfl : place = 1023 := by omega
          rw [last_serveAll floats history short last served,
            last_serveAll floats history' short' last served']
      rw [same, replied'] at replied
      cases replied
      rfl

end Reply

/-- The reply to `i 3` shows whose datagram came before. -/
theorem three_not_private : ¬ ∀ (floats : Floats) (buffer : Block bufSize) (request : List UInt8),
    Short request → Private floats buffer request := by
  intro apart
  exact not_private_of_lt wholeFloats (.zero _) (by decide)
    (apart wholeFloats (.zero _) (text "i 3") (by decide))

end CssLab.Square
