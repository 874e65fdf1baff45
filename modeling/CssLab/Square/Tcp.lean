import CssLab.Lib.Framing
import CssLab.Square.Answer
import Mathlib.Data.List.Forall2
import Mathlib.Tactic.Choose

/-! `square-server.c`: a client's requests are a stream, and each `read` is answered
as if it gave one of them. -/

namespace CssLab.Square

open Block Http Framing

/-- What a request asks the square of. -/
inductive Kind
  | int
  | float
  deriving DecidableEq

def Kind.letter : Kind → UInt8
  | .int => 105
  | .float => 102

/-- A line such as `i 3` or `f 2.5`, which a client reads into its buffer. Only infinities
and hexadecimal digits have the letters in them that requests and `bye` start with. -/
structure Request where
  kind : Kind
  number : List UInt8
  plain : 105 ∉ number ∧ 102 ∉ number ∧ 98 ∉ number
  short : number.length + 2 < bufSize

def Request.bytes (request : Request) : List UInt8 := request.kind.letter :: 32 :: request.number

section Serve

variable (floats : Floats)

/-- What is written to a client for what each `read` gives. -/
def serve : List (List UInt8) → Option (List (List UInt8))
  | [] => some []
  | chunk :: chunks => do
    let buffer ← (Block.zero bufSize).write 0 chunk
    if ← strcmp buffer.bytes (text "bye" ++ [0]) then some []
    else do
      let string ← answer floats buffer
      let buffer ← sprintf buffer string
      let sent ← cstring buffer.bytes
      let replies ← serve chunks
      some (sent :: replies)

/-- Each request is answered as it is where one `read` gives that request alone. -/
def Answered (requests : List Request) (chunks : List (List UInt8)) : Prop :=
  ∃ replies, serve floats chunks = some replies ∧
    List.Forall₂ (fun request sent => serve floats [request.bytes] = some [sent]) requests replies

/-- What is written for a chunk that does not say `bye`. -/
def respond (chunk : List UInt8) : Option (List UInt8) := do
  let buffer ← (Block.zero bufSize).write 0 chunk
  answer floats buffer

/-- A chunk that starts as no `bye` does is answered, and then come the other chunks. -/
theorem serve_cons {first : UInt8} (greets : first ≠ 98) (rest : List UInt8)
    (chunks : List (List UInt8)) :
    serve floats ((first :: rest) :: chunks) = (respond floats (first :: rest)).bind fun sent =>
      (serve floats chunks).map (sent :: ·) := by
  cases stored : (Block.zero bufSize).write 0 (first :: rest) with
  | none => simp only [serve, respond, stored, Option.bind_eq_bind, Option.bind_none]
  | some buffer =>
    have bytes : buffer.bytes = first :: (rest ++
        (Block.zero bufSize).bytes.drop (0 + (first :: rest).length)) := by
      rw [bytes_write stored, List.take_zero, List.nil_append, List.cons_append]
    have other : strcmp buffer.bytes (text "bye" ++ [0]) = some false := by
      rw [bytes]
      exact if_pos greets
    simp only [serve, respond, stored, other, Option.bind_eq_bind, Option.bind_some]
    cases answered : answer floats buffer with
    | none => rfl
    | some sent =>
      obtain ⟨after, printed, string⟩ := sprintf_answer floats answered
      simp only [Option.bind_some, printed, string]
      cases serve floats chunks <;> rfl

/-- A chunk that says `bye` would start with its first letter. -/
def Silent (chunk : List UInt8) : Prop := ∃ first rest, chunk = first :: rest ∧ first ≠ 98

theorem serve_iff {chunks : List (List UInt8)} (silent : ∀ chunk ∈ chunks, Silent chunk)
    (replies : List (List UInt8)) : serve floats chunks = some replies ↔
      List.Forall₂ (fun chunk sent => respond floats chunk = some sent) chunks replies := by
  induction chunks generalizing replies with
  | nil =>
    rw [serve, Option.some.injEq, List.forall₂_nil_left_iff]
    exact eq_comm
  | cons chunk chunks ih =>
    rw [List.forall_mem_cons] at silent
    obtain ⟨first, rest, rfl, greets⟩ := silent.1
    simp only [serve_cons floats greets, Option.bind_eq_some_iff, Option.map_eq_some_iff,
      ih silent.2, List.forall₂_cons_left_iff]
    constructor
    · rintro ⟨sent, answered, replies, later, rfl⟩
      exact ⟨sent, replies, answered, later, rfl⟩
    · rintro ⟨sent, replies, answered, later, rfl⟩
      exact ⟨sent, answered, replies, later, rfl⟩

theorem respond_clear {chunk : List UInt8} (read : chunk ≠ [])
    (answered : respond floats chunk = some sent) : 32 ∉ sent ↔ Marked isLetter chunk := by
  obtain ⟨first, rest, rfl⟩ := List.exists_cons_of_ne_nil read
  obtain ⟨buffer, stored, answered⟩ := Option.bind_eq_some_iff.mp answered
  have starts : buffer.bytes[0]? = some first := by
    rw [bytes_write stored]
    rfl
  rw [(answer_clear floats answered).2, starts]
  constructor
  · rintro ⟨first, same, letter⟩
    cases same
    exact ⟨first, rest, rfl, letter⟩
  · rintro ⟨first, rest, same, letter⟩
    cases same
    exact ⟨first, rfl, letter⟩

theorem frame_request (request : Request) : Frame isLetter request.bytes := by
  refine ⟨request.kind.letter, 32 :: request.number, rfl, ?_, ?_⟩
  · cases request.kind <;> rfl
  · rw [List.forall_mem_cons]
    refine ⟨rfl, fun byte member => ?_⟩
    rw [isLetter, decide_eq_false_iff_not]
    rintro (rfl | rfl)
    · exact request.plain.1 member
    · exact request.plain.2.1 member

theorem mem_request {request : Request} (member : byte ∈ request.bytes) : byte ≠ 98 := by
  rcases List.mem_cons.mp member with rfl | member
  · cases request.kind <;> decide
  · rcases List.mem_cons.mp member with rfl | member
    · decide
    · rintro rfl
      exact request.plain.2.2 member

theorem respond_request (request : Request) :
    ∃ sent, respond floats request.bytes = some sent := by
  have short := request.short
  have length : request.bytes.length = request.number.length + 2 := rfl
  obtain ⟨buffer, stored⟩ := write_some (Block.zero bufSize) 0 request.bytes (by omega)
  have zero : 0 ∈ buffer.pointer 2 := by
    apply List.mem_of_getElem? (i := request.number.length)
    rw [pointer, List.getElem?_drop, get_write_of_le stored (by omega), get_zero,
      if_pos (by omega)]
  obtain ⟨sent, answered⟩ := answer_isSome floats zero
  refine ⟨sent, ?_⟩
  simp only [respond, stored, Option.bind_eq_bind, Option.bind_some, answered]

theorem silent_request (request : Request) : Silent request.bytes := by
  refine ⟨request.kind.letter, 32 :: request.number, rfl, ?_⟩
  exact @mem_request _ request List.mem_cons_self

theorem serve_request (request : Request) (sent : List UInt8) :
    serve floats [request.bytes] = some [sent] ↔ respond floats request.bytes = some sent := by
  rw [serve_iff floats (by simpa using silent_request request)]
  simp

theorem serve_requests (requests : List Request) :
    Answered floats requests (requests.map Request.bytes) := by
  choose sent answered using respond_request floats
  refine ⟨requests.map sent, ?_, ?_⟩
  · rw [serve_iff floats, List.forall₂_map_left_iff, List.forall₂_map_right_iff,
      List.forall₂_same]
    · exact fun request _ => answered request
    · intro chunk member
      obtain ⟨request, -, rfl⟩ := List.mem_map.mp member
      exact silent_request request
  · rw [List.forall₂_map_right_iff, List.forall₂_same]
    exact fun request _ => (serve_request floats request _).mpr (answered request)

theorem exists_of_mem {related : α → β → Prop} (both : List.Forall₂ related lefts rights)
    (member : left ∈ lefts) : ∃ right ∈ rights, related left right := by
  induction both with
  | nil => cases member
  | cons here there ih =>
    rcases List.mem_cons.mp member with rfl | later
    · exact ⟨_, List.mem_cons_self, here⟩
    · obtain ⟨right, among, held⟩ := ih later
      exact ⟨right, List.mem_cons_of_mem _ among, held⟩

/-- The replies are those to the requests exactly if every `read` gives one of them. -/
theorem answered_iff (requests : List Request) (chunks : List (List UInt8))
    (stream : chunks.flatten = (requests.map Request.bytes).flatten)
    (reads : ∀ chunk ∈ chunks, chunk ≠ [] ∧ chunk.length ≤ bufSize) :
    Answered floats requests chunks ↔ chunks = requests.map Request.bytes := by
  have silent : ∀ chunk ∈ chunks, Silent chunk := by
    intro chunk member
    obtain ⟨first, rest, rfl⟩ := List.exists_cons_of_ne_nil (reads chunk member).1
    refine ⟨first, rest, rfl, ?_⟩
    have inside : first ∈ (requests.map Request.bytes).flatten := by
      rw [← stream]
      exact List.mem_flatten.mpr ⟨_, member, List.mem_cons_self⟩
    obtain ⟨_, whole, inside⟩ := List.mem_flatten.mp inside
    obtain ⟨request, -, rfl⟩ := List.mem_map.mp whole
    exact mem_request inside
  constructor
  · rintro ⟨replies, served, asked⟩
    rw [serve_iff floats silent] at served
    have clear : ∀ sent ∈ replies, 32 ∉ sent := by
      intro sent member
      obtain ⟨request, -, alone⟩ := exists_of_mem asked.flip member
      refine (respond_clear floats (List.cons_ne_nil _ _)
        ((serve_request floats request sent).mp alone)).mpr ?_
      obtain ⟨first, rest, same, letter, -⟩ := frame_request request
      exact ⟨first, rest, same, letter⟩
    apply parts_eq_frames chunks (requests.map Request.bytes)
    · intro part member
      obtain ⟨request, -, rfl⟩ := List.mem_map.mp member
      exact frame_request request
    · intro chunk member
      obtain ⟨sent, among, responded⟩ := exists_of_mem served member
      exact (respond_clear floats (reads chunk member).1 responded).mp (clear sent among)
    · exact stream
    · rw [List.length_map, served.length_eq, asked.length_eq]
  · rintro rfl
    exact serve_requests floats requests

end Serve

/-- The request for the square of twelve. -/
def twelve : Request := ⟨.int, text "12", by decide, by decide⟩

theorem answered_iff_twelve :
    Answered wholeFloats [twelve, twelve] [text "i 12", text "i 12"] ↔
      [text "i 12", text "i 12"] = [twelve, twelve].map Request.bytes :=
  answered_iff wholeFloats [twelve, twelve] [text "i 12", text "i 12"] rfl (by decide)

/-- A request that two calls of `read` give is answered twice. -/
theorem twelve_split :
    ¬ ∀ (floats : Floats) (requests : List Request) (chunks : List (List UInt8)),
      chunks.flatten = (requests.map Request.bytes).flatten →
      (∀ chunk ∈ chunks, chunk ≠ [] ∧ chunk.length ≤ bufSize) →
        Answered floats requests chunks := by
  intro answered
  obtain ⟨replies, served, asked⟩ := answered wholeFloats [twelve] [text "i 1", text "2"] rfl
    (by decide)
  have silent : ∀ chunk ∈ [text "i 1", text "2"], Silent chunk := by
    rw [List.forall_mem_cons]
    refine ⟨⟨105, _, rfl, by decide⟩, ?_⟩
    rw [List.forall_mem_cons]
    exact ⟨⟨50, _, rfl, by decide⟩, by simp⟩
  have two := ((serve_iff wholeFloats silent replies).mp served).length_eq
  rw [← asked.length_eq] at two
  exact absurd two (by decide)

end CssLab.Square
