import CssLab.Square.Udp

/-! `square-client.c` and `square-client-udp.c`, and where they and `square-server-udp.c`
put the zero behind what they receive. -/

namespace CssLab.Square

open Block Http

/-- What the programs do to their sockets, and the index of the zero behind what they
received. -/
inductive Event
  | sent (bytes : List UInt8)
  | received (bytes : List UInt8)
  | terminated (index : Nat)
  deriving DecidableEq

/-- `fgets` and the zero in place of the newline; at the end of `stdin` the buffer stays
as it is. -/
def prompt (buffer : Block bufSize) (stdin : List UInt8) :
    Option (Block bufSize × List UInt8) := do
  let (stored, stdin) := fgets bufSize stdin
  let buffer ← if stored = [] then some buffer else buffer.write 0 (stored ++ [0])
  let newline ← strcspn 10 buffer.bytes
  let buffer ← buffer.write newline [0]
  some (buffer, stdin)

/-- What a client does before it receives something: what it sends, and its buffer and the
rest of `stdin` unless it ends there. -/
abbrev Ask := Block bufSize → List UInt8 → List Event × Option (Block bufSize × List UInt8)

def askTcp : Ask := fun buffer stdin =>
  match prompt buffer stdin with
  | none => ([], none)
  | some (buffer, stdin) =>
    match cstring buffer.bytes, strcmp buffer.bytes (text "bye" ++ [0]) with
    | some string, some bye => ([.sent string], if bye then none else some (buffer, stdin))
    | _, _ => ([], none)

def askUdp : Ask := fun buffer stdin =>
  match prompt buffer stdin with
  | none => ([], none)
  | some (buffer, stdin) =>
    match strcmp buffer.bytes (text "bye" ++ [0]) with
    | some false => ([.sent buffer.bytes], some (buffer, stdin))
    | _ => ([], none)

/-- The loop of a client, for what arrives; `breaks` says that it ends when nothing comes. -/
def client (ask : Ask) (breaks : Bool) :
    List (List UInt8) → Block bufSize → List UInt8 → List Event
  | [], buffer, stdin => (ask buffer stdin).1
  | arrived :: rest, buffer, stdin =>
    let received := arrived.take bufSize
    (ask buffer stdin).1 ++
      match (ask buffer stdin).2 with
      | none => []
      | some (buffer, stdin) =>
        if received = [] ∧ breaks then [.received received]
        else
          .received received :: .terminated received.length ::
            match recvfrom buffer arrived with
            | none => []
            | some buffer => client ask breaks rest buffer stdin

/-- `square-client.c` -/
def clientTcp := client askTcp true

/-- `square-client-udp.c` -/
def clientUdp := client askUdp false

/-- `square-server-udp.c` -/
def serverUdp (floats : Floats) : List (List UInt8) → Block bufSize → List Event
  | [], _ => []
  | arrived :: rest, buffer =>
    let received := arrived.take bufSize
    .received received :: .terminated received.length ::
      match reply floats buffer arrived with
      | none => []
      | some buffer => .sent buffer.bytes :: serverUdp floats rest buffer

inductive Program
  | serverUdp (floats : Floats)
  | clientTcp
  | clientUdp

/-- What a program does for what arrives, from what its buffer and `stdin` hold at first. -/
def Program.run (program : Program) (arrivals : List (List UInt8)) (buffer : Block bufSize)
    (stdin : List UInt8) : List Event :=
  match program with
  | .serverUdp floats => Square.serverUdp floats arrivals buffer
  | .clientTcp => Square.clientTcp arrivals buffer stdin
  | .clientUdp => Square.clientUdp arrivals buffer stdin

/-- A zero goes behind what is received, at once, unless that is nothing. -/
structure Paired (events : List Event) : Prop where
  terminated : ∀ index, .terminated index ∈ events →
    ∃ bytes, .received bytes ∈ events ∧ bytes.length = index
  received : ∀ bytes, .received bytes ∈ events → bytes = [] ∨ .terminated bytes.length ∈ events

theorem Paired.nil : Paired [] := by
  constructor
  · simp
  · simp

theorem Paired.single : Paired [.received []] := by
  constructor
  · simp
  · simp

theorem Paired.sent (paired : Paired events) (bytes : List UInt8) :
    Paired (.sent bytes :: events) := by
  constructor
  · intro index member
    obtain ⟨received, there, same⟩ := paired.terminated index (by simpa using member)
    exact ⟨received, List.mem_cons_of_mem _ there, same⟩
  · intro received member
    exact (paired.received received (by simpa using member)).imp_right (List.mem_cons_of_mem _)

theorem Paired.receive (paired : Paired events) (bytes : List UInt8) :
    Paired (.received bytes :: .terminated bytes.length :: events) := by
  constructor
  · intro index member
    simp only [List.mem_cons, reduceCtorEq, Event.terminated.injEq, false_or] at member
    rcases member with rfl | later
    · exact ⟨bytes, List.mem_cons_self, rfl⟩
    · obtain ⟨received, there, same⟩ := paired.terminated index later
      exact ⟨received, List.mem_cons_of_mem _ (List.mem_cons_of_mem _ there), same⟩
  · intro received member
    simp only [List.mem_cons, reduceCtorEq, Event.received.injEq, false_or] at member
    rcases member with rfl | later
    · exact .inr (List.mem_cons_of_mem _ List.mem_cons_self)
    · exact (paired.received received later).imp_right fun there =>
        List.mem_cons_of_mem _ (List.mem_cons_of_mem _ there)

/-- Before it receives something, a client at most sends something. -/
def Sends (ask : Ask) : Prop :=
  ∀ buffer stdin, (ask buffer stdin).1 = [] ∨ ∃ bytes, (ask buffer stdin).1 = [.sent bytes]

theorem Paired.ask {ask : Ask} (sends : Sends ask) (paired : Paired events)
    (buffer : Block bufSize) (stdin : List UInt8) : Paired ((ask buffer stdin).1 ++ events) := by
  rcases sends buffer stdin with nothing | ⟨bytes, something⟩
  · rw [nothing]
    exact paired
  · rw [something]
    exact paired.sent bytes

theorem sends_askTcp : Sends askTcp := by
  intro buffer stdin
  unfold askTcp
  split
  · exact .inl rfl
  · split
    · exact .inr ⟨_, rfl⟩
    · exact .inl rfl

theorem sends_askUdp : Sends askUdp := by
  intro buffer stdin
  unfold askUdp
  split
  · exact .inl rfl
  · split
    · exact .inr ⟨_, rfl⟩
    · exact .inl rfl

theorem paired_client {ask : Ask} (sends : Sends ask) (breaks : Bool)
    (arrivals : List (List UInt8)) (buffer : Block bufSize) (stdin : List UInt8) :
    Paired (client ask breaks arrivals buffer stdin) := by
  induction arrivals generalizing buffer stdin with
  | nil =>
    have alone := Paired.ask sends .nil buffer stdin
    rwa [List.append_nil] at alone
  | cons arrived rest ih =>
    refine .ask sends ?_ buffer stdin
    split
    · exact .nil
    · split
      · rename_i ends
        rw [ends.1]
        exact .single
      · apply Paired.receive
        split
        · exact .nil
        · exact ih _ _

theorem paired_serverUdp (floats : Floats) (arrivals : List (List UInt8))
    (buffer : Block bufSize) : Paired (serverUdp floats arrivals buffer) := by
  induction arrivals generalizing buffer with
  | nil => exact .nil
  | cons arrived rest ih =>
    apply Paired.receive
    split
    · exact .nil
    · exact (ih _).sent _

theorem Program.paired (program : Program) (arrivals : List (List UInt8))
    (buffer : Block bufSize) (stdin : List UInt8) :
    Paired (program.run arrivals buffer stdin) := by
  cases program with
  | serverUdp floats => exact paired_serverUdp floats arrivals buffer
  | clientTcp => exact paired_client sends_askTcp true arrivals buffer stdin
  | clientUdp => exact paired_client sends_askUdp false arrivals buffer stdin

theorem sent_askUdp (sent : .sent datagram ∈ (askUdp buffer stdin).1) :
    datagram.length = bufSize := by
  unfold askUdp at sent
  split at sent
  · cases sent
  · split at sent
    · cases List.mem_singleton.mp sent
      exact Block.length_bytes _
    · cases sent

theorem sent_clientUdp {arrivals : List (List UInt8)} {buffer : Block bufSize}
    {stdin : List UInt8} (sent : .sent datagram ∈ clientUdp arrivals buffer stdin) :
    datagram.length = bufSize := by
  unfold clientUdp at sent
  induction arrivals generalizing buffer stdin with
  | nil => exact sent_askUdp sent
  | cons arrived rest ih =>
    rcases List.mem_append.mp sent with now | later
    · exact sent_askUdp now
    · split at later
      · cases later
      · split at later
        · simp at later
        · split at later
          · simp at later
          · exact ih (by simpa using later)

theorem sent_serverUdp {floats : Floats} {arrivals : List (List UInt8)} {buffer : Block bufSize}
    (sent : .sent datagram ∈ serverUdp floats arrivals buffer) :
    datagram.length = bufSize := by
  induction arrivals generalizing buffer with
  | nil => cases sent
  | cons arrived rest ih =>
    rw [serverUdp] at sent
    split at sent
    · simp at sent
    · simp only [List.mem_cons, reduceCtorEq, Event.sent.injEq, false_or] at sent
      rcases sent with rfl | later
      · exact Block.length_bytes _
      · exact ih later

/-- Whoever receives a whole buffer puts the zero behind its own. -/
theorem terminated_serverUdp {datagram : List UInt8} (whole : datagram.length = bufSize)
    (floats : Floats) (rest : List (List UInt8)) (buffer : Block bufSize) :
    .terminated bufSize ∈ serverUdp floats (datagram :: rest) buffer := by
  rw [serverUdp, List.take_of_length_le (Nat.le_of_eq whole), whole]
  exact List.mem_cons_of_mem _ List.mem_cons_self

theorem terminated_clientUdp {datagram : List UInt8} (whole : datagram.length = bufSize)
    (asked : (askUdp buffer stdin).2 = some waiting) (rest : List (List UInt8)) :
    .terminated bufSize ∈ clientUdp (datagram :: rest) buffer stdin := by
  have some : ¬(datagram = [] ∧ false = true) := fun both => Bool.false_ne_true both.2
  rw [clientUdp, client, asked, List.take_of_length_le (Nat.le_of_eq whole), whole]
  dsimp only
  rw [if_neg some]
  exact List.mem_append_right _ (List.mem_cons_of_mem _ List.mem_cons_self)

/-- A program puts its zeros inside the buffer exactly if whatever it receives has fewer
bytes than the buffer; what the UDP programs send each other never has. -/
theorem terminated_inside_iff (program : Program) (arrivals : List (List UInt8))
    (buffer : Block bufSize) (stdin : List UInt8) :
    ((∀ index, .terminated index ∈ program.run arrivals buffer stdin → index < bufSize) ↔
      ∀ bytes, .received bytes ∈ program.run arrivals buffer stdin → bytes.length < bufSize) ∧
    (∀ datagram, .sent datagram ∈ clientUdp arrivals buffer stdin → ∀ floats rest buffer',
      .terminated bufSize ∈ serverUdp floats (datagram :: rest) buffer') ∧
    ∀ floats datagram, .sent datagram ∈ serverUdp floats arrivals buffer →
      ∀ buffer' stdin' waiting rest, (askUdp buffer' stdin').2 = some waiting →
        .terminated bufSize ∈ clientUdp (datagram :: rest) buffer' stdin' := by
  have paired := program.paired arrivals buffer stdin
  refine ⟨⟨?_, ?_⟩, ?_, ?_⟩
  · intro inside bytes came
    rcases paired.received bytes came with rfl | terminated
    · decide
    · exact inside _ terminated
  · intro short index terminated
    obtain ⟨bytes, came, rfl⟩ := paired.terminated index terminated
    exact short bytes came
  · intro datagram sent floats rest buffer'
    exact terminated_serverUdp (sent_clientUdp sent) floats rest buffer'
  · intro floats datagram sent buffer' stdin' waiting rest asked
    exact terminated_clientUdp (sent_serverUdp sent) asked rest

theorem askUdp_line (buffer : Block bufSize) {line : List UInt8} (nonzero : 0 ∉ line)
    (single : 10 ∉ line) (short : line.length < 1023) (goesOn : line ≠ text "bye")
    (more : List UInt8) :
    ∃ after, askUdp buffer (line ++ 10 :: more) = ([.sent after.bytes], some (after, more)) := by
  have stored := fgets_line single 1023 more
  have left := fgets_left single short more
  rw [List.take_of_length_le (by
    rw [List.length_append, List.length_singleton]
    exact short)] at stored
  have nonempty : line ++ [10] ≠ [] := by simp
  obtain ⟨filled, wrote⟩ := write_some buffer 0 (line ++ [10] ++ [0]) (by
    rw [List.length_append, List.length_append, List.length_singleton, List.length_singleton,
      bufSize]
    omega)
  obtain ⟨after, cut⟩ := write_some filled line.length [0] (by
    rw [List.length_singleton, bufSize]
    omega)
  have bytes : filled.bytes =
      line ++ 10 :: 0 :: buffer.bytes.drop (0 + (line ++ [10] ++ [0]).length) := by
    rw [bytes_write wrote]
    simp
  have newline : strcspn 10 filled.bytes = some line.length := by
    rw [bytes]
    exact strcspn_append nonzero single (.inr rfl) _
  have string : cstring after.bytes = some line := by
    rw [bytes_write cut, bytes, List.take_left, List.append_assoc, cstring_append nonzero]
    simp [cstring]
  have bye : cstring (text "bye" ++ [0]) = some (text "bye") := rfl
  have other : strcmp after.bytes (text "bye" ++ [0]) = some false := by
    rw [strcmp_eq string bye, decide_eq_false goesOn]
  have prompted : prompt buffer (line ++ 10 :: more) = some (after, more) := by
    simp only [prompt, stored, left, if_neg nonempty, wrote, newline, cut, Option.bind_eq_bind,
      Option.bind_some]
  refine ⟨after, ?_⟩
  simp only [askUdp, prompted, other]

/-- The request `i 3` of `square-client-udp` overruns the buffer of `square-server-udp`. -/
theorem request_overruns :
    ∃ datagram, .sent datagram ∈ Program.clientUdp.run [] (.zero _) (text "i 3\n") ∧
      ¬ ∀ index, .terminated index ∈
        (Program.serverUdp wholeFloats).run [datagram] (.zero _) [] → index < bufSize := by
  have line : text "i 3\n" = text "i 3" ++ 10 :: [] := rfl
  obtain ⟨after, asked⟩ := askUdp_line (.zero _) (show 0 ∉ text "i 3" by decide) (by decide)
    (by decide) (by decide) []
  refine ⟨after.bytes, ?_, fun inside => ?_⟩
  · rw [line]
    change _ ∈ (askUdp (.zero _) (text "i 3" ++ 10 :: [])).1
    rw [asked]
    exact List.mem_cons_self
  · exact absurd (inside _ (terminated_serverUdp after.length_bytes wholeFloats [] (.zero _)))
      (Nat.lt_irrefl _)

end CssLab.Square
