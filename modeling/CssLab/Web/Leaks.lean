import CssLab.Lib.Descriptors
import CssLab.Web.Connection

namespace CssLab.Web

open Block Http Words Descriptors

/-- What a descriptor of the server refers to; the connections are numbered by the turns of
`main`'s loop. -/
inductive Held
  | standard
  | listening
  | client (turn : Nat)
  | file (path : List UInt8)
  deriving DecidableEq

/-- What a turn of the loop meets: what has arrived of the request, none where `read` fails,
the files and what was on the stack. The client waits for its answer: `write` does not fail. -/
structure Visit where
  arrived : Option (List UInt8)
  files : Files
  frame : Frame

section Process

variable (webRoot : List UInt8) (limit : Nat)

/-- A new descriptor for the file, if there is one below the limit. -/
def allot (held : Held) (table : Descriptors Held) : Option (Nat × Descriptors Held) :=
  let (fd, after) := place held table
  if fd < limit then some (fd, after) else none

/-- The files that `fopen` can open with these descriptors in use. -/
def openable (table : Descriptors Held) (files : Files) : Files := fun path =>
  if (allot limit (.file path) table).isSome then files path else none

/-- The descriptors of the process, and that of the file that `serve_client` has open. -/
structure Process where
  table : Descriptors Held
  file : Option Nat

def Process.perform (files : Files) (process : Process) : Event → Process
  | .fopen path =>
    match files path, allot limit (.file path) process.table with
    | some _, some (fd, table) => ⟨table, some fd⟩
    | _, _ => process
  | .fclose =>
    match process.file with
    | some fd => ⟨close fd process.table, none⟩
    | none => process
  | .close fd => ⟨close fd process.table, process.file⟩
  | .remove _ => process
  | .write _ _ => process

/-- A turn of the loop; none stands for an `accept` that fails for a reason of its own. -/
def turn (number : Nat) (visit : Option Visit) (table : Descriptors Held) :
    Option (Descriptors Held) :=
  match visit with
  | none => some table
  | some visit =>
    match allot limit (.client number) table with
    | none => some table
    | some (clientSock, table) => do
      let events ← serveClient webRoot (openable limit table visit.files) visit.frame
        visit.arrived clientSock
      some (events.foldl (Process.perform limit visit.files) ⟨table, none⟩).table

/-- The loop from this turn on; none where an array of `serve_client` is overrun. -/
def run (number : Nat) (table : Descriptors Held) : List (Option Visit) → Option (Descriptors Held)
  | [] => some table
  | visit :: rest => do run (number + 1) (← turn webRoot limit number visit table) rest

end Process

/-- `main` when its loop begins. -/
def started : Descriptors Held :=
  [some .standard, some .standard, some .standard, some .listening]

/-- `serve_client` returns without closing the connection. -/
def leaves (webRoot : List UInt8) (files : Files) : Option (List UInt8) → Bool
  | none => true
  | some arrived =>
    match words isspace (seen arrived) with
    | method :: path :: _ =>
      strcasecmp method (text "GET") && (files (snprintf 256 (webRoot ++ path))).isNone
    | _ => false

/-- The turns whose connections stay open, from this turn on and with so many descriptors
free. With the last one no file can be opened. -/
def left (webRoot : List UInt8) (number free : Nat) : List (Option Visit) → List Nat
  | [] => []
  | none :: rest => left webRoot (number + 1) free rest
  | some visit :: rest =>
    if free ≠ 0 ∧
        leaves webRoot (if free = 1 then fun _ => none else visit.files) visit.arrived then
      number :: left webRoot (number + 1) (free - 1) rest
    else left webRoot (number + 1) free rest

theorem left_cons (webRoot : List UInt8) (number free : Nat) (visit : Option Visit)
    (rest : List (Option Visit)) :
    left webRoot number free (visit :: rest) = left webRoot number free [visit] ++
      left webRoot (number + 1) (free - (left webRoot number free [visit]).length) rest := by
  cases visit with
  | none => rfl
  | some visit =>
    by_cases stays : free ≠ 0 ∧
        leaves webRoot (if free = 1 then fun _ => none else visit.files) visit.arrived
    · rw [left, left, if_pos stays, if_pos stays]
      rfl
    · rw [left, left, if_neg stays, if_neg stays]
      rfl

theorem allot_eq_some {table : Descriptors Held} : allot limit held table = some (fd, after) ↔
    place held table = (fd, after) ∧ fd < limit := by
  cases placed : place held table with
  | mk lowest next =>
    simp only [allot, placed]
    by_cases room : lowest < limit
    · rw [if_pos room, Option.some_inj]
      exact ⟨fun same => ⟨same, (Prod.mk.inj same).1 ▸ room⟩, And.left⟩
    · rw [if_neg room]
      refine iff_of_false nofun ?_
      rintro ⟨same, below⟩
      exact room ((Prod.mk.inj same).1 ▸ below)

theorem allot_isSome {table : Descriptors Held} (held : Held) (short : table.length ≤ limit) :
    (allot limit held table).isSome ↔ openCount table < limit := by
  rw [← place_lt_iff held short, allot]
  by_cases room : (place held table).1 < limit
  · simp [room]
  · simp [room]

/-- What a new descriptor changes. -/
structure Allotted (limit : Nat) (held : Held) (table : Descriptors Held) (fd : Nat)
    (after : Descriptors Held) : Prop where
  room : openCount table < limit
  refers : lookup after fd = some held
  opens : ∀ other, Open other after ↔ other = held ∨ Open other table
  closes : ∀ other, lookup (close fd after) other = lookup table other
  count : openCount after = openCount table + 1
  short : after.length ≤ limit

theorem allotted_of_some {table : Descriptors Held} (short : table.length ≤ limit)
    (given : allot limit held table = some (fd, after)) : Allotted limit held table fd after := by
  have room := (allot_isSome held short).mp (Option.isSome_of_eq_some given)
  obtain ⟨placed, below⟩ := allot_eq_some.mp given
  obtain ⟨rfl, rfl⟩ := Prod.mk.inj placed
  exact ⟨room, lookup_place held table, fun _ => open_place, lookup_close_place held table,
    openCount_place held table, length_place below short⟩

/-- The ways in which `serve_client` closes the connection at the end. -/
inductive Closing (files : Files) (clientSock : Nat) : List Event → Prop
  | answers (bytes : List UInt8) : Closing files clientSock
      [.write clientSock bytes, .close clientSock]
  | removes (path : List UInt8) : Closing files clientSock [.remove path, .close clientSock]
  | sends (found : files path = some content) (header body : List UInt8) :
      Closing files clientSock [.fopen path, .fclose, .write clientSock header,
        .write clientSock body, .close clientSock]

section Serve

variable {webRoot : List UInt8} {files : Files} {frame : Frame}

theorem serveMethod_cases {method path : List UInt8}
    (done : serveMethod webRoot files frame method path clientSock = some events) :
    if strcasecmp method (text "GET") && (files (snprintf 256 (webRoot ++ path))).isNone then
      ∃ path, events = [.fopen path] ∧ files path = none
    else Closing files clientSock events := by
  rw [serveMethod] at done
  by_cases get : strcasecmp method (text "GET")
  · rw [if_pos get, serveGet] at done
    rw [get, Bool.true_and]
    cases found : files (snprintf 256 (webRoot ++ path)) with
    | none =>
      rw [found] at done
      cases done
      exact ⟨_, rfl, found⟩
    | some content =>
      rw [found] at done
      obtain ⟨body, -, same⟩ := Option.bind_eq_some_iff.mp done
      cases same
      exact .sends found _ _
  · rw [if_neg get] at done
    rw [Bool.not_eq_true] at get
    rw [get, Bool.false_and]
    split at done
    · cases done
      exact .removes _
    · cases done
      exact .answers _

/-- What it does to the descriptors depends on whether it leaves the connection. -/
theorem serveClient_cases
    (done : serveClient webRoot files frame arrived clientSock = some events) :
    if leaves webRoot files arrived then events = [] ∨ ∃ path, events = [.fopen path] ∧
      files path = none
    else Closing files clientSock events := by
  cases arrived with
  | none =>
    cases done
    exact .inl rfl
  | some arrived =>
    rw [serveClient_some] at done
    match found : words isspace (seen arrived) with
    | [] =>
      simp only [leaves, found] at done ⊢
      cases done
      exact .answers _
    | [method] =>
      simp only [leaves, found] at done ⊢
      split at done
      · cases done
        exact .answers _
      · cases done
    | method :: path :: _ =>
      simp only [leaves, found] at done ⊢
      split at done
      · have ways := serveMethod_cases done
        by_cases leaving :
            strcasecmp method (text "GET") && (files (snprintf 256 (webRoot ++ path))).isNone
        · rw [if_pos leaving] at ways ⊢
          exact .inr ways
        · rw [if_neg leaving] at ways ⊢
          exact ways
      · cases done

end Serve

section Turn

variable {webRoot : List UInt8} {limit : Nat} {table : Descriptors Held}

/-- A connection that is closed leaves all the other descriptors as they were. -/
theorem Closing.performed {files : Files}
    (closing : Closing (openable limit table files) clientSock events)
    (client : lookup table clientSock = some held) (short : table.length ≤ limit) :
    let after := (events.foldl (Process.perform limit files) ⟨table, none⟩).table
    (∀ fd, lookup after fd = if fd = clientSock then none else lookup table fd) ∧
      openCount after + 1 = openCount table ∧ after.length ≤ limit := by
  intro after
  have alone : (∀ fd, lookup (close clientSock table) fd =
      if fd = clientSock then none else lookup table fd) ∧
        openCount (close clientSock table) + 1 = openCount table ∧
        (close clientSock table).length ≤ limit :=
    ⟨lookup_close clientSock table, openCount_close client,
      Nat.le_trans (length_close_le clientSock table) short⟩
  cases closing with
  | answers bytes => exact alone
  | removes path => exact alone
  | sends found header body =>
    rename_i path content
    obtain ⟨free, found⟩ := Option.ite_none_right_eq_some.mp found
    obtain ⟨⟨fd, opened⟩, allotted⟩ := Option.isSome_iff_exists.mp free
    have same : after = close clientSock (close fd opened) := by
      simp only [after, List.foldl_cons, List.foldl_nil, Process.perform, found, allotted]
    have given := allotted_of_some short allotted
    have count : openCount (close fd opened) = openCount table :=
      Nat.succ_inj.mp ((openCount_close given.refers).trans given.count)
    rw [same]
    refine ⟨fun other => ?_, ?_, ?_⟩
    · rw [lookup_close, given.closes]
    · rw [← count]
      exact openCount_close ((given.closes clientSock).trans client)
    · exact Nat.le_trans (length_close_le clientSock _)
        (Nat.le_trans (length_close_le fd opened) given.short)

/-- With the last descriptor a connection takes, no file can be opened. -/
theorem openable_eq (files : Files) (given : Allotted limit held table fd opened) :
    openable limit opened files =
      if limit - openCount table = 1 then fun _ => none else files := by
  funext path
  have room := given.room
  have last : (allot limit (.file path) opened).isSome ↔ limit - openCount table ≠ 1 := by
    rw [allot_isSome _ given.short, given.count]
    omega
  by_cases one : limit - openCount table = 1
  · rw [if_pos one]
    exact if_neg fun isSome => last.mp isSome one
  · rw [if_neg one]
    exact if_pos (last.mpr one)

/-- A connection that is left keeps its descriptor, and nothing else changes. -/
theorem performed_of_leaving {files : Files} (leaving : events = [] ∨ ∃ path,
      events = [.fopen path] ∧ openable limit table files path = none) :
    (events.foldl (Process.perform limit files) ⟨table, none⟩).table = table := by
  rcases leaving with rfl | ⟨path, rfl, missing⟩
  · rfl
  · rw [openable] at missing
    simp only [List.foldl_cons, List.foldl_nil, Process.perform]
    cases allotted : allot limit (.file path) table with
    | none => cases files path <;> rfl
    | some given =>
      rw [allotted, Option.isSome_some, if_pos rfl] at missing
      rw [missing]

/-- One turn: what `left` says of it is what stays open, besides what was open before. -/
theorem turn_left (number : Nat) (visit : Option Visit) (short : table.length ≤ limit)
    (done : turn webRoot limit number visit table = some after) :
    (∀ held, Open held after ↔ Open held table ∨
        ∃ n ∈ left webRoot number (limit - openCount table) [visit], held = .client n) ∧
      openCount after =
        openCount table + (left webRoot number (limit - openCount table) [visit]).length ∧
      after.length ≤ limit := by
  cases visit with
  | none =>
    cases done
    exact ⟨fun held => by simp [left], rfl, short⟩
  | some visit =>
    rw [turn] at done
    cases allotted : allot limit (.client number) table with
    | none =>
      rw [allotted] at done
      cases done
      have full : ¬openCount table < limit := by
        rw [← allot_isSome (.client number) short, allotted]
        nofun
      have nothing : left webRoot number (limit - openCount table) [some visit] = [] :=
        if_neg fun both => both.1 (Nat.sub_eq_zero_of_le (Nat.le_of_not_lt full))
      exact ⟨fun held => by simp [nothing], by rw [nothing]; rfl, short⟩
    | some given =>
      obtain ⟨fd, opened⟩ := given
      rw [allotted] at done
      obtain ⟨events, served, same⟩ := Option.bind_eq_some_iff.mp done
      cases same
      have given := allotted_of_some short allotted
      have free : limit - openCount table ≠ 0 := Nat.sub_ne_zero_of_lt given.room
      have ways := serveClient_cases served
      have told : left webRoot number (limit - openCount table) [some visit] =
          if leaves webRoot (openable limit opened visit.files) visit.arrived then [number]
          else [] := by
        rw [openable_eq visit.files given]
        simp only [left, free, ne_eq, not_false_eq_true, true_and]
      rw [told]
      by_cases leaving : leaves webRoot (openable limit opened visit.files) visit.arrived
      · rw [if_pos leaving] at ways ⊢
        rw [performed_of_leaving ways]
        refine ⟨fun held => ?_, given.count, given.short⟩
        rw [given.opens]
        simp [or_comm]
      · rw [if_neg leaving] at ways ⊢
        obtain ⟨lookups, fewer, short'⟩ := ways.performed given.refers given.short
        refine ⟨fun held => ?_, ?_, short'⟩
        · have same : ∀ other, lookup _ other = lookup table other := fun other =>
            (lookups other).trans ((lookup_close fd opened other).symm.trans (given.closes other))
          simp only [open_iff, same, List.not_mem_nil, false_and, exists_false, or_false]
        · exact Nat.succ_inj.mp (fewer.trans given.count)

end Turn

theorem run_left {visits : List (Option Visit)} (short : table.length ≤ limit)
    (ran : run webRoot limit number table visits = some final) :
    (∀ held, Open held final ↔ Open held table ∨
        ∃ n ∈ left webRoot number (limit - openCount table) visits, held = .client n) ∧
      openCount final =
        openCount table + (left webRoot number (limit - openCount table) visits).length ∧
      final.length ≤ limit := by
  induction visits generalizing number table with
  | nil =>
    cases ran
    exact ⟨fun held => by simp [left], rfl, short⟩
  | cons visit rest ih =>
    obtain ⟨after, done, more⟩ := Option.bind_eq_some_iff.mp ran
    obtain ⟨opens, count, short'⟩ := turn_left number visit short done
    obtain ⟨opens', count', short''⟩ := ih short' more
    rw [left_cons, Nat.sub_sub, ← count]
    refine ⟨fun held => ?_, ?_, short''⟩
    · rw [opens', opens]
      simp only [List.mem_append, or_assoc, or_and_right, exists_or]
    · rw [count', List.length_append]
      omega

/-- Without a descriptor to give, `accept` fails in every turn that follows. -/
theorem run_full (full : ¬openCount table < limit) (short : table.length ≤ limit) (number : Nat)
    (visits : List (Option Visit)) : run webRoot limit number table visits = some table := by
  induction visits generalizing number with
  | nil => rfl
  | cons visit rest ih =>
    have still : turn webRoot limit number visit table = some table := by
      cases visit with
      | none => rfl
      | some visit =>
        have none : allot limit (.client number) table = none := by
          rw [← Option.not_isSome_iff_eq_none, allot_isSome _ short]
          exact full
        rw [turn, none]
    rw [run, still]
    exact ih (number + 1)

/-- In all runs the connections that are never closed are those that `left` counts, the
descriptors in use are theirs and the four of the start, and a connection can be accepted as
long as these are fewer than the limit. Then none is accepted any more, whatever follows. -/
theorem connections_left (webRoot : List UInt8) (limit : Nat) (visits : List (Option Visit))
    (final : Descriptors Held) (room : 4 ≤ limit)
    (ran : run webRoot limit 0 started visits = some final) :
    let stay := left webRoot 0 (limit - 4) visits
    (∀ n, Open (.client n) final ↔ n ∈ stay) ∧ openCount final = 4 + stay.length ∧
      (∀ n, (allot limit (.client n) final).isSome ↔ 4 + stay.length < limit) ∧
      (¬4 + stay.length < limit → ∀ number more,
        run webRoot limit number final more = some final) := by
  intro stay
  have start : started.length ≤ limit := room
  obtain ⟨opens, count, short⟩ := run_left start ran
  have count : openCount final = 4 + stay.length := count
  refine ⟨fun n => ?_, count, fun n => ?_, fun full number more => ?_⟩
  · rw [opens]
    simp [started, Open, stay, openCount]
  · rw [allot_isSome _ short, count]
  · exact run_full (count ▸ full) short number more

/-- Two clients that reset their connections, and six descriptors. -/
theorem connections_left_reset :
    let visit : Visit := ⟨none, fun _ => none, ⟨.zero _, .zero _, .zero _, .zero _⟩⟩
    let final := started ++ [some (.client 0), some (.client 1)]
    run [] 6 0 started [some visit, some visit] = some final ∧
      ∀ number more, run [] 6 number final more = some final := by
  intro visit final
  have ran : run [] 6 0 started [some visit, some visit] = some final := rfl
  obtain ⟨-, -, -, dead⟩ := connections_left [] 6 _ final (by decide) ran
  exact ⟨ran, dead (by decide)⟩

end CssLab.Web
