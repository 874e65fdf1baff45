import CssLab.Lib.Descriptors
import CssLab.Lib.Transition

/-! Unix processes that fork, wait for their children and talk through pipes,
in any order of their steps. -/

namespace CssLab.Unix

/-- The two ends of a pipe. -/
inductive End
  | read
  | write
  deriving DecidableEq

/-- What a descriptor refers to: one that was open at first, a file, or an end
of a pipe, with the label of the call that made the pipe. -/
inductive File (Label : Type*)
  | original (fd : Nat)
  | named (path : String)
  | pipe (id : Nat) (label : Label) (side : End)

def File.isEnd (id : Nat) (side : End) : File Label → Bool
  | .pipe id' _ side' => id' = id && side' = side
  | _ => false

/-- A program as the system calls it makes and what it does with their
results. The labels say which call it is; the program does not see them. A
`fault` is a step that C leaves undefined. -/
inductive Prog (Label : Type*)
  | exit
  | fault
  | fork (label : Label) (child : Prog Label) (parent : Nat → Prog Label)
  | wait (next : Prog Label)
  | pipe (label : Label) (next : Nat → Nat → Prog Label)
  | close (fd : Nat) (next : Prog Label)
  | dup (fd : Nat) (next : Prog Label)
  | openFile (path : String) (next : Prog Label)
  | chdir (path : String) (next : Bool → Prog Label)
  | print (label : Label) (text : String) (next : Prog Label)
  | exec (label : Label) (path : String) (args : List String) (failed : Prog Label)

/-- The next call of a program that has been exec'd, which is one process. -/
inductive Call (Image : Type*)
  | exit
  | close (fd : Nat) (next : Image)
  | write (fd : Nat) (byte : UInt8) (next : Image)
  | read (fd : Nat) (next : Option UInt8 → Image)

/-- The size of a pipe's buffer, the programs there are, and what they do. -/
structure Machine (Image : Type*) where
  capacity : Nat
  load : String → List String → Option Image
  call : Image → Call Image

/-- There is a program for `execv` with these arguments. -/
def Machine.Loads {Image : Type*} (machine : Machine Image) (path : String) (args : List String) :
    Prop :=
  machine.load path args ≠ none

inductive Status (Label Image : Type*)
  | running (prog : Prog Label)
  | image (image : Image)
  | zombie
  | reaped

/-- A process. Only the system knows the labels of the forks that made it and
its ancestors, its own first, and the labels of its calls of `exec`. -/
structure Process (Label Image : Type*) where
  parent : Option Nat
  table : Descriptors (File Label)
  status : Status Label Image
  lineage : List Label
  forked : Option Nat
  became : List Label

/-- A pipe, with the process and the call that made it. -/
structure Pipe (Label : Type*) where
  origin : Nat × Label
  buffer : List UInt8

/-- All processes, by number, and all pipes. Labels are added to `reached` by
each `exec` and `print`, and to `ended` by the exit of what was exec'd. -/
structure System (Label Image : Type*) where
  processes : List (Process Label Image)
  pipes : List (Pipe Label)
  reached : List Label
  ended : List Label

variable {Label Image : Type*}

def Status.isZombie : Status Label Image → Bool
  | .zombie => true
  | _ => false

def Status.isReaped : Status Label Image → Bool
  | .reaped => true
  | _ => false

/-- Whether the process has this end of the pipe open; one that has exited has
nothing open. -/
def Process.holds (id : Nat) (side : End) (process : Process Label Image) : Bool :=
  process.table.any fun entry => entry.any (File.isEnd id side)

namespace System

def set (pid : Nat) (process : Process Label Image) (system : System Label Image) :
    System Label Image :=
  { system with processes := system.processes.set pid process }

/-- One process that runs a program. -/
def boot (prog : Prog Label) (table : Descriptors (File Label)) : System Label Image where
  processes := [{
    parent := none
    table := table
    status := .running prog
    lineage := []
    forked := none
    became := [] }]
  pipes := []
  reached := []
  ended := []

/-- Some process has this end of the pipe open. -/
def held (system : System Label Image) (id : Nat) (side : End) : Bool :=
  system.processes.any (Process.holds id side)

/-- The children of a process that have not been waited for. -/
def unreaped (system : System Label Image) (pid : Nat) : List Nat :=
  (List.range system.processes.length).filter fun child =>
    match system.processes[child]? with
    | some process => process.parent = some pid && !process.status.isReaped
    | none => false

/-- A child whose parent exits is nobody's child any more. -/
def disown (pid : Nat) (process : Process Label Image) : Process Label Image :=
  if process.parent = some pid then { process with parent := none } else process

/-- The exit of a process closes all it has open. -/
def leave (pid : Nat) (process : Process Label Image) (system : System Label Image) :
    System Label Image :=
  { system with
    processes := (system.processes.set pid { process with status := .zombie, table := [] }).map
      (disown pid)
    ended := process.became ++ system.ended }

def fork (pid : Nat) (process : Process Label Image) (label : Label) (child : Prog Label)
    (parent : Nat → Prog Label) (system : System Label Image) : System Label Image :=
  { system with
    processes := system.processes.set pid { process with
        status := .running (parent system.processes.length)
        forked := some system.processes.length } ++
      [{ parent := some pid
         table := process.table
         status := .running child
         lineage := label :: process.lineage
         forked := none
         became := [] }] }

/-- `wait` returns at once without children, and otherwise with one that has exited. -/
def wait (pid : Nat) (process : Process Label Image) (next : Prog Label) (child : Nat)
    (system : System Label Image) : Option (System Label Image) :=
  if system.unreaped pid = [] then some (system.set pid { process with status := .running next })
  else
    match system.processes[child]? with
    | some gone =>
      if gone.parent = some pid ∧ gone.status.isZombie then
        some ((system.set child { gone with status := .reaped }).set pid
          { process with status := .running next })
      else none
    | none => none

/-- `wait` blocks while there are children and none of them has exited. -/
theorem wait_blocked {system : System Label Image} {process gone : Process Label Image}
    {next : Prog Label} {pid child : Nat} (there : system.processes[child]? = some gone)
    (mine : gone.parent = some pid) (unreaped : gone.status.isReaped = false)
    (alive : ∀ other ∈ system.processes, other.parent = some pid →
      other.status.isZombie = false) (answer : Nat) :
    wait pid process next answer system = none := by
  have member : child ∈ system.unreaped pid := by
    simp only [System.unreaped, List.mem_filter, List.mem_range, there, mine, unreaped]
    exact ⟨(List.getElem?_eq_some_iff.mp there).1, by simp⟩
  rw [wait, if_neg (List.ne_nil_of_mem member)]
  split
  · rename_i other found
    refine if_neg fun fair => ?_
    have unexited := alive other (List.mem_of_getElem? found) fair.1
    simp [unexited] at fair
  · rfl

/-- `pipe` opens the read end and then the write end. -/
def pipe (pid : Nat) (process : Process Label Image) (label : Label)
    (next : Nat → Nat → Prog Label) (system : System Label Image) : System Label Image :=
  let id := system.pipes.length
  let (p0, reading) := process.table.place (.pipe id label .read)
  let (p1, table) := reading.place (.pipe id label .write)
  { system with
    processes := system.processes.set pid
      { process with status := .running (next p0 p1), table }
    pipes := system.pipes ++ [⟨(pid, label), []⟩] }

/-- One call of a program; the `answer` is what the program does not decide. -/
def run (machine : Machine Image) (pid answer : Nat) (process : Process Label Image) :
    Prog Label → System Label Image → Option (System Label Image)
  | .exit, system => some (system.leave pid process)
  | .fault, _ => none
  | .fork label child parent, system => some (system.fork pid process label child parent)
  | .wait next, system => system.wait pid process next answer
  | .pipe label next, system => some (system.pipe pid process label next)
  | .close fd next, system =>
    some (system.set pid
      { process with status := .running next, table := process.table.close fd })
  | .dup fd next, system =>
    some (system.set pid { process with status := .running next, table := process.table.dup fd })
  | .openFile path next, system =>
    some (system.set pid
      { process with status := .running next, table := (process.table.place (.named path)).2 })
  | .chdir _ next, system =>
    some (system.set pid { process with status := .running (next (answer == 0)) })
  | .print label _ next, system =>
    some { system.set pid { process with status := .running next } with
      reached := label :: system.reached }
  | .exec label path args failed, system =>
    let became := label :: process.became
    match machine.load path args with
    | some image =>
      some { system.set pid { process with status := .image image, became } with
        reached := label :: system.reached }
    | none => some (system.set pid { process with status := .running failed, became })

theorem run_exec_some {machine : Machine Image} {process : Process Label Image} {image : Image}
    {label : Label} {failed : Prog Label} {system : System Label Image} (pid answer : Nat)
    (found : machine.load path args = some image) :
    run machine pid answer process (.exec label path args failed) system =
      some { system.set pid
          { process with status := .image image, became := label :: process.became } with
        reached := label :: system.reached } := by
  simp only [run, found]

theorem run_exec_none {machine : Machine Image} {process : Process Label Image}
    {label : Label} {failed : Prog Label} {system : System Label Image} (pid answer : Nat)
    (missing : machine.load path args = none) :
    run machine pid answer process (.exec label path args failed) system =
      some (system.set pid
        { process with status := .running failed, became := label :: process.became }) := by
  simp only [run, missing]

/-- What a descriptor gives that is not a pipe. -/
def input (answer : Nat) : Option UInt8 :=
  if answer = 0 then none else some (UInt8.ofNat answer)

/-- One call of an exec'd program. A write to a pipe that nobody reads kills
its process; one to a full pipe and a read of an empty one that somebody writes block. -/
def runImage (machine : Machine Image) (pid answer : Nat) (process : Process Label Image)
    (image : Image) (system : System Label Image) : Option (System Label Image) :=
  match machine.call image with
  | .exit => some (system.leave pid process)
  | .close fd next =>
    some (system.set pid { process with status := .image next, table := process.table.close fd })
  | .write fd byte next =>
    match process.table.lookup fd with
    | some (.pipe id _ .write) =>
      match system.pipes[id]? with
      | some pipe =>
        if system.held id .read = false then some (system.leave pid process)
        else if pipe.buffer.length < machine.capacity then
          some { system.set pid { process with status := .image next } with
            pipes := system.pipes.set id { pipe with buffer := pipe.buffer ++ [byte] } }
        else none
      | none => none
    | _ => some (system.set pid { process with status := .image next })
  | .read fd next =>
    match process.table.lookup fd with
    | some (.pipe id _ .read) =>
      match system.pipes[id]? with
      | some pipe =>
        match pipe.buffer with
        | byte :: rest =>
          some { system.set pid { process with status := .image (next (some byte)) } with
            pipes := system.pipes.set id { pipe with buffer := rest } }
        | [] =>
          if system.held id .write then none
          else some (system.set pid { process with status := .image (next none) })
      | none => none
    | _ => some (system.set pid { process with status := .image (next (input answer)) })

theorem runImage_write {machine : Machine Image} {process : Process Label Image} {id : Nat}
    {label : Label} {pipe : Pipe Label} {system : System Label Image}
    (called : machine.call image = .write fd byte next)
    (file : process.table.lookup fd = some (.pipe id label .write))
    (found : system.pipes[id]? = some pipe) (read : system.held id .read = true)
    (pid answer : Nat) :
    runImage machine pid answer process image system =
      if pipe.buffer.length < machine.capacity then
        some { system.set pid { process with status := .image next } with
          pipes := system.pipes.set id { pipe with buffer := pipe.buffer ++ [byte] } }
      else none := by
  simp [runImage, called, file, found, read]

theorem runImage_read_cons {machine : Machine Image} {process : Process Label Image} {id : Nat}
    {label : Label} {pipe : Pipe Label} {system : System Label Image}
    (called : machine.call image = .read fd next)
    (file : process.table.lookup fd = some (.pipe id label .read))
    (found : system.pipes[id]? = some pipe) (filled : pipe.buffer = byte :: rest)
    (pid answer : Nat) :
    runImage machine pid answer process image system =
      some { system.set pid { process with status := .image (next (some byte)) } with
        pipes := system.pipes.set id { pipe with buffer := rest } } := by
  simp [runImage, called, file, found, filled]

/-- A read of an empty pipe waits while somebody can write it, and is at its end then. -/
theorem runImage_read_nil {machine : Machine Image} {process : Process Label Image} {id : Nat}
    {label : Label} {pipe : Pipe Label} {system : System Label Image}
    (called : machine.call image = .read fd next)
    (file : process.table.lookup fd = some (.pipe id label .read))
    (found : system.pipes[id]? = some pipe) (drained : pipe.buffer = []) (pid answer : Nat) :
    runImage machine pid answer process image system =
      if system.held id .write then none
      else some (system.set pid { process with status := .image (next none) }) := by
  simp [runImage, called, file, found, drained]

/-- One step of one process. -/
def step (machine : Machine Image) (system : System Label Image) (event : Nat × Nat) :
    Option (System Label Image) :=
  match system.processes[event.1]? with
  | some process =>
    match process.status with
    | .running prog => system.run machine event.1 event.2 process prog
    | .image image => system.runImage machine event.1 event.2 process image
    | _ => none
  | none => none

/-- What a step of a process can do to the system. -/
inductive Steps (machine : Machine Image) (system : System Label Image) (pid : Nat)
    (process : Process Label Image) : System Label Image → Prop
  | leave (ended : process.status = .running .exit ∨ ∃ image, process.status = .image image) :
      Steps machine system pid process (system.leave pid process)
  | fork (here : process.status = .running (.fork label child parent)) :
      Steps machine system pid process (system.fork pid process label child parent)
  | alone (here : process.status = .running (.wait next)) (childless : system.unreaped pid = []) :
      Steps machine system pid process (system.set pid { process with status := .running next })
  | reap (here : process.status = .running (.wait next)) (child : Nat)
      (gone : Process Label Image) (there : system.processes[child]? = some gone)
      (mine : gone.parent = some pid) (exited : gone.status.isZombie) :
      Steps machine system pid process ((system.set child { gone with status := .reaped }).set pid
        { process with status := .running next })
  | pipe (here : process.status = .running (.pipe label next)) :
      Steps machine system pid process (system.pipe pid process label next)
  | close (here : process.status = .running (.close fd next)) :
      Steps machine system pid process (system.set pid
        { process with status := .running next, table := process.table.close fd })
  | dup (here : process.status = .running (.dup fd next)) :
      Steps machine system pid process (system.set pid
        { process with status := .running next, table := process.table.dup fd })
  | openFile (here : process.status = .running (.openFile path next)) :
      Steps machine system pid process (system.set pid
        { process with status := .running next, table := (process.table.place (.named path)).2 })
  | chdir (here : process.status = .running (.chdir path next)) (done : Bool) :
      Steps machine system pid process (system.set pid
        { process with status := .running (next done) })
  | print (here : process.status = .running (.print label text next)) :
      Steps machine system pid process
        { system.set pid { process with status := .running next } with
          reached := label :: system.reached }
  | exec (here : process.status = .running (.exec label path args failed)) (image : Image) :
      Steps machine system pid process
        { system.set pid
            { process with status := .image image, became := label :: process.became } with
          reached := label :: system.reached }
  | execFailed (here : process.status = .running (.exec label path args failed))
      (missing : machine.load path args = none) :
      Steps machine system pid process (system.set pid
        { process with status := .running failed, became := label :: process.became })
  | image (here : process.status = .image image) (next : Image)
      (table : Descriptors (File Label))
      (kept : ∀ file, table.Open file → process.table.Open file)
      (pipes : List (Pipe Label)) (origins : pipes.map Pipe.origin = system.pipes.map Pipe.origin) :
      Steps machine system pid process
        { system.set pid { process with status := .image next, table } with pipes }

theorem steps_of_run (here : process.status = .running prog)
    (ran : run machine pid answer process prog system = some after) :
    Steps machine system pid process after := by
  cases prog with
  | exit =>
    cases ran
    exact .leave (Or.inl here)
  | fault => cases ran
  | fork label child parent =>
    cases ran
    exact .fork here
  | wait next =>
    simp only [run, wait] at ran
    split at ran
    · rename_i childless
      cases ran
      exact .alone here childless
    · split at ran
      · rename_i gone there
        split at ran
        · rename_i fair
          cases ran
          exact .reap here answer gone there fair.1 fair.2
        · cases ran
      · cases ran
  | pipe label next =>
    cases ran
    exact .pipe here
  | close fd next =>
    cases ran
    exact .close here
  | dup fd next =>
    cases ran
    exact .dup here
  | openFile path next =>
    cases ran
    exact .openFile here
  | chdir path next =>
    cases ran
    exact .chdir here _
  | print label text next =>
    cases ran
    exact .print here
  | exec label path args failed =>
    simp only [run] at ran
    split at ran
    · cases ran
      exact .exec here _
    · cases ran
      exact .execFailed here ‹_›

/-- Where one process was replaced, a process found is the new one or an old one elsewhere. -/
theorem found_set {processes : List (Process Label Image)} {process there : Process Label Image}
    {pid other : Nat} (found : (processes.set pid process)[other]? = some there) :
    other = pid ∧ there = process ∨ other ≠ pid ∧ processes[other]? = some there := by
  rw [List.getElem?_set] at found
  split at found
  · rename_i own
    split at found
    · exact Or.inl ⟨own.symm, (Option.some.inj found).symm⟩
    · cases found
  · rename_i apart
    exact Or.inr ⟨Ne.symm apart, found⟩

/-- Where one process was added, a process found is an old one or the last. -/
theorem found_append {processes : List (Process Label Image)} {new there : Process Label Image}
    {pid : Nat} (found : (processes ++ [new])[pid]? = some there) :
    processes[pid]? = some there ∨ pid = processes.length ∧ there = new := by
  rw [List.getElem?_append] at found
  split at found
  · exact Or.inl found
  · rename_i beyond
    right
    have last : pid - processes.length = 0 := by
      by_contra more
      rw [List.getElem?_eq_none (by simp; omega)] at found
      cases found
    rw [last] at found
    exact ⟨by omega, (Option.some.inj found).symm⟩

theorem Steps.image_next (machine : Machine Image) {system : System Label Image}
    {process : Process Label Image} {current : Image} (here : process.status = .image current)
    (next : Image) :
    Steps machine system pid process (system.set pid { process with status := .image next }) :=
  .image here next process.table (fun _ present => present) system.pipes rfl

theorem origins_set {pipes : List (Pipe Label)} {id : Nat} {pipe : Pipe Label}
    (found : pipes[id]? = some pipe) (buffer : List UInt8) :
    (pipes.set id { pipe with buffer }).map Pipe.origin = pipes.map Pipe.origin := by
  apply List.ext_getElem?
  intro other
  by_cases same : id = other
  · subst same
    obtain ⟨present, same⟩ := List.getElem?_eq_some_iff.mp found
    simp [present, same]
  · simp [same]

theorem steps_of_runImage (here : process.status = .image image)
    (ran : runImage machine pid answer process image system = some after) :
    Steps machine system pid process after := by
  unfold runImage at ran
  split at ran
  · cases ran
    exact .leave (Or.inr ⟨image, here⟩)
  · rename_i fd next called
    cases ran
    exact .image here next _ (fun _ still => Descriptors.open_close still) system.pipes rfl
  · rename_i fd byte next called
    split at ran
    · split at ran
      · rename_i pipe found
        split at ran
        · cases ran
          exact .leave (Or.inr ⟨image, here⟩)
        · split at ran
          · cases ran
            exact .image here next process.table (fun _ present => present) _ (origins_set found _)
          · cases ran
      · cases ran
    · cases ran
      exact .image_next machine here next
  · rename_i fd next called
    split at ran
    · split at ran
      · rename_i pipe found
        split at ran
        · rename_i byte rest filled
          cases ran
          exact .image here _ process.table (fun _ present => present) _ (origins_set found _)
        · split at ran
          · cases ran
          · cases ran
            exact .image_next machine here _
      · cases ran
    · cases ran
      exact .image_next machine here _

theorem steps_of_step (stepped : step machine system (pid, answer) = some after) :
    ∃ process, system.processes[pid]? = some process ∧
      Steps machine system pid process after := by
  unfold step at stepped
  split at stepped
  · rename_i process found
    refine ⟨process, found, ?_⟩
    split at stepped
    · rename_i prog here
      exact steps_of_run here stepped
    · rename_i image here
      exact steps_of_runImage here stepped
    · cases stepped
  · cases stepped

end System

end CssLab.Unix
