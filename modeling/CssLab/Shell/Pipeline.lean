import CssLab.Shell.Run
import Mathlib.Data.List.Induction

namespace CssLab.Shell

open Unix Transition

/-- The atoms of a pipeline: one that has bytes left to write to descriptor 1,
and one that reads descriptor 0 up to its end. -/
inductive Stage
  | writer (rest : List UInt8)
  | reader (received : List UInt8)
  | done (received : List UInt8)
  deriving DecidableEq

def Stage.call : Stage → Call Stage
  | .writer [] => .exit
  | .writer (byte :: rest) => .write 1 byte (.writer rest)
  | .reader received => .read 0 fun
    | some byte => .reader (received ++ [byte])
    | none => .done received
  | .done _ => .exit

/-- What an atom becomes when `Cmd_run` looks for it in its two directories, with words that
have room in the arrays. -/
def Becomes (load : String → List String → Option Stage) (word : String) (args : List String)
    (stage : Stage) : Prop :=
  (word :: args).length ≤ 9 ∧
    (word.utf8ByteSize ≤ 44 ∧ load ("/bin/" ++ word) (word :: args) = some stage ∨
      word.utf8ByteSize ≤ 40 ∧ load ("/bin/" ++ word) (word :: args) = none ∧
        load ("/usr/bin/" ++ word) (word :: args) = some stage)

/-- A pipeline `left | right` in which `left` writes the data and `right` reads. -/
structure Pipeline where
  capacity : Nat
  load : String → List String → Option Stage
  line : Nat
  left : String
  leftArgs : List String
  right : String
  rightArgs : List String
  data : List UInt8
  writes : Becomes load left leftArgs (.writer data)
  reads : Becomes load right rightArgs (.reader [])

namespace Pipeline

variable (pipeline : Pipeline)

def machine : Machine Stage := ⟨pipeline.capacity, pipeline.load, Stage.call⟩

def leftAtom : Cmd := .atom pipeline.left pipeline.leftArgs

def rightAtom : Cmd := .atom pipeline.right pipeline.rightArgs

def cmd : Cmd := .pipe pipeline.leftAtom pipeline.rightAtom

/-- The process of the shell that runs the pipeline, before its first call. -/
def start : System Label Stage := System.boot (cmdRun pipeline.line [] pipeline.cmd) standard

/-- The right side has received all the data, and the end of it. -/
def Received (system : System Label Stage) : Prop :=
  ∃ (pid : Nat) (process : Process Label Stage), system.processes[pid]? = some process ∧
    process.status = .image (.done pipeline.data)

/-- Until the data is received some process can take a step. -/
def Flows : Prop :=
  ∀ system,
    ReachableBefore (System.step pipeline.machine) (Received pipeline) pipeline.start system →
    ∃ event, (System.step pipeline.machine system event).isSome

def node : Label := .node pipeline.line [] pipeline.cmd

def readEnd : File Label := .pipe 0 pipeline.node .read

def writeEnd : File Label := .pipe 0 pipeline.node .write

/-- The label of a side, under which its process is forked. -/
def task (side : Side) (atom : Cmd) : Label := .node pipeline.line [⟨pipeline.cmd, side⟩] atom

/-- A child of the shell's process. -/
def child (side : Side) (atom : Cmd) (table : Descriptors (File Label))
    (status : Status Label Stage) (became : List Label) : Process Label Stage where
  parent := some 0
  table := table
  status := status
  lineage := [pipeline.task side atom]
  forked := none
  became := became

/-- What a side does once its descriptors are in place. -/
def execs (side : Side) (atom : Cmd) : Prog Label :=
  cmdRun pipeline.line [⟨pipeline.cmd, side⟩] atom

/-- The same after the first `execv` has failed. -/
def again (side : Side) (word : String) (args : List String) : Prog Label :=
  .exec (pipeline.task side (.atom word args)) ("/usr/bin/" ++ word) (word :: args) <|
  .print (pipeline.task side (.atom word args)) "cannot run command, check your input.\n" <|
  .exit

def rightProg : Prog Label :=
  .close 0 <| .dup 3 <| .close 3 <| .close 4 <| pipeline.execs .right pipeline.rightAtom

def leftProg : Prog Label :=
  .close 1 <| .dup 4 <| .close 3 <| .close 4 <| pipeline.execs .left pipeline.leftAtom

/-- What the shell's process does when the left side has been forked. -/
def mainProg : Prog Label :=
  .wait <|
  .fork (pipeline.task .right pipeline.rightAtom) pipeline.rightProg fun _ =>
  .close 3 <| .close 4 <| .wait .exit

def mainProcess (table : Descriptors (File Label)) (prog : Prog Label) (forked : Option Nat) :
    Process Label Stage where
  parent := none
  table := table
  status := .running prog
  lineage := []
  forked := forked
  became := []

/-- The descriptors when the pipe has been made. -/
def between : Descriptors (File Label) :=
  [some (.original 0), some (.original 1), some (.original 2), some pipeline.readEnd,
    some pipeline.writeEnd]

/-- The left side when it writes. -/
def writing (rest : List UInt8) (became : List Label) : Process Label Stage :=
  pipeline.child .left pipeline.leftAtom
    [some (.original 0), some pipeline.writeEnd, some (.original 2)] (.image (.writer rest)) became

/-- The right side when it reads. -/
def reading (received : List UInt8) (became : List Label) : Process Label Stage :=
  pipeline.child .right pipeline.rightAtom
    [some pipeline.readEnd, some (.original 1), some (.original 2)] (.image (.reader received))
    became

/-- The left side, with what it has left in the pipe. -/
inductive LeftAt : List UInt8 → Process Label Stage → Prop
  | start : LeftAt []
      (pipeline.child .left pipeline.leftAtom pipeline.between (.running pipeline.leftProg) [])
  | closed : LeftAt []
      (pipeline.child .left pipeline.leftAtom
        [some (.original 0), none, some (.original 2), some pipeline.readEnd,
          some pipeline.writeEnd]
        (.running (.dup 4 <| .close 3 <| .close 4 <| pipeline.execs .left pipeline.leftAtom)) [])
  | placed : LeftAt []
      (pipeline.child .left pipeline.leftAtom
        [some (.original 0), some pipeline.writeEnd, some (.original 2), some pipeline.readEnd,
          some pipeline.writeEnd]
        (.running (.close 3 <| .close 4 <| pipeline.execs .left pipeline.leftAtom)) [])
  | unread : LeftAt []
      (pipeline.child .left pipeline.leftAtom
        [some (.original 0), some pipeline.writeEnd, some (.original 2), none,
          some pipeline.writeEnd]
        (.running (.close 4 <| pipeline.execs .left pipeline.leftAtom)) [])
  | ready : LeftAt []
      (pipeline.child .left pipeline.leftAtom
        [some (.original 0), some pipeline.writeEnd, some (.original 2)]
        (.running (pipeline.execs .left pipeline.leftAtom)) [])
  | retry (loads : pipeline.load ("/usr/bin/" ++ pipeline.left)
        (pipeline.left :: pipeline.leftArgs) = some (.writer pipeline.data)) :
      LeftAt []
        (pipeline.child .left pipeline.leftAtom
          [some (.original 0), some pipeline.writeEnd, some (.original 2)]
          (.running (pipeline.again .left pipeline.left pipeline.leftArgs))
          [pipeline.task .left pipeline.leftAtom])
  | writing (written rest : List UInt8) (parts : written ++ rest = pipeline.data)
      (became : List Label) :
      LeftAt written (pipeline.writing rest became)

/-- The right side, with what is left for it in the pipe. -/
inductive RightAt : List UInt8 → Process Label Stage → Prop
  | start : RightAt pipeline.data
      (pipeline.child .right pipeline.rightAtom pipeline.between (.running pipeline.rightProg) [])
  | closed : RightAt pipeline.data
      (pipeline.child .right pipeline.rightAtom
        [none, some (.original 1), some (.original 2), some pipeline.readEnd,
          some pipeline.writeEnd]
        (.running (.dup 3 <| .close 3 <| .close 4 <| pipeline.execs .right pipeline.rightAtom)) [])
  | placed : RightAt pipeline.data
      (pipeline.child .right pipeline.rightAtom
        [some pipeline.readEnd, some (.original 1), some (.original 2), some pipeline.readEnd,
          some pipeline.writeEnd]
        (.running (.close 3 <| .close 4 <| pipeline.execs .right pipeline.rightAtom)) [])
  | single : RightAt pipeline.data
      (pipeline.child .right pipeline.rightAtom
        [some pipeline.readEnd, some (.original 1), some (.original 2), none,
          some pipeline.writeEnd]
        (.running (.close 4 <| pipeline.execs .right pipeline.rightAtom)) [])
  | ready : RightAt pipeline.data
      (pipeline.child .right pipeline.rightAtom
        [some pipeline.readEnd, some (.original 1), some (.original 2)]
        (.running (pipeline.execs .right pipeline.rightAtom)) [])
  | retry (loads : pipeline.load ("/usr/bin/" ++ pipeline.right)
        (pipeline.right :: pipeline.rightArgs) = some (.reader [])) :
      RightAt pipeline.data
        (pipeline.child .right pipeline.rightAtom
          [some pipeline.readEnd, some (.original 1), some (.original 2)]
          (.running (pipeline.again .right pipeline.right pipeline.rightArgs))
          [pipeline.task .right pipeline.rightAtom])
  | reading (received rest : List UInt8) (parts : received ++ rest = pipeline.data)
      (became : List Label) :
      RightAt rest (pipeline.reading received became)

/-- The shell's process beside the right side. -/
inductive MainAt : Process Label Stage → Prop
  | start : MainAt
      (mainProcess pipeline.between (.close 3 <| .close 4 <| .wait .exit) (some 2))
  | unread : MainAt
      (mainProcess [some (.original 0), some (.original 1), some (.original 2), none,
        some pipeline.writeEnd] (.close 4 <| .wait .exit) (some 2))
  | waiting : MainAt
      (mainProcess [some (.original 0), some (.original 1), some (.original 2)]
        (.wait .exit) (some 2))

def pipe (buffer : List UInt8) : Pipe Label := ⟨(0, pipeline.node), buffer⟩

/-- The left side when it has exited. -/
def gone (status : Status Label Stage) (became : List Label) : Process Label Stage :=
  pipeline.child .left pipeline.leftAtom [] status became

/-- The shell's process waits for the left side. -/
def besideLeft (process : Process Label Stage) (buffer : List UInt8)
    (reached ended : List Label) : System Label Stage :=
  ⟨[mainProcess pipeline.between pipeline.mainProg (some 1), process], [pipeline.pipe buffer],
    reached, ended⟩

/-- The left side has exited and the right side has been forked. -/
def besideRight (main process : Process Label Stage) (buffer : List UInt8)
    (became reached ended : List Label) : System Label Stage :=
  ⟨[main, pipeline.gone .reaped became, process], [pipeline.pipe buffer], reached, ended⟩

/-- All states of the pipeline until its data is received. -/
inductive Phase : System Label Stage → Prop
  | start (reached ended : List Label) :
      Phase ⟨[mainProcess standard (cmdRun pipeline.line [] pipeline.cmd) none], [], reached,
        ended⟩
  | made (reached ended : List Label) :
      Phase ⟨[mainProcess pipeline.between
        (.fork (pipeline.task .left pipeline.leftAtom) pipeline.leftProg
          fun _ => pipeline.mainProg) none], [pipeline.pipe []], reached, ended⟩
  | left (buffer : List UInt8) (process : Process Label Stage)
      (here : pipeline.LeftAt buffer process) (reached ended : List Label) :
      Phase (pipeline.besideLeft process buffer reached ended)
  | written (became reached ended : List Label) :
      Phase (pipeline.besideLeft (pipeline.gone .zombie became) pipeline.data reached ended)
  | waited (became reached ended : List Label) :
      Phase ⟨[mainProcess pipeline.between
          (.fork (pipeline.task .right pipeline.rightAtom) pipeline.rightProg fun _ =>
            .close 3 <| .close 4 <| .wait .exit) (some 1),
        pipeline.gone .reaped became], [pipeline.pipe pipeline.data], reached, ended⟩
  | right (main : Process Label Stage) (there : pipeline.MainAt main) (buffer : List UInt8)
      (process : Process Label Stage) (here : pipeline.RightAt buffer process)
      (became reached ended : List Label) :
      Phase (pipeline.besideRight main process buffer became reached ended)

variable {pipeline : Pipeline} {system after : System Label Stage} {answer : Nat}

theorem start_phase : pipeline.Phase pipeline.start := .start [] []

/-- A write succeeds while the pipe has room: the shell's process can read it. -/
theorem write_step (byte : UInt8) (rest buffer : List UInt8) (became reached ended : List Label)
    (answer : Nat) :
    System.step pipeline.machine
        (pipeline.besideLeft (pipeline.writing (byte :: rest) became) buffer reached ended)
        (1, answer) =
      if buffer.length < pipeline.capacity then
        some (pipeline.besideLeft (pipeline.writing rest became) (buffer ++ [byte]) reached ended)
      else none := by
  let before := pipeline.besideLeft (pipeline.writing (byte :: rest) became) buffer reached ended
  have called : pipeline.machine.call (.writer (byte :: rest)) = .write 1 byte (.writer rest) := rfl
  have file : (pipeline.writing (byte :: rest) became).table.lookup 1 =
      some (.pipe 0 pipeline.node .write) := rfl
  have found : before.pipes[0]? = some (pipeline.pipe buffer) := rfl
  have read : before.held 0 .read = true := rfl
  exact System.runImage_write called file found read 1 answer

theorem read_step (main : Process Label Stage) (byte : UInt8) (rest received : List UInt8)
    (became became' reached ended : List Label) (answer : Nat) :
    System.step pipeline.machine
        (pipeline.besideRight main (pipeline.reading received became') (byte :: rest) became
          reached ended) (2, answer) =
      some (pipeline.besideRight main (pipeline.reading (received ++ [byte]) became') rest became
        reached ended) := by
  have called : pipeline.machine.call (.reader received) = .read 0 fun
    | some byte => .reader (received ++ [byte])
    | none => .done received := rfl
  have file : (pipeline.reading received became').table.lookup 0 =
      some (.pipe 0 pipeline.node .read) := rfl
  have found : (pipeline.besideRight main (pipeline.reading received became') (byte :: rest)
      became reached ended).pipes[0]? = some (pipeline.pipe (byte :: rest)) := rfl
  exact System.runImage_read_cons called file found rfl 2 answer

/-- With the pipe empty the right side waits until the shell's process has
closed its write end. -/
theorem end_step (main : Process Label Stage) (became became' reached ended : List Label)
    (answer : Nat) :
    System.step pipeline.machine
        (pipeline.besideRight main (pipeline.reading pipeline.data became') [] became reached ended)
        (2, answer) =
      if main.holds 0 .write then none
      else some (pipeline.besideRight main (pipeline.child .right pipeline.rightAtom
        [some pipeline.readEnd, some (.original 1), some (.original 2)]
        (.image (.done pipeline.data)) became') [] became reached ended) := by
  let before :=
    pipeline.besideRight main (pipeline.reading pipeline.data became') [] became reached ended
  have called : pipeline.machine.call (.reader pipeline.data) = .read 0 fun
    | some byte => .reader (pipeline.data ++ [byte])
    | none => .done pipeline.data := rfl
  have file : (pipeline.reading pipeline.data became').table.lookup 0 =
      some (.pipe 0 pipeline.node .read) := rfl
  have found : before.pipes[0]? = some (pipeline.pipe []) := rfl
  have held : before.held 0 .write = (main.holds 0 .write || false) := rfl
  rw [Bool.or_false] at held
  rw [← held]
  exact System.runImage_read_nil called file found rfl 2 answer

theorem LeftAt.alive {buffer : List UInt8} {process : Process Label Stage}
    (here : pipeline.LeftAt buffer process) :
    process.parent = some 0 ∧ process.status.isReaped = false ∧
      process.status.isZombie = false := by
  cases here <;> exact ⟨rfl, rfl, rfl⟩

theorem RightAt.alive {buffer : List UInt8} {process : Process Label Stage}
    (here : pipeline.RightAt buffer process) :
    process.parent = some 0 ∧ process.status.isReaped = false ∧
      process.status.isZombie = false := by
  cases here <;> exact ⟨rfl, rfl, rfl⟩

theorem execs_eq (side : Side) {word : String} {args : List String}
    (nine : (word :: args).length ≤ 9) (short : word.utf8ByteSize ≤ 44) :
    pipeline.execs side (.atom word args) =
      .exec (pipeline.task side (.atom word args)) ("/bin/" ++ word) (word :: args)
        (cmdRunUsrBin (pipeline.task side (.atom word args)) word args) :=
  cmdRun_atom pipeline.line [⟨pipeline.cmd, side⟩] nine short

theorem execs_eq_again (side : Side) {word : String} {args : List String}
    (nine : (word :: args).length ≤ 9) (short : word.utf8ByteSize ≤ 40) :
    pipeline.execs side (.atom word args) =
      .exec (pipeline.task side (.atom word args)) ("/bin/" ++ word) (word :: args)
        (pipeline.again side word args) := by
  rw [execs_eq side nine (Nat.le_trans short (by decide)), cmdRunUsrBin_short _ short]
  rfl

/-- The left side goes on, or exits when it has written all its data. -/
theorem LeftAt.step {buffer : List UInt8} {process : Process Label Stage}
    (here : pipeline.LeftAt buffer process) {reached ended : List Label}
    (stepped : System.step pipeline.machine (pipeline.besideLeft process buffer reached ended)
      (1, answer) = some after) :
    pipeline.Phase after := by
  cases here with
  | start =>
    cases stepped
    exact .left _ _ .closed _ _
  | closed =>
    cases stepped
    exact .left _ _ .placed _ _
  | placed =>
    cases stepped
    exact .left _ _ .unread _ _
  | unread =>
    cases stepped
    exact .left _ _ .ready _ _
  | ready =>
    obtain ⟨nine, ⟨short, found⟩ | ⟨short, missing, found⟩⟩ := pipeline.writes
    · rw [leftAtom, execs_eq .left nine short] at stepped
      obtain rfl := Option.some.inj ((System.run_exec_some 1 answer found).symm.trans stepped)
      exact .left _ _ (.writing [] _ rfl _) _ _
    · rw [leftAtom, execs_eq_again .left nine short] at stepped
      obtain rfl := Option.some.inj ((System.run_exec_none 1 answer missing).symm.trans stepped)
      exact .left _ _ (.retry found) _ _
  | retry loads =>
    obtain rfl := Option.some.inj ((System.run_exec_some 1 answer loads).symm.trans stepped)
    exact .left _ _ (.writing [] _ rfl _) _ _
  | writing _ rest parts became =>
    cases rest with
    | nil =>
      rw [List.append_nil] at parts
      subst parts
      cases stepped
      exact .written _ _ _
    | cons byte rest =>
      rw [write_step] at stepped
      split at stepped
      · cases stepped
        exact .left _ _ (.writing _ rest (by rw [← parts, List.append_assoc]; rfl) _) _ _
      · cases stepped

/-- The right side goes on, or receives the end of the data. -/
theorem RightAt.step {buffer : List UInt8} {main process : Process Label Stage}
    (there : pipeline.MainAt main) (here : pipeline.RightAt buffer process)
    {became reached ended : List Label}
    (stepped : System.step pipeline.machine
      (pipeline.besideRight main process buffer became reached ended) (2, answer) = some after) :
    pipeline.Phase after ∨ pipeline.Received after := by
  cases here with
  | start =>
    cases stepped
    exact Or.inl (.right _ there _ _ .closed _ _ _)
  | closed =>
    cases stepped
    exact Or.inl (.right _ there _ _ .placed _ _ _)
  | placed =>
    cases stepped
    exact Or.inl (.right _ there _ _ .single _ _ _)
  | single =>
    cases stepped
    exact Or.inl (.right _ there _ _ .ready _ _ _)
  | ready =>
    obtain ⟨nine, ⟨short, found⟩ | ⟨short, missing, found⟩⟩ := pipeline.reads
    · rw [rightAtom, execs_eq .right nine short] at stepped
      obtain rfl := Option.some.inj ((System.run_exec_some 2 answer found).symm.trans stepped)
      exact Or.inl (.right _ there _ _ (.reading [] _ rfl _) _ _ _)
    · rw [rightAtom, execs_eq_again .right nine short] at stepped
      obtain rfl := Option.some.inj ((System.run_exec_none 2 answer missing).symm.trans stepped)
      exact Or.inl (.right _ there _ _ (.retry found) _ _ _)
  | retry loads =>
    obtain rfl := Option.some.inj ((System.run_exec_some 2 answer loads).symm.trans stepped)
    exact Or.inl (.right _ there _ _ (.reading [] _ rfl _) _ _ _)
  | reading received _ parts became' =>
    cases buffer with
    | cons byte rest =>
      rw [read_step] at stepped
      cases stepped
      exact Or.inl (.right _ there _ _
        (.reading _ rest (by rw [← parts, List.append_assoc]; rfl) _) _ _ _)
    | nil =>
      rw [List.append_nil] at parts
      subst parts
      rw [end_step] at stepped
      split at stepped
      · cases stepped
      · cases stepped
        exact Or.inr ⟨2, _, rfl, rfl⟩

/-- While the left side is there, the wait for it blocks. -/
theorem LeftAt.wait {buffer : List UInt8} {process : Process Label Stage}
    (here : pipeline.LeftAt buffer process) (reached ended : List Label) (answer : Nat) :
    System.step pipeline.machine (pipeline.besideLeft process buffer reached ended) (0, answer) =
      none := by
  obtain ⟨mine, unreaped, alive⟩ := here.alive
  have found : (pipeline.besideLeft process buffer reached ended).processes[1]? =
      some process := rfl
  refine System.wait_blocked found mine unreaped ?_ answer
  simp only [besideLeft, List.mem_cons, List.not_mem_nil, or_false]
  rintro other (rfl | rfl) own
  · cases own
  · exact alive

theorem RightAt.wait {buffer : List UInt8} {process : Process Label Stage}
    (here : pipeline.RightAt buffer process) (became reached ended : List Label) (answer : Nat) :
    System.step pipeline.machine
      (pipeline.besideRight (mainProcess [some (.original 0), some (.original 1),
        some (.original 2)] (.wait .exit) (some 2)) process buffer became reached ended)
      (0, answer) = none := by
  obtain ⟨mine, unreaped, alive⟩ := here.alive
  have found : (pipeline.besideRight (mainProcess [some (.original 0), some (.original 1),
      some (.original 2)] (.wait .exit) (some 2)) process buffer became reached
        ended).processes[2]? = some process := rfl
  refine System.wait_blocked found mine unreaped ?_ answer
  simp only [besideRight, List.mem_cons, List.not_mem_nil, or_false]
  rintro other (rfl | rfl | rfl) own
  · cases own
  · rfl
  · exact alive

theorem MainAt.step {buffer : List UInt8} {main process : Process Label Stage}
    (there : pipeline.MainAt main) (here : pipeline.RightAt buffer process)
    {became reached ended : List Label}
    (stepped : System.step pipeline.machine
      (pipeline.besideRight main process buffer became reached ended) (0, answer) = some after) :
    pipeline.Phase after := by
  cases there with
  | start =>
    cases stepped
    exact .right _ .unread _ _ here _ _ _
  | unread =>
    cases stepped
    exact .right _ .waiting _ _ here _ _ _
  | waiting => exact absurd ((here.wait _ _ _ _).symm.trans stepped) nofun

theorem wait_step (became reached ended : List Label)
    (stepped : System.step pipeline.machine
      (pipeline.besideLeft (pipeline.gone .zombie became) pipeline.data reached ended)
      (0, answer) = some after) : pipeline.Phase after := by
  match answer with
  | 0 => cases stepped
  | 1 =>
    cases stepped
    exact .waited _ _ _
  | _ + 2 => cases stepped

theorem Phase.step (phase : pipeline.Phase system)
    (stepped : System.step pipeline.machine system (pid, answer) = some after) :
    pipeline.Phase after ∨ pipeline.Received after := by
  cases phase with
  | start reached ended =>
    match pid with
    | 0 =>
      cases stepped
      exact Or.inl (.made _ _)
    | _ + 1 => cases stepped
  | made reached ended =>
    match pid with
    | 0 =>
      cases stepped
      exact Or.inl (.left _ _ .start _ _)
    | _ + 1 => cases stepped
  | left buffer process here reached ended =>
    match pid with
    | 0 => exact absurd ((here.wait _ _ _).symm.trans stepped) nofun
    | 1 => exact Or.inl (here.step stepped)
    | _ + 2 => cases stepped
  | written became reached ended =>
    match pid with
    | 0 => exact Or.inl (wait_step _ _ _ stepped)
    | 1 => cases stepped
    | _ + 2 => cases stepped
  | waited became reached ended =>
    match pid with
    | 0 =>
      cases stepped
      exact Or.inl (.right _ .start _ _ .start _ _ _)
    | 1 => cases stepped
    | _ + 2 => cases stepped
  | right main there buffer process here became reached ended =>
    match pid with
    | 0 => exact Or.inl (there.step here stepped)
    | 1 => cases stepped
    | 2 => exact here.step there stepped
    | _ + 3 => cases stepped

/-- If the pipe holds all the data, no phase is the last. -/
theorem Phase.enabled (phase : pipeline.Phase system)
    (fits : pipeline.data.length ≤ pipeline.capacity) :
    ∃ event, (System.step pipeline.machine system event).isSome := by
  cases phase with
  | start reached ended => exact ⟨(0, 0), rfl⟩
  | made reached ended => exact ⟨(0, 0), rfl⟩
  | left buffer process here reached ended =>
    refine ⟨(1, 0), ?_⟩
    cases here with
    | ready =>
      obtain ⟨nine, ⟨short, found⟩ | ⟨short, missing, -⟩⟩ := pipeline.writes
      · rw [leftAtom, execs_eq .left nine short]
        exact Option.isSome_of_eq_some (System.run_exec_some 1 0 found)
      · rw [leftAtom, execs_eq_again .left nine short]
        exact Option.isSome_of_eq_some (System.run_exec_none 1 0 missing)
    | retry loads => exact Option.isSome_of_eq_some (System.run_exec_some 1 0 loads)
    | writing _ rest parts became =>
      cases rest with
      | nil => rfl
      | cons byte rest =>
        have room : buffer.length < pipeline.capacity := by
          rw [← parts, List.length_append, List.length_cons] at fits
          omega
        rw [write_step, if_pos room]
        rfl
    | _ => rfl
  | written became reached ended => exact ⟨(0, 1), rfl⟩
  | waited became reached ended => exact ⟨(0, 0), rfl⟩
  | right main there buffer process here became reached ended =>
    cases there with
    | start => exact ⟨(0, 0), rfl⟩
    | unread => exact ⟨(0, 0), rfl⟩
    | waiting =>
      refine ⟨(2, 0), ?_⟩
      cases here with
      | ready =>
        obtain ⟨nine, ⟨short, found⟩ | ⟨short, missing, -⟩⟩ := pipeline.reads
        · rw [rightAtom, execs_eq .right nine short]
          exact Option.isSome_of_eq_some (System.run_exec_some 2 0 found)
        · rw [rightAtom, execs_eq_again .right nine short]
          exact Option.isSome_of_eq_some (System.run_exec_none 2 0 missing)
      | retry loads => exact Option.isSome_of_eq_some (System.run_exec_some 2 0 loads)
      | reading received _ parts became' =>
        cases buffer with
        | cons byte rest =>
          rw [read_step]
          rfl
        | nil =>
          rw [List.append_nil] at parts
          rw [parts, end_step]
          rfl
      | _ => rfl

theorem LeftAt.unreceived {buffer : List UInt8} {process : Process Label Stage}
    (here : pipeline.LeftAt buffer process) (reached ended : List Label) :
    ¬pipeline.Received (pipeline.besideLeft process buffer reached ended) := by
  rintro ⟨pid, there, found, done⟩
  match pid with
  | 0 =>
    cases found
    cases done
  | 1 =>
    cases found
    cases here <;> cases done
  | _ + 2 => cases found

theorem reaches_writing : ∃ became reached ended,
    ReachableBefore (System.step pipeline.machine) pipeline.Received pipeline.start
      (pipeline.besideLeft (pipeline.writing pipeline.data became) [] reached ended) := by
  have alone {process : Process Label Stage} {pipes : List (Pipe Label)}
      (running : ∀ received, process.status ≠ .image (.done received)) :
      ¬pipeline.Received ⟨[process], pipes, [], []⟩ := by
    rintro ⟨pid, there, found, done⟩
    cases pid with
    | zero =>
      cases found
      exact running _ done
    | succ pid => cases found
  have first : ReachableBefore (System.step pipeline.machine) pipeline.Received pipeline.start
      pipeline.start := .refl (alone nofun)
  have made := first.next (0, 0) rfl (alone nofun)
  have forked := made.next (0, 0) rfl (LeftAt.start.unreceived _ _)
  have closed := forked.next (1, 0) rfl (LeftAt.closed.unreceived _ _)
  have placed := closed.next (1, 0) rfl (LeftAt.placed.unreceived _ _)
  have unread := placed.next (1, 0) rfl (LeftAt.unread.unreceived _ _)
  have ready : ReachableBefore (System.step pipeline.machine) pipeline.Received pipeline.start
      (pipeline.besideLeft (pipeline.child .left pipeline.leftAtom
        [some (.original 0), some pipeline.writeEnd, some (.original 2)]
        (.running (pipeline.execs .left pipeline.leftAtom)) []) [] [] []) :=
    unread.next (1, 0) rfl (LeftAt.ready.unreceived _ _)
  obtain ⟨nine, ⟨short, found⟩ | ⟨short, missing, found⟩⟩ := pipeline.writes
  · rw [leftAtom, execs_eq .left nine short] at ready
    exact ⟨_, _, _, ready.next (1, 0) (System.run_exec_some 1 0 found)
      ((LeftAt.writing [] _ rfl _).unreceived _ _)⟩
  · rw [leftAtom, execs_eq_again .left nine short] at ready
    have retry := ready.next (1, 0) (System.run_exec_none 1 0 missing)
      ((LeftAt.retry found).unreceived _ _)
    exact ⟨_, _, _, retry.next (1, 0) (System.run_exec_some 1 0 found)
      ((LeftAt.writing [] _ rfl _).unreceived _ _)⟩

theorem reaches_full (written : List UInt8) (full : written.length ≤ pipeline.capacity)
    (parts : written ++ rest = pipeline.data) : ∃ became reached ended,
    ReachableBefore (System.step pipeline.machine) pipeline.Received pipeline.start
      (pipeline.besideLeft (pipeline.writing rest became) written reached ended) := by
  induction written using List.reverseRecOn generalizing rest with
  | nil =>
    obtain rfl : rest = pipeline.data := parts
    exact reaches_writing
  | append_singleton before byte ih =>
    rw [List.length_append, List.length_singleton] at full
    have parts' : before ++ byte :: rest = pipeline.data := by
      rw [← parts, List.append_assoc]
      rfl
    obtain ⟨became, reached, ended, reachable⟩ := ih (Nat.le_of_succ_le full) parts'
    refine ⟨became, reached, ended, reachable.next (1, 0) ?_
      ((LeftAt.writing _ rest parts became).unreceived _ _)⟩
    exact (write_step ..).trans (if_pos full)

/-- With more data than the pipe holds, the shell's process waits for the left
side, which waits for the right side, which has not been forked. -/
theorem deadlock (more : pipeline.capacity < pipeline.data.length) : ¬pipeline.Flows := by
  intro flows
  have parts := List.take_append_drop pipeline.capacity pipeline.data
  have length : (pipeline.data.take pipeline.capacity).length = pipeline.capacity := by
    rw [List.length_take, Nat.min_eq_left (Nat.le_of_lt more)]
  obtain ⟨became, reached, ended, reachable⟩ := reaches_full _ (Nat.le_of_eq length) parts
  obtain ⟨⟨pid, answer⟩, enabled⟩ := flows _ reachable
  cases rest : pipeline.data.drop pipeline.capacity with
  | nil =>
    have short := List.drop_eq_nil_iff.mp rest
    omega
  | cons byte rest' =>
    rw [rest] at enabled parts
    match pid with
    | 0 =>
      rw [(LeftAt.writing _ _ parts became).wait] at enabled
      cases enabled
    | 1 =>
      rw [write_step, if_neg (by omega)] at enabled
      cases enabled
    | _ + 2 => cases enabled

/-- A pipeline goes on until its data is received exactly if the pipe can hold all of it. -/
theorem flows_iff (pipeline : Pipeline) :
    pipeline.Flows ↔ pipeline.data.length ≤ pipeline.capacity := by
  constructor
  · intro flows
    by_contra more
    exact deadlock (Nat.lt_of_not_le more) flows
  · intro fits system reachable
    have phase : pipeline.Phase system :=
      reachable.invariant start_phase fun _ _ _ phase stepped => phase.step stepped
    exact phase.enabled fits

/-- Two bytes do not go through a pipe that holds one. -/
theorem short_pipe : ¬∀ pipeline : Pipeline, 1 ≤ pipeline.capacity → pipeline.Flows := by
  intro always
  have stuck : ¬Flows {
      capacity := 1
      load := fun _ args => some (if args.length = 1 then .writer [0, 0] else .reader [])
      line := 0
      left := "a"
      leftArgs := []
      right := "b"
      rightArgs := ["c"]
      data := [0, 0]
      writes := ⟨by decide, .inl ⟨by decide, rfl⟩⟩
      reads := ⟨by decide, .inl ⟨by decide, rfl⟩⟩ } := deadlock (by decide)
  exact stuck (always _ (Nat.le_refl 1))

end Pipeline

end CssLab.Shell
