import CssLab.Lib.Process
import Mathlib.Data.Set.Insert

namespace CssLab.Unix

variable {Label Image : Type*}

/-- What depends on the own steps of a process only: its lineage, whether it
has yet to fork, the pipes it has made and its descriptors. -/
structure Local (Label : Type*) where
  lineage : List Label
  fresh : Bool
  made : Set Nat
  table : Descriptors (File Label)

/-- Where a child is that has just been forked. -/
def Local.child (label : Label) (here : Local Label) : Local Label :=
  ⟨label :: here.lineage, true, ∅, here.table⟩

/-- A program of which each call meets `check` where the process then is, and
each `exec` meets `inside`, when these programs can be loaded. -/
def Prog.Each (loads : String → List String → Prop)
    (check : Local Label → Prog Label → Prop) (inside : Local Label → Prop) :
    Prog Label → Local Label → Prop
  | .exit, here => check here .exit
  | .fault, here => check here .fault
  | .fork label child parent, here =>
    check here (.fork label child parent) ∧
      child.Each loads check inside (here.child label) ∧
      ∀ pid, (parent pid).Each loads check inside { here with fresh := false }
  | .wait next, here => check here (.wait next) ∧ next.Each loads check inside here
  | .pipe label next, here =>
    check here (.pipe label next) ∧ ∀ id,
      let (p0, reading) := here.table.place (.pipe id label .read)
      let (p1, table) := reading.place (.pipe id label .write)
      (next p0 p1).Each loads check inside { here with made := insert id here.made, table }
  | .close fd next, here =>
    check here (.close fd next) ∧
      next.Each loads check inside { here with table := here.table.close fd }
  | .dup fd next, here =>
    check here (.dup fd next) ∧
      next.Each loads check inside { here with table := here.table.dup fd }
  | .openFile path next, here =>
    check here (.openFile path next) ∧
      next.Each loads check inside { here with table := (here.table.place (.named path)).2 }
  | .chdir path next, here =>
    check here (.chdir path next) ∧ ∀ done, (next done).Each loads check inside here
  | .print label text next, here =>
    check here (.print label text next) ∧ next.Each loads check inside here
  | .exec label path args failed, here =>
    check here (.exec label path args failed) ∧ inside here ∧
      (¬loads path args → failed.Each loads check inside here)

theorem Prog.Each.holds {prog : Prog Label} {here : Local Label}
    (each : prog.Each loads check inside here) : check here prog := by
  cases prog with
  | exit => exact each
  | fault => exact each
  | _ => exact each.1

/-- What depends on the steps of one process. -/
def Process.view (pid : Nat) (pipes : List (Pipe Label)) (process : Process Label Image) :
    Local Label where
  lineage := process.lineage
  fresh := process.forked.isNone
  made := {id | ((pipes[id]?).map fun pipe => pipe.origin.1) = some pid}
  table := process.table

/-- Where a process is, its program meets its checks; an exec'd program has
open what was open at its start, or less. -/
def Placed (loads : String → List String → Prop)
    (check : Local Label → Prog Label → Prop) (inside : Local Label → Prop)
    (pipes : List (Pipe Label)) (pid : Nat) (process : Process Label Image) : Prop :=
  match process.status with
  | .running prog => prog.Each loads check inside (process.view pid pipes)
  | .image _ => ∃ table, inside { process.view pid pipes with table } ∧
      ∀ file, process.table.Open file → table.Open file
  | _ => process.table = []

/-- All processes are placed, and pipes are made by processes. -/
structure AllPlaced (loads : String → List String → Prop)
    (check : Local Label → Prog Label → Prop) (inside : Local Label → Prop)
    (system : System Label Image) : Prop where
  placed : ∀ pid process, system.processes[pid]? = some process →
    Placed loads check inside system.pipes pid process
  makers : ∀ pipe ∈ system.pipes, pipe.origin.1 < system.processes.length

variable {loads : String → List String → Prop} {check : Local Label → Prog Label → Prop}
  {inside : Local Label → Prop} {system after : System Label Image}
  {process process' : Process Label Image} {pid : Nat}

/-- Pipes from the same makers leave everyone where they are. -/
theorem Placed.repipe {pipes pipes' : List (Pipe Label)}
    (placed : Placed loads check inside pipes pid process)
    (same : process.view pid pipes' = process.view pid pipes) :
    Placed loads check inside pipes' pid process := by
  unfold Placed at placed ⊢
  rw [same]
  exact placed

theorem view_of_origins {pipes pipes' : List (Pipe Label)}
    (origins : pipes'.map Pipe.origin = pipes.map Pipe.origin) (pid : Nat)
    (process : Process Label Image) : process.view pid pipes' = process.view pid pipes := by
  have same (id : Nat) : (pipes'[id]?.map fun pipe => pipe.origin.1) =
      pipes[id]?.map fun pipe => pipe.origin.1 := by
    have both := congrArg (fun origins => origins[id]?.map Prod.fst) origins
    simpa [Function.comp_def] using both
  simp only [Process.view, same]

theorem AllPlaced.advance (all : AllPlaced loads check inside system)
    (processes : after.processes = system.processes.set pid process')
    (origins : after.pipes.map Pipe.origin = system.pipes.map Pipe.origin)
    (placed : Placed loads check inside system.pipes pid process') :
    AllPlaced loads check inside after := by
  constructor
  · intro other there found
    refine Placed.repipe ?_ (view_of_origins origins other there)
    rw [processes] at found
    rcases System.found_set found with ⟨rfl, rfl⟩ | ⟨_, old⟩
    · exact placed
    · exact all.placed other there old
  · intro pipe member
    obtain ⟨old, member', origin⟩ := List.mem_map.mp (origins ▸ List.mem_map_of_mem member)
    rw [processes, List.length_set, ← origin]
    exact all.makers old member'

theorem Placed.disown {pipes : List (Pipe Label)}
    (placed : Placed loads check inside pipes pid process) (other : Nat) :
    Placed loads check inside pipes pid (System.disown other process) := by
  unfold System.disown
  split
  · exact placed
  · exact placed

theorem AllPlaced.leave (all : AllPlaced loads check inside system) :
    AllPlaced loads check inside (system.leave pid process) := by
  constructor
  · intro other there found
    rw [System.leave, List.getElem?_map, Option.map_eq_some_iff] at found
    obtain ⟨there, found, rfl⟩ := found
    refine Placed.disown ?_ pid
    rcases System.found_set found with ⟨rfl, rfl⟩ | ⟨_, old⟩
    · exact rfl
    · exact all.placed other there old
  · intro pipe member
    simpa [System.leave] using all.makers pipe member

theorem AllPlaced.fork (all : AllPlaced loads check inside system)
    (found : system.processes[pid]? = some process)
    (childPlaced : child.Each loads check inside ⟨label :: process.lineage, true, ∅, process.table⟩)
    (parentPlaced : ∀ new,
      (parent new).Each loads check inside { process.view pid system.pipes with fresh := false }) :
    AllPlaced loads check inside (system.fork pid process label child parent) := by
  have present : pid < system.processes.length := (List.getElem?_eq_some_iff.mp found).1
  constructor
  · intro other there found'
    rcases System.found_append found' with found' | ⟨new, rfl⟩
    · rcases System.found_set found' with ⟨rfl, rfl⟩ | ⟨_, old⟩
      · exact parentPlaced _
      · exact all.placed other there old
    · obtain rfl : other = system.processes.length := new.trans (List.length_set ..)
      have nothing : {id : Nat | (system.pipes[id]?.map fun pipe : Pipe Label => pipe.origin.1) =
          some system.processes.length} = ∅ := by
        apply Set.eq_empty_of_forall_notMem
        intro id made
        obtain ⟨pipe, found', maker⟩ := Option.map_eq_some_iff.mp made
        have below := all.makers pipe (List.mem_of_getElem? found')
        omega
      have placed := childPlaced
      rw [← nothing] at placed
      exact placed
  · intro pipe member
    have below := all.makers pipe member
    simp only [System.fork, List.length_append, List.length_set]
    omega

/-- A pipe is seen only by the process that made it. -/
theorem view_append (pipes : List (Pipe Label)) (new : Pipe Label) (pid : Nat)
    (process : Process Label Image) :
    process.view pid (pipes ++ [new]) =
      if new.origin.1 = pid then
        { process.view pid pipes with made := insert pipes.length (process.view pid pipes).made }
      else process.view pid pipes := by
  have entry (id : Nat) : ((pipes ++ [new])[id]?.map fun pipe => pipe.origin.1) =
      if id = pipes.length then some new.origin.1
      else pipes[id]?.map fun pipe => pipe.origin.1 := by
    by_cases last : id = pipes.length
    · simp [last]
    · rw [if_neg last]
      by_cases below : id < pipes.length
      · rw [List.getElem?_append_left below]
      · rw [List.getElem?_eq_none (by simp; omega), List.getElem?_eq_none (by omega)]
  split
  · rename_i own
    simp only [Process.view, entry, own]
    congr 1
    ext id
    by_cases last : id = pipes.length
    · simp [last]
    · simp [last]
  · rename_i apart
    simp only [Process.view, entry]
    congr 1
    ext id
    by_cases last : id = pipes.length
    · simp [last, apart]
    · simp [last]

theorem AllPlaced.pipe (all : AllPlaced loads check inside system)
    (found : system.processes[pid]? = some process)
    (placed : ∀ id,
      let (p0, reading) := process.table.place (.pipe id label .read)
      let (p1, table) := reading.place (.pipe id label .write)
      (next p0 p1).Each loads check inside
        { process.view pid system.pipes with
          made := insert id (process.view pid system.pipes).made, table }) :
    AllPlaced loads check inside (system.pipe pid process label next) := by
  have present : pid < system.processes.length := (List.getElem?_eq_some_iff.mp found).1
  constructor
  · intro other there found'
    rcases System.found_set found' with ⟨rfl, rfl⟩ | ⟨apart, old⟩
    · simp only [Placed, System.pipe, view_append, if_pos]
      exact placed system.pipes.length
    · refine Placed.repipe (all.placed other there old) ?_
      exact (view_append _ _ _ _).trans (if_neg (Ne.symm apart))
  · intro pipe member
    simp only [System.pipe, List.mem_append, List.mem_singleton, List.length_set] at member ⊢
    rcases member with old | rfl
    · exact all.makers pipe old
    · exact present

theorem AllPlaced.step {machine : Machine Image} (all : AllPlaced loads check inside system)
    (sound : ∀ path args, loads path args → machine.Loads path args)
    (stepped : System.step machine system event = some after) :
    AllPlaced loads check inside after := by
  obtain ⟨pid, answer⟩ := event
  obtain ⟨process, found, steps⟩ := System.steps_of_step stepped
  have placed := all.placed pid process found
  cases steps with
  | leave ended => exact all.leave
  | fork here =>
    simp only [Placed, here] at placed
    exact all.fork found placed.2.1 placed.2.2
  | pipe here =>
    simp only [Placed, here] at placed
    exact all.pipe found placed.2
  | reap here child gone there mine exited =>
    simp only [Placed, here] at placed
    have zombie : gone.status = .zombie := by
      cases status : gone.status <;> simp [status, Status.isZombie] at exited ⊢
    have reaped := all.placed child gone there
    simp only [Placed, zombie] at reaped
    have first : AllPlaced loads check inside (system.set child { gone with status := .reaped }) :=
      all.advance rfl rfl reaped
    exact first.advance rfl rfl placed.2
  | exec here image =>
    simp only [Placed, here] at placed
    exact all.advance rfl rfl ⟨process.table, placed.2.1, fun _ present => present⟩
  | image here next table kept pipes origins =>
    simp only [Placed, here] at placed
    obtain ⟨outer, holds, more⟩ := placed
    exact all.advance rfl origins ⟨outer, holds, fun file still => more file (kept file still)⟩
  | chdir here done =>
    simp only [Placed, here] at placed
    exact all.advance rfl rfl (placed.2 done)
  | execFailed here missing =>
    simp only [Placed, here] at placed
    exact all.advance rfl rfl (placed.2.2 fun loaded => sound _ _ loaded missing)
  | _ here =>
    simp only [Placed, here] at placed
    exact all.advance rfl rfl placed.2

theorem AllPlaced.boot {prog : Prog Label} {table : Descriptors (File Label)}
    (each : prog.Each loads check inside ⟨[], true, ∅, table⟩) :
    AllPlaced loads check inside (System.boot prog table : System Label Image) := by
  constructor
  · intro pid process found
    cases pid with
    | zero =>
      cases found
      have nothing : {id : Nat |
          (([] : List (Pipe Label))[id]?.map fun pipe : Pipe Label => pipe.origin.1) =
            some 0} = ∅ := by
        simp
      have placed := each
      rw [← nothing] at placed
      exact placed
    | succ pid => cases found
  · exact nofun

end CssLab.Unix
