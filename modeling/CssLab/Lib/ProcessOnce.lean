import CssLab.Lib.Process
import Mathlib.Data.List.Forall2
import Mathlib.Tactic.Common

namespace CssLab.Unix

/-- A label at a fork, or at a pipe. -/
inductive Use (Label : Type*)
  | fork (label : Label)
  | pipe (label : Label)

variable {Label Image : Type*}

/-- A run of the program, with those it forks, can come to the use. -/
def Prog.Uses (use : Use Label) : Prog Label → Prop
  | .exit | .fault => False
  | .fork label child parent =>
    use = .fork label ∨ child.Uses use ∨ ∃ pid, (parent pid).Uses use
  | .wait next => next.Uses use
  | .pipe label next => use = .pipe label ∨ ∃ p0 p1, (next p0 p1).Uses use
  | .close _ next => next.Uses use
  | .dup _ next => next.Uses use
  | .openFile _ next => next.Uses use
  | .chdir _ next => ∃ done, (next done).Uses use
  | .print _ _ next => next.Uses use
  | .exec _ _ _ failed => failed.Uses use

/-- No use comes after itself, or in both processes of a fork. -/
def Prog.Once : Prog Label → Prop
  | .exit | .fault => True
  | .fork label child parent =>
    ¬child.Uses (.fork label) ∧ child.Once ∧
      ∀ pid, ¬(parent pid).Uses (.fork label) ∧ (parent pid).Once ∧
        ∀ use, child.Uses use → ¬(parent pid).Uses use
  | .wait next => next.Once
  | .pipe label next => ∀ p0 p1, ¬(next p0 p1).Uses (.pipe label) ∧ (next p0 p1).Once
  | .close _ next => next.Once
  | .dup _ next => next.Once
  | .openFile _ next => next.Once
  | .chdir _ next => ∀ done, (next done).Once
  | .print _ _ next => next.Once
  | .exec _ _ _ failed => failed.Once

def Process.Uses (use : Use Label) (process : Process Label Image) : Prop :=
  ∃ prog, process.status = .running prog ∧ prog.Uses use

def Process.Once (process : Process Label Image) : Prop :=
  ∀ prog, process.status = .running prog → prog.Once

abbrev System.Has (system : System Label Image) (pid : Nat) (process : Process Label Image) :
    Prop :=
  system.processes[pid]? = some process

/-- The pipe `id` was made by the call with this label. -/
def System.Made (system : System Label Image) (id : Nat) (label : Label) : Prop :=
  ∃ pipe, system.pipes[id]? = some pipe ∧ pipe.origin.2 = label

/-- Each label names one process by its fork and one pipe, the ancestors of a
process have forked, and files say which pipes they are ends of. -/
structure Named (system : System Label Image) : Prop where
  once : ∀ {pid process}, system.Has pid process → process.Once
  apart : ∀ {pid process pid' process'}, system.Has pid process → system.Has pid' process' →
    ∀ {use}, process.Uses use → process'.Uses use → pid = pid'
  forked : ∀ {pid process pid' process'}, system.Has pid process → system.Has pid' process' →
    ∀ {label}, process.lineage.head? = some label → ¬process'.Uses (.fork label)
  piped : ∀ {id label}, system.Made id label →
    ∀ {pid process}, system.Has pid process → ¬process.Uses (.pipe label)
  task : ∀ {pid process pid' process'}, system.Has pid process → system.Has pid' process' →
    process.lineage.head? = process'.lineage.head? → pid = pid'
  pipe : ∀ {id id' label}, system.Made id label → system.Made id' label → id = id'
  ancestor : ∀ {pid process}, system.Has pid process → ∀ {label}, label ∈ process.lineage →
    ∃ elder there, system.Has elder there ∧ there.lineage.head? = some label ∧
      (elder = pid ∨ there.forked.isSome)
  file : ∀ {pid process}, system.Has pid process → ∀ {id label side},
    process.table.Open (.pipe id label side) → system.Made id label

/-- Who a process is and what it has yet to do are as before, or less. -/
structure Process.Follows (before after : Process Label Image) : Prop where
  lineage : after.lineage = before.lineage
  forked : before.forked.isSome → after.forked.isSome
  once : before.Once → after.Once
  uses : ∀ {use}, after.Uses use → before.Uses use

variable {system after : System Label Image} {process process' : Process Label Image} {pid : Nat}

theorem System.Made.of_origins {id : Nat} {label : Label} (made : after.Made id label)
    (origins : after.pipes.map Pipe.origin = system.pipes.map Pipe.origin) :
    system.Made id label := by
  obtain ⟨pipe, found, origin⟩ := made
  have same := congrArg (·[id]?) origins
  simp only [List.getElem?_map, found, Option.map_some] at same
  obtain ⟨old, found', origin'⟩ := Option.map_eq_some_iff.mp same.symm
  exact ⟨old, found', origin' ▸ origin⟩

theorem Named.follow (named : Named system)
    (people : List.Forall₂ Process.Follows system.processes after.processes)
    (origins : after.pipes.map Pipe.origin = system.pipes.map Pipe.origin)
    (file : ∀ {pid process}, after.Has pid process → ∀ {id label side},
      process.table.Open (.pipe id label side) → after.Made id label) : Named after := by
  have back {pid : Nat} {there : Process Label Image} (has : after.Has pid there) :
      ∃ old, system.Has pid old ∧ old.Follows there := by
    obtain ⟨present, rfl⟩ := List.getElem?_eq_some_iff.mp has
    have present' := people.length_eq ▸ present
    exact ⟨_, List.getElem?_eq_getElem present', people.get present' present⟩
  have forth {pid : Nat} {old : Process Label Image} (has : system.Has pid old) :
      ∃ there, after.Has pid there ∧ old.Follows there := by
    obtain ⟨present, rfl⟩ := List.getElem?_eq_some_iff.mp has
    have present' := people.length_eq ▸ present
    exact ⟨_, List.getElem?_eq_getElem present', people.get present present'⟩
  constructor
  · intro pid there has
    obtain ⟨old, had, follows⟩ := back has
    exact follows.once (named.once had)
  · intro pid there pid' there' has has' use uses uses'
    obtain ⟨old, had, follows⟩ := back has
    obtain ⟨old', had', follows'⟩ := back has'
    exact named.apart had had' (follows.uses uses) (follows'.uses uses')
  · intro pid there pid' there' has has' label own uses
    obtain ⟨old, had, follows⟩ := back has
    obtain ⟨old', had', follows'⟩ := back has'
    exact named.forked had had' (follows.lineage ▸ own) (follows'.uses uses)
  · intro id label made pid there has uses
    obtain ⟨old, had, follows⟩ := back has
    exact named.piped (made.of_origins origins) had (follows.uses uses)
  · intro pid there pid' there' has has' same
    obtain ⟨old, had, follows⟩ := back has
    obtain ⟨old', had', follows'⟩ := back has'
    rw [follows.lineage, follows'.lineage] at same
    exact named.task had had' same
  · intro id id' label made made'
    exact named.pipe (made.of_origins origins) (made'.of_origins origins)
  · intro pid there has label member
    obtain ⟨old, had, follows⟩ := back has
    obtain ⟨elder, before, hadElder, own, forked⟩ := named.ancestor had (follows.lineage ▸ member)
    obtain ⟨elderNow, hasElder, follows'⟩ := forth hadElder
    refine ⟨elder, elderNow, hasElder, follows'.lineage ▸ own, ?_⟩
    exact forked.imp_right follows'.forked
  · exact file

/-- A process with nothing in common with the others. -/
structure Newcomer (system : System Label Image) (new : Process Label Image) (label : Label) :
    Prop where
  once : new.Once
  own : new.lineage.head? = some label
  self : ¬new.Uses (.fork label)
  others : ∀ {pid process}, system.Has pid process →
    process.lineage.head? ≠ some label ∧ ¬process.Uses (.fork label) ∧
      (∀ use, process.Uses use → ¬new.Uses use) ∧
      ∀ other, process.lineage.head? = some other → ¬new.Uses (.fork other)
  piped : ∀ {id other}, system.Made id other → ¬new.Uses (.pipe other)
  elders : ∀ {other}, other ∈ new.lineage.tail → ∃ elder there, system.Has elder there ∧
    there.lineage.head? = some other ∧ there.forked.isSome
  file : ∀ {id other side}, new.table.Open (.pipe id other side) → system.Made id other

theorem System.Has.append (has : system.Has pid process) {new : Process Label Image} :
    (system.processes ++ [new])[pid]? = some process := by
  rw [List.getElem?_append_left (List.getElem?_eq_some_iff.mp has).1]
  exact has

theorem Named.join (named : Named system) {new : Process Label Image}
    (newcomer : Newcomer system new label) :
    Named { system with processes := system.processes ++ [new] } := by
  constructor
  · intro pid there has
    rcases System.found_append has with had | ⟨rfl, rfl⟩
    · exact named.once had
    · exact newcomer.once
  · intro pid there pid' there' has has' use uses uses'
    rcases System.found_append has with had | ⟨rfl, rfl⟩ <;>
      rcases System.found_append has' with had' | ⟨rfl, rfl⟩
    · exact named.apart had had' uses uses'
    · exact absurd uses' ((newcomer.others had).2.2.1 use uses)
    · exact absurd uses ((newcomer.others had').2.2.1 use uses')
    · rfl
  · intro pid there pid' there' has has' other own uses
    rcases System.found_append has with had | ⟨rfl, rfl⟩ <;>
      rcases System.found_append has' with had' | ⟨rfl, rfl⟩
    · exact named.forked had had' own uses
    · exact (newcomer.others had).2.2.2 other own uses
    · cases newcomer.own.symm.trans own
      exact (newcomer.others had').2.1 uses
    · cases newcomer.own.symm.trans own
      exact newcomer.self uses
  · intro id other made pid there has uses
    rcases System.found_append has with had | ⟨rfl, rfl⟩
    · exact named.piped made had uses
    · exact newcomer.piped made uses
  · intro pid there pid' there' has has' same
    rcases System.found_append has with had | ⟨rfl, rfl⟩ <;>
      rcases System.found_append has' with had' | ⟨rfl, rfl⟩
    · exact named.task had had' same
    · exact absurd (same.trans newcomer.own) (newcomer.others had).1
    · exact absurd (same.symm.trans newcomer.own) (newcomer.others had').1
    · rfl
  · exact fun made made' => named.pipe made made'
  · intro pid there has other member
    rcases System.found_append has with had | ⟨rfl, rfl⟩
    · obtain ⟨elder, before, hadElder, own, forked⟩ := named.ancestor had member
      exact ⟨elder, before, hadElder.append, own, forked⟩
    · cases lineage : there.lineage with
      | nil =>
        rw [lineage] at member
        cases member
      | cons first rest =>
        have own := newcomer.own
        rw [lineage] at member own
        cases own
        rcases List.mem_cons.mp member with rfl | older
        · exact ⟨_, there, has, by rw [lineage]; rfl, Or.inl rfl⟩
        · obtain ⟨elder, before, hadElder, own, forked⟩ :=
            newcomer.elders (by rw [lineage]; exact older)
          exact ⟨elder, before, hadElder.append, own, Or.inr forked⟩
  · intro pid there has id other side present
    rcases System.found_append has with had | ⟨rfl, rfl⟩
    · exact named.file had present
    · exact newcomer.file present

theorem Named.open (named : Named system) {new : Pipe Label}
    (fresh : ∀ {id}, ¬system.Made id new.origin.2)
    (unused : ∀ {pid process}, system.Has pid process → ¬process.Uses (.pipe new.origin.2)) :
    Named { system with pipes := system.pipes ++ [new] } := by
  have back {id : Nat} {label : Label}
      (made : System.Made { system with pipes := system.pipes ++ [new] } id label) :
      system.Made id label ∨ id = system.pipes.length ∧ label = new.origin.2 := by
    obtain ⟨pipe, found, rfl⟩ := made
    by_cases old : id < system.pipes.length
    · rw [List.getElem?_append_left old] at found
      exact Or.inl ⟨pipe, found, rfl⟩
    · right
      rw [List.getElem?_append_right (by omega)] at found
      have last : id - system.pipes.length = 0 := by
        by_contra more
        rw [List.getElem?_eq_none (by simp; omega)] at found
        cases found
      rw [last] at found
      cases found
      exact ⟨by omega, rfl⟩
  refine ⟨named.once, named.apart, named.forked, ?_, named.task, ?_, named.ancestor, ?_⟩
  · intro id label made pid process has uses
    rcases back made with old | ⟨rfl, rfl⟩
    · exact named.piped old has uses
    · exact unused has uses
  · intro id id' label made made'
    rcases back made with old | ⟨rfl, rfl⟩ <;> rcases back made' with old' | ⟨rfl, same⟩
    · exact named.pipe old old'
    · exact absurd (same ▸ old) fresh
    · exact absurd old' fresh
    · rfl
  · intro pid process has id label side present
    obtain ⟨pipe, found, own⟩ := named.file has present
    refine ⟨pipe, ?_, own⟩
    rw [List.getElem?_append_left (List.getElem?_eq_some_iff.mp found).1]
    exact found

theorem Process.Follows.refl (process : Process Label Image) : process.Follows process :=
  ⟨rfl, id, id, id⟩

/-- A process goes on with what comes next in its program. -/
theorem Process.Follows.next {prog next : Prog Label} (here : process.status = .running prog)
    (lineage : process'.lineage = process.lineage) (here' : process'.status = .running next)
    (forked : process.forked.isSome → process'.forked.isSome) (once : prog.Once → next.Once)
    (uses : ∀ use, next.Uses use → prog.Uses use) : process.Follows process' where
  lineage := lineage
  forked := forked
  once before prog' running := by
    cases here'.symm.trans running
    exact once (before prog here)
  uses := by
    rintro use ⟨prog', running, later⟩
    cases here'.symm.trans running
    exact ⟨prog, here, uses use later⟩

theorem Process.Follows.stop (lineage : process'.lineage = process.lineage)
    (forked : process'.forked = process.forked)
    (stopped : ∀ prog, process'.status ≠ .running prog) : process.Follows process' where
  lineage := lineage
  forked := fun before => forked ▸ before
  once _ prog running := absurd running (stopped prog)
  uses := by
    rintro use ⟨prog, running, _⟩
    exact absurd running (stopped prog)

theorem System.Made.of_same {id : Nat} {label : Label} (made : system.Made id label)
    (origins : after.pipes.map Pipe.origin = system.pipes.map Pipe.origin) :
    after.Made id label :=
  made.of_origins origins.symm

theorem Named.become (named : Named system) (has : system.Has pid process)
    (processes : after.processes = system.processes.set pid process')
    (origins : after.pipes.map Pipe.origin = system.pipes.map Pipe.origin)
    (follows : process.Follows process')
    (file : ∀ {id label side}, process'.table.Open (.pipe id label side) →
      system.Made id label) : Named after := by
  refine named.follow ?_ origins ?_
  · rw [processes]
    refine List.forall₂_iff_get.mpr ⟨(List.length_set ..).symm, ?_⟩
    intro other below below'
    obtain ⟨present, rfl⟩ := List.getElem?_eq_some_iff.mp has
    simp only [List.get_eq_getElem, List.getElem_set]
    split
    · rename_i own
      subst own
      exact follows
    · exact .refl _
  · intro other there has' id label side opened
    rw [System.Has, processes] at has'
    rcases System.found_set has' with ⟨rfl, rfl⟩ | ⟨_, had⟩
    · exact (file opened).of_same origins
    · exact (named.file had opened).of_same origins

theorem Named.advance (named : Named system) (has : system.Has pid process)
    (processes : after.processes = system.processes.set pid process')
    (origins : after.pipes.map Pipe.origin = system.pipes.map Pipe.origin)
    (follows : process.Follows process')
    (file : ∀ {id label side}, process'.table.Open (.pipe id label side) →
      process.table.Open (.pipe id label side)) : Named after :=
  named.become has processes origins follows fun opened => named.file has (file opened)

theorem Named.disown (named : Named system) (pid : Nat) (ended : List Label) :
    Named { system with processes := system.processes.map (System.disown pid), ended } := by
  have who (process : Process Label Image) :
      (System.disown pid process).table = process.table ∧
        process.Follows (System.disown pid process) := by
    unfold System.disown
    split
    · exact ⟨rfl, rfl, id, id, id⟩
    · exact ⟨rfl, .refl _⟩
  refine named.follow ?_ rfl ?_
  · exact List.forall₂_map_right_iff.mpr (List.forall₂_same.mpr fun process _ => (who process).2)
  · intro other there has id label side opened
    rw [System.Has, List.getElem?_map] at has
    obtain ⟨old, had, rfl⟩ := Option.map_eq_some_iff.mp has
    exact named.file had ((who old).1 ▸ opened)

theorem Named.leave (named : Named system) (has : system.Has pid process) :
    Named (system.leave pid process) := by
  have closed : Named (system.set pid { process with status := .zombie, table := [] }) :=
    named.advance has rfl rfl (.stop rfl rfl fun _ => nofun) nofun
  exact closed.disown pid _

theorem Named.fork (named : Named system) (has : system.Has pid process)
    (here : process.status = .running (.fork label child parent)) :
    Named (system.fork pid process label child parent) := by
  have once := named.once has _ here
  have own : process.Uses (.fork label) := ⟨_, here, Or.inl rfl⟩
  have uses {use : Use Label} (later : child.Uses use) : process.Uses use :=
    ⟨_, here, Or.inr (Or.inl later)⟩
  have middle : Named (system.set pid { process with
      status := .running (parent system.processes.length)
      forked := some system.processes.length }) :=
    named.advance has rfl rfl (.next here rfl rfl (fun _ => rfl) (fun once => (once.2.2 _).2.1)
      fun use later => Or.inr (Or.inr ⟨_, later⟩)) id
  refine @Named.join _ _ _ label middle _ ⟨?_, rfl, ?_, ?_, ?_, ?_, ?_⟩
  · intro prog running
    cases running
    exact once.2.1
  · rintro ⟨prog, running, later⟩
    cases running
    exact once.1 later
  · intro other there has'
    rcases System.found_set has' with ⟨rfl, rfl⟩ | ⟨apart, had⟩
    · refine ⟨fun same => named.forked has has same own, ?_, ?_, ?_⟩
      · rintro ⟨prog, running, later⟩
        cases running
        exact (once.2.2 _).1 later
      · rintro use ⟨prog, running, later⟩ ⟨prog', running', later'⟩
        cases running
        cases running'
        exact (once.2.2 _).2.2 use later' later
      · rintro label' same ⟨prog, running, later⟩
        cases running
        exact named.forked has has same (uses later)
    · refine ⟨fun same => named.forked had has same own, ?_, ?_, ?_⟩
      · exact fun later => apart (named.apart had has later own)
      · rintro use later ⟨prog, running, later'⟩
        cases running
        exact apart (named.apart had has later (uses later'))
      · rintro label' same ⟨prog, running, later⟩
        cases running
        exact named.forked had has same (uses later)
  · rintro id label' made ⟨prog, running, later⟩
    cases running
    exact named.piped made has (uses later)
  · intro label' member
    obtain ⟨elder, there, hadElder, same, forked⟩ := named.ancestor has member
    by_cases apart : elder = pid
    · subst apart
      cases has.symm.trans hadElder
      exact ⟨elder, _, List.getElem?_set_self (List.getElem?_eq_some_iff.mp has).1, same, rfl⟩
    · refine ⟨elder, there, ?_, same, forked.resolve_left apart⟩
      exact (List.getElem?_set_ne (Ne.symm apart)).trans hadElder
  · exact named.file has

theorem Named.pipe_step (named : Named system) (has : system.Has pid process)
    (here : process.status = .running (.pipe label next)) :
    Named (system.pipe pid process label next) := by
  have once := named.once has _ here
  have own : process.Uses (.pipe label) := ⟨_, here, Or.inl rfl⟩
  let made := system.pipes.length
  let reading := process.table.place (.pipe made label .read)
  let writing := reading.2.place (.pipe made label .write)
  have follows : process.Follows
      { process with status := .running (next reading.1 writing.1) } :=
    .next here rfl rfl (fun before => before) (fun once => (once _ _).2)
      fun use later => Or.inr ⟨_, _, later⟩
  have middle : Named (system.set pid
      { process with status := .running (next reading.1 writing.1) }) :=
    named.advance has rfl rfl follows fun opened => opened
  have opened := @Named.open _ _ _ middle ⟨(pid, label), []⟩
    (fun already => named.piped already has own) (by
      intro other there has' later
      rcases System.found_set has' with ⟨rfl, rfl⟩ | ⟨apart, had⟩
      · obtain ⟨prog, running, later⟩ := later
        cases running
        exact (once _ _).1 later
      · exact apart (named.apart had has later own))
  have here' : (system.set pid { process with
      status := .running (next reading.1 writing.1) }).processes[pid]? = some _ :=
    List.getElem?_set_self (List.getElem?_eq_some_iff.mp has).1
  let after : Process Label Image :=
    { process with status := .running (next reading.1 writing.1), table := writing.2 }
  refine @Named.become _ _ _ _ _ after _ opened here' (List.set_set ..).symm rfl ?_ ?_
  · exact .next rfl rfl rfl (fun before => before) (fun once => once) fun _ later => later
  · intro id label' side new
    have last : System.Made (system.pipe pid process label next) made label :=
      ⟨⟨(pid, label), []⟩, List.getElem?_concat_length .., rfl⟩
    rcases Descriptors.open_place.mp new with same | still
    · cases same
      exact last
    · rcases Descriptors.open_place.mp still with same | old
      · cases same
        exact last
      · obtain ⟨pipe, found, same⟩ := named.file has old
        exact ⟨pipe, (List.getElem?_append_left (List.getElem?_eq_some_iff.mp found).1).trans found,
          same⟩

theorem Named.step {machine : Machine Image} (named : Named system)
    (stepped : System.step machine system event = some after) : Named after := by
  obtain ⟨pid, answer⟩ := event
  obtain ⟨process, has, steps⟩ := System.steps_of_step stepped
  cases steps with
  | leave ended => exact named.leave has
  | fork here => exact named.fork has here
  | pipe here => exact named.pipe_step has here
  | alone here => exact named.advance has rfl rfl (.next here rfl rfl id id fun _ => id) id
  | reap here child gone there mine exited =>
    have zombie : gone.status = .zombie := by
      cases status : gone.status <;> simp [status, Status.isZombie] at exited ⊢
    have apart : child ≠ pid := by
      rintro rfl
      cases has.symm.trans there
      cases here.symm.trans zombie
    have first : Named (system.set child { gone with status := .reaped }) :=
      named.advance there rfl rfl (.stop rfl rfl fun _ => nofun) id
    have has' : (system.set child { gone with status := .reaped }).Has pid process :=
      (List.getElem?_set_ne apart).trans has
    exact first.advance has' rfl rfl (.next here rfl rfl id id fun _ => id) id
  | close here =>
    exact named.advance has rfl rfl (.next here rfl rfl id id fun _ => id) Descriptors.open_close
  | dup here =>
    exact named.advance has rfl rfl (.next here rfl rfl id id fun _ => id) Descriptors.open_dup
  | openFile here =>
    refine named.advance has rfl rfl (.next here rfl rfl id id fun _ => id) ?_
    intro id label side opened
    exact (Descriptors.open_place.mp opened).resolve_left nofun
  | chdir here done =>
    exact named.advance has rfl rfl (.next here rfl rfl id (fun once => once done)
      fun _ later => ⟨done, later⟩) id
  | print here => exact named.advance has rfl rfl (.next here rfl rfl id id fun _ => id) id
  | exec here image => exact named.advance has rfl rfl (.stop rfl rfl fun _ => nofun) id
  | execFailed here _ => exact named.advance has rfl rfl (.next here rfl rfl id id fun _ => id) id
  | image here next table kept pipes origins =>
    exact named.advance has rfl origins (.stop rfl rfl fun _ => nofun) (kept _)

theorem Named.boot {prog : Prog Label} {table : Descriptors (File Label)} (once : prog.Once)
    (closed : ∀ id label side, ¬table.Open (.pipe id label side)) :
    Named (System.boot prog table : System Label Image) := by
  have only {pid : Nat} {process : Process Label Image}
      (has : (System.boot prog table).Has pid process) :
      pid = 0 ∧ process.lineage = [] ∧ process.status = .running prog ∧
        process.table = table := by
    cases pid with
    | zero =>
      cases has
      exact ⟨rfl, rfl, rfl, rfl⟩
    | succ pid => cases has
  constructor
  · intro pid process has prog' running
    cases (only has).2.2.1.symm.trans running
    exact once
  · intro pid process pid' process' has has' use _ _
    exact (only has).1.trans (only has').1.symm
  · intro pid process pid' process' has has' label own
    rw [(only has).2.1] at own
    cases own
  · rintro id label ⟨pipe, found, _⟩
    cases found
  · intro pid process pid' process' has has' _
    exact (only has).1.trans (only has').1.symm
  · rintro id id' label ⟨pipe, found, _⟩
    cases found
  · intro pid process has label member
    rw [(only has).2.1] at member
    cases member
  · intro pid process has id label side opened
    rw [(only has).2.2.2] at opened
    exact absurd opened (closed id label side)

end CssLab.Unix
