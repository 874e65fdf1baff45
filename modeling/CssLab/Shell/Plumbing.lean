import CssLab.Lib.ProcessOnce
import CssLab.Lib.ProcessPoints
import CssLab.Shell.Run

namespace CssLab.Shell

open Unix Transition

/-- What descriptor 0 is in these frames: what the nearest `'<'` or `'|'` provides. -/
def Input (line : Nat) : List Frame → File Label → Prop
  | [], file => file = .original 0
  | ⟨.redir _ (.atom path _) .input, .left⟩ :: _, file => file = .named path
  | ⟨.pipe left right, .right⟩ :: outer, file =>
    ∃ id, file = .pipe id (.node line outer (.pipe left right)) .read
  | _ :: outer, file => Input line outer file

/-- What descriptor 1 is in these frames: what the nearest `'>'` or `'|'` provides. -/
def Output (line : Nat) : List Frame → File Label → Prop
  | [], file => file = .original 1
  | ⟨.redir _ (.atom path _) .output, .left⟩ :: _, file => file = .named path
  | ⟨.pipe left right, .left⟩ :: outer, file =>
    ∃ id, file = .pipe id (.node line outer (.pipe left right)) .write
  | _ :: outer, file => Output line outer file

/-- The command that is run on a side of another. -/
def Cmd.on : Side → Cmd → Option Cmd
  | .left, .back inner => some inner
  | .left, .pipe left _ => some left
  | .right, .pipe _ right => some right
  | .left, .redir left _ _ => some left
  | .left, .seq left _ => some left
  | .right, .seq _ right => some right
  | _, _ => none

/-- The command that lies in these frames in a tree. -/
def Within (tree : Cmd) : List Frame → Cmd → Prop
  | [], cmd => cmd = tree
  | ⟨node, side⟩ :: outer, cmd => Within tree outer node ∧ node.on side = some cmd

/-- The side of a pipe that uses an end of it. -/
def user : End → Side
  | .write => .left
  | .read => .right

/-- The label of the process that a pipe is made for. -/
def stage (side : Side) : Label → Label
  | .node line outer node => .node line (⟨node, side⟩ :: outer) ((node.on side).getD node)
  | label => label

/-- Ends of pipes are open only on their own side. -/
def Sided (here : Local Label) : Prop :=
  ∀ id label side, here.table.Open (.pipe id label side) →
    stage (user side) label ∈ here.lineage

/-- A write end is open on the left of its pipe, where the pipe was made, and
where the right side starts. -/
def Owed (here : Local Label) : Prop :=
  ∀ id label, here.table.Open (.pipe id label .write) →
    stage .left label ∈ here.lineage ∨ id ∈ here.made ∨
      here.fresh ∧ here.lineage.head? = some (stage .right label)

/-- The descriptors of an atom as it is exec'd. -/
def Connected (line : Nat) (tree : Cmd) (table : Descriptors (File Label)) (label : Label) :
    Prop :=
  ∃ frames word args input output, label = .node line frames (.atom word args) ∧
    Within tree frames (.atom word args) ∧ Input line frames input ∧ Output line frames output ∧
    table = [some input, some output, some (.original 2)]

def checked (line : Nat) (tree : Cmd) (here : Local Label) : Prog Label → Prop
  | .exec label _ _ _ => Connected line tree here.table label ∧ Owed here
  | .fault => False
  | _ => Owed here

theorem Sided.child {here : Local Label} (sided : Sided here) (label : Label) :
    Sided (here.child label) :=
  fun id other side opened => List.mem_cons_of_mem label (sided id other side opened)

theorem Sided.owed {here : Local Label} (sided : Sided here) : Owed here :=
  fun id label opened => Or.inl (sided id label .write opened)

theorem Owed.less {here : Local Label} (owed : Owed here) {table : Descriptors (File Label)}
    (less : ∀ file, table.Open file → here.table.Open file) : Owed { here with table } :=
  fun id label opened => owed id label (less _ opened)

/-- A file that is not an end of a pipe, or one of an own side. -/
def Mine (lineage : List Label) (file : File Label) : Prop :=
  ∀ id label side, file = .pipe id label side → stage (user side) label ∈ lineage

theorem Mine.deeper {lineage : List Label} {file : File Label} (mine : Mine lineage file)
    (label : Label) : Mine (label :: lineage) file :=
  fun id other side same => List.mem_cons_of_mem _ (mine id other side same)

theorem mine_pipe (lineage : List Label) (id : Nat) (label : Label) (side : End) :
    Mine (stage (user side) label :: lineage) (.pipe id label side) := by
  rintro id label side ⟨⟩
  exact List.mem_cons_self

theorem mine_named (lineage : List Label) (path : String) : Mine lineage (.named path) := nofun

/-- The state of a process that comes to a command. -/
structure Starts (line : Nat) (tree : Cmd) (frames : List Frame) (cmd : Cmd)
    (here : Local Label) (source sink : File Label) : Prop where
  within : Within tree frames cmd
  input : Input line frames source
  output : Output line frames sink
  sourceMine : Mine here.lineage source
  sinkMine : Mine here.lineage sink
  table : here.table = [some source, some sink, some (.original 2)]

variable {loads : String → List String → Prop} {line : Nat} {tree cmd : Cmd}
  {frames : List Frame} {here : Local Label} {source sink : File Label}

theorem Starts.sided (starts : Starts line tree frames cmd here source sink) : Sided here := by
  intro id label side opened
  simp only [starts.table, Descriptors.Open, List.mem_cons, Option.some.injEq, List.not_mem_nil,
    or_false] at opened
  rcases opened with same | same | same
  · exact starts.sourceMine id label side same.symm
  · exact starts.sinkMine id label side same.symm
  · cases same

theorem Starts.owed (starts : Starts line tree frames cmd here source sink) (fresh : Bool) :
    Owed { here with fresh } :=
  fun id label opened => Or.inl (starts.sided id label .write opened)

/-- A forked child that comes to a side of a command with what it was given. -/
theorem Starts.child {node : Cmd} {outer : List Frame} {side : Side} {above : Local Label}
    (within : Within tree outer node) (on : node.on side = some cmd) (label : Label)
    (input : Input line (⟨node, side⟩ :: outer) source)
    (output : Output line (⟨node, side⟩ :: outer) sink)
    (sourceMine : Mine (label :: above.lineage) source)
    (sinkMine : Mine (label :: above.lineage) sink)
    (table : here.table = [some source, some sink, some (.original 2)])
    (lineage : here.lineage = label :: above.lineage) :
    Starts line tree (⟨node, side⟩ :: outer) cmd here source sink :=
  ⟨⟨within, on⟩, input, output, lineage ▸ sourceMine, lineage ▸ sinkMine, table⟩

/-- What is owed while both ends of a new pipe are open. -/
theorem owed_between {id : Nat} {label : Label} (sourceMine : Mine here.lineage source)
    (sinkMine : Mine here.lineage sink)
    (table : here.table = [some source, some sink, some (.original 2),
      some (.pipe id label .read), some (.pipe id label .write)])
    (owner : stage .left label ∈ here.lineage ∨ id ∈ here.made ∨
      here.fresh ∧ here.lineage.head? = some (stage .right label)) :
    Owed here := by
  intro id' label' opened
  simp only [table, Descriptors.Open, List.mem_cons, Option.some.injEq, List.not_mem_nil,
    or_false] at opened
  rcases opened with same | same | same | same | same
  · exact Or.inl (sourceMine id' label' .write same.symm)
  · exact Or.inl (sinkMine id' label' .write same.symm)
  · cases same
  · cases same
  · cases same
    exact owner

theorem Owed.close (owed : Owed here) (fd : Nat) :
    Owed { here with table := here.table.close fd } :=
  owed.less fun _ => Descriptors.open_close

theorem Owed.dup (owed : Owed here) (fd : Nat) : Owed { here with table := here.table.dup fd } :=
  owed.less fun _ => Descriptors.open_dup

/-- What is owed is owed through the calls that put an end of a pipe in the
place of a descriptor. -/
theorem each_replace {fd end_ other another : Nat} {next : Prog Label} (owed : Owed here)
    (each : next.Each loads (checked line tree) Sided
      { here with table := (((here.table.close fd).dup end_).close other).close another }) :
    (Prog.close fd <| .dup end_ <| .close other <| .close another next).Each loads
      (checked line tree) Sided here :=
  ⟨owed, owed.close fd, (owed.close fd).dup end_, ((owed.close fd).dup end_).close other, each⟩

/-- However a process comes to a command, it comes to its atoms well connected. -/
theorem cmdRun_each (line : Nat) (tree : Cmd) {cmd : Cmd} (castable : cmd.castable)
    (fits : cmd.Fits loads) {frames : List Frame} {here : Local Label} {source sink : File Label}
    (starts : Starts line tree frames cmd here source sink) :
    (cmdRun line frames cmd).Each loads (checked line tree) Sided here := by
  induction cmd generalizing frames here source sink with
  | atom word args =>
    have owed := starts.owed here.fresh
    have connected : Connected line tree here.table (.node line frames (.atom word args)) :=
      ⟨frames, word, args, source, sink, rfl, starts.within, starts.input, starts.output,
        starts.table⟩
    obtain ⟨nine, short, known⟩ := fits
    rw [cmdRun_atom line frames nine short]
    refine ⟨⟨connected, owed⟩, starts.sided, fun missing => ?_⟩
    rw [cmdRunUsrBin_short _ (known.resolve_left missing)]
    exact ⟨⟨connected, owed⟩, starts.sided, fun _ => ⟨owed, owed⟩⟩
  | back inner ih =>
    have owed := starts.owed
    obtain ⟨within, input, output, sourceMine, sinkMine, table⟩ := starts
    refine ⟨owed _, ?_, fun _ => ⟨owed _, owed _⟩⟩
    apply ih castable fits
    exact .child within rfl _ input output (sourceMine.deeper _) (sinkMine.deeper _) table rfl
  | seq left right left_ih right_ih =>
    have owed := starts.owed
    obtain ⟨within, input, output, sourceMine, sinkMine, table⟩ := starts
    simp only [Cmd.castable, Bool.and_eq_true] at castable
    refine ⟨owed _, ?_, fun _ => ⟨owed _, ?_⟩⟩
    · apply left_ih castable.1 fits.1
      exact .child within rfl _ input output (sourceMine.deeper _) (sinkMine.deeper _) table rfl
    · apply right_ih castable.2 fits.2
      exact ⟨⟨within, rfl⟩, input, output, sourceMine, sinkMine, table⟩
  | redir left right flag left_ih right_ih =>
    have owed := starts.owed
    have sided := starts.sided
    obtain ⟨within, input, output, sourceMine, sinkMine, table⟩ := starts
    simp only [Cmd.castable, Bool.and_eq_true] at castable
    cases right with
    | atom path rest =>
      have inside := (sided.child
        (.node line (⟨.redir left (.atom path rest) flag, .left⟩ :: frames) left)).owed
      refine ⟨owed _, ⟨inside, inside.close _, ?_⟩, fun _ => ⟨owed _, owed _⟩⟩
      cases flag with
      | output =>
        apply left_ih castable.1 fits
        have opened : Output line (⟨.redir left (.atom path rest) .output, .left⟩ :: frames)
            (.named path) := rfl
        refine .child within rfl _ input opened (sourceMine.deeper _) (mine_named _ _) ?_ rfl
        simp only [Local.child, table]
        rfl
      | input =>
        apply left_ih castable.1 fits
        have opened : Input line (⟨.redir left (.atom path rest) .input, .left⟩ :: frames)
            (.named path) := rfl
        refine .child within rfl _ opened output (mine_named _ _) (sinkMine.deeper _) ?_ rfl
        simp only [Local.child, table]
        rfl
    | _ => cases castable.2
  | pipe left right left_ih right_ih =>
    have owed := starts.owed
    obtain ⟨within, input, output, sourceMine, sinkMine, table⟩ := starts
    obtain ⟨lineage, fresh, made, _⟩ := here
    obtain rfl := table
    simp only [Cmd.castable, Bool.and_eq_true] at castable
    refine ⟨owed _, fun new => ?_⟩
    have between (fresh : Bool) : Owed ⟨lineage, fresh, insert new made, [some source, some sink,
        some (.original 2), some (.pipe new (.node line frames (.pipe left right)) .read),
        some (.pipe new (.node line frames (.pipe left right)) .write)]⟩ :=
      owed_between sourceMine sinkMine rfl (Or.inr (Or.inl (Set.mem_insert new made)))
    refine ⟨between _, each_replace ?_ ?_, fun _ => ⟨between _, between _, each_replace ?_ ?_,
      fun _ => ⟨between _, (between _).close _, ((between _).close _).close _,
        ((between _).close _).close _⟩⟩⟩
    · exact owed_between (sourceMine.deeper _) (sinkMine.deeper _) rfl
        (Or.inl List.mem_cons_self)
    · apply left_ih castable.1 fits.1
      exact .child within rfl _ input ⟨new, rfl⟩ (sourceMine.deeper _) (mine_pipe _ _ _ _) rfl rfl
    · exact owed_between (sourceMine.deeper _) (sinkMine.deeper _) rfl (Or.inr (Or.inr ⟨rfl, rfl⟩))
    · apply right_ih castable.2 fits.2
      exact .child within rfl _ ⟨new, rfl⟩ output (mine_pipe _ _ _ _) (sinkMine.deeper _) rfl rfl

/-- Uses of labels of what lies in these frames. -/
def Beneath (line : Nat) (frames : List Frame) : Use Label → Prop
  | .fork label => ∃ frame inner cmd, label = .node line inner cmd ∧ frame :: frames <:+ inner
  | .pipe label => ∃ inner cmd, label = .node line inner cmd ∧ frames <:+ inner

theorem Beneath.outward {frame : Frame} {use : Use Label}
    (beneath : Beneath line (frame :: frames) use) : Beneath line frames use := by
  cases use with
  | fork label =>
    obtain ⟨first, inner, cmd, same, within⟩ := beneath
    exact ⟨frame, inner, cmd, same, (List.suffix_cons first _).trans within⟩
  | pipe label =>
    obtain ⟨inner, cmd, same, within⟩ := beneath
    exact ⟨inner, cmd, same, (List.suffix_cons frame _).trans within⟩

theorem beneath_fork (line : Nat) (frame : Frame) (frames : List Frame) (cmd : Cmd) :
    Beneath line frames (.fork (.node line (frame :: frames) cmd)) :=
  ⟨frame, _, cmd, rfl, List.suffix_refl _⟩

theorem beneath_apart {node : Cmd} {use : Use Label}
    (left : Beneath line (⟨node, .left⟩ :: frames) use)
    (right : Beneath line (⟨node, .right⟩ :: frames) use) : False := by
  have apart {inner : List Frame} (left : ⟨node, .left⟩ :: frames <:+ inner)
      (right : ⟨node, .right⟩ :: frames <:+ inner) : False := by
    cases (List.suffix_of_suffix_length_le left right (Nat.le_refl _)).eq_of_length rfl
  cases use with
  | fork label =>
    obtain ⟨frame, inner, cmd, rfl, within⟩ := left
    obtain ⟨frame', inner', cmd', same, within'⟩ := right
    cases same
    exact apart ((List.suffix_cons ..).trans within) ((List.suffix_cons ..).trans within')
  | pipe label =>
    obtain ⟨inner, cmd, rfl, within⟩ := left
    obtain ⟨inner', cmd', same, within'⟩ := right
    cases same
    exact apart within within'

theorem not_beneath_fork {inner : List Frame} (short : inner.length ≤ frames.length) :
    ¬Beneath line frames (.fork (.node line inner cmd)) := by
  rintro ⟨frame, inner, cmd, same, within⟩
  cases same
  exact Nat.not_succ_le_self _ (within.length_le.trans short)

theorem not_beneath_pipe {inner : List Frame} (short : inner.length < frames.length) :
    ¬Beneath line frames (.pipe (.node line inner cmd)) := by
  rintro ⟨inner, cmd, same, within⟩
  cases same
  exact Nat.not_succ_le_self _ (short.trans_le within.length_le)

theorem not_uses_atom {word : String} {args : List String} {use : Use Label} :
    ¬(cmdRun line frames (.atom word args)).Uses use := by
  rw [cmdRun, cmdRunUsrBin]
  split
  · exact id
  · split <;> exact id

theorem once_atom (line : Nat) (frames : List Frame) (word : String) (args : List String) :
    (cmdRun line frames (.atom word args)).Once := by
  rw [cmdRun, cmdRunUsrBin]
  split
  · trivial
  · split <;> trivial

theorem cmdRun_uses {use : Use Label} (uses : (cmdRun line frames cmd).Uses use) :
    Beneath line frames use := by
  induction cmd generalizing frames with
  | atom word args => exact (not_uses_atom uses).elim
  | back inner ih =>
    rcases uses with rfl | later | ⟨_, later⟩
    · exact beneath_fork ..
    · exact (ih later).outward
    · exact later.elim
  | seq left right left_ih right_ih =>
    rcases uses with rfl | later | ⟨_, later⟩
    · exact beneath_fork ..
    · exact (left_ih later).outward
    · exact (right_ih later).outward
  | redir left right flag left_ih right_ih =>
    cases right with
    | atom path rest =>
      rcases uses with rfl | later | ⟨_, later⟩
      · exact beneath_fork ..
      · exact (left_ih later).outward
      · exact later.elim
    | _ => exact uses.elim
  | pipe left right left_ih right_ih =>
    rcases uses with rfl | ⟨_, _, rfl | later | ⟨_, rfl | later | ⟨_, later⟩⟩⟩
    · exact ⟨_, _, rfl, List.suffix_refl _⟩
    · exact beneath_fork ..
    · exact (left_ih later).outward
    · exact beneath_fork ..
    · exact (right_ih later).outward
    · exact later.elim

theorem not_uses_fork {inner : List Frame} {other : Cmd} (short : inner.length ≤ frames.length) :
    ¬(cmdRun line frames cmd).Uses (.fork (.node line inner other)) :=
  fun uses => not_beneath_fork short (cmdRun_uses uses)

theorem cmdRun_once (line : Nat) (frames : List Frame) (cmd : Cmd) :
    (cmdRun line frames cmd).Once := by
  induction cmd generalizing frames with
  | atom word args => exact once_atom line frames word args
  | back inner ih =>
    exact ⟨not_uses_fork (Nat.le_refl _), ih _, fun _ => ⟨id, trivial, fun _ _ => id⟩⟩
  | seq left right left_ih right_ih =>
    refine ⟨not_uses_fork (Nat.le_refl _), left_ih _, fun _ => ⟨?_, right_ih _, ?_⟩⟩
    · exact not_uses_fork (Nat.le_refl _)
    · exact fun use uses uses' => beneath_apart (cmdRun_uses uses) (cmdRun_uses uses')
  | redir left right flag left_ih right_ih =>
    cases right with
    | atom path rest =>
      exact ⟨not_uses_fork (Nat.le_refl _), left_ih _, fun _ => ⟨id, trivial, fun _ _ => id⟩⟩
    | _ => exact trivial
  | pipe left right left_ih right_ih =>
    refine fun p0 p1 => ⟨?_, not_uses_fork (Nat.le_refl _), left_ih _, fun _ => ⟨?_, ?_, ?_⟩⟩
    · rintro (same | later | ⟨_, same | later | ⟨_, later⟩⟩)
      · cases same
      · exact not_beneath_pipe (Nat.lt_succ_self _) (cmdRun_uses later)
      · cases same
      · exact not_beneath_pipe (Nat.lt_succ_self _) (cmdRun_uses later)
      · exact later
    · rintro (same | later | ⟨_, later⟩)
      · cases same
      · have inside : (cmdRun line (⟨.pipe left right, .right⟩ :: frames) right).Uses _ := later
        exact not_uses_fork (by simp) inside
      · exact later
    · exact ⟨not_uses_fork (Nat.le_refl _), right_ih _, fun _ => ⟨id, trivial, fun _ _ => id⟩⟩
    · rintro use uses (rfl | later | ⟨_, later⟩)
      · have inside : (cmdRun line (⟨.pipe left right, .left⟩ :: frames) left).Uses _ := uses
        exact not_uses_fork (by simp) inside
      · exact beneath_apart (cmdRun_uses uses) (cmdRun_uses later)
      · exact later

/-- What holds of all processes that run a command: none comes to a fault, atoms
start connected, a label names one pipe, and the reader of a pipe sees the end
of it once its left side has exited and its maker has closed its ends. -/
structure Plumbed (machine : Machine Image) (line : Nat) (tree : Cmd)
    (system : System Label Image) : Prop where
  defined : ∀ pid process, system.Has pid process → process.status ≠ .running .fault
  connected : ∀ pid process label path args failed, system.Has pid process →
    process.status = .running (.exec label path args failed) →
    Connected line tree process.table label
  single : ∀ id id' label, system.Made id label → system.Made id' label → id = id'
  ends : ∀ pid process id label side, system.Has pid process →
    process.table.Open (.pipe id label side) → system.Made id label
  ended : ∀ pid process image fd next id outer left right pipe answer,
    system.Has pid process → process.status = .image image →
    machine.call image = .read fd next →
    process.table.lookup fd = some (.pipe id (.node line outer (.pipe left right)) .read) →
    system.pipes[id]? = some pipe → pipe.buffer = [] →
    (∀ other there, system.Has other there →
      .node line (⟨.pipe left right, .left⟩ :: outer) left ∈ there.lineage →
      there.status.isZombie ∨ there.status.isReaped) →
    (∀ maker, system.Has pipe.origin.1 maker → maker.holds id .write = false) →
    System.step machine system (pid, answer) =
      some (system.set pid { process with status := .image (next none) })

theorem open_of_holds {process : Process Label Image} {id : Nat} {side : End}
    (holds : process.holds id side) : ∃ label, process.table.Open (.pipe id label side) := by
  obtain ⟨entry, member, named⟩ := List.any_eq_true.mp holds
  cases entry with
  | none => cases named
  | some file =>
    cases file with
    | pipe id' label side' =>
      simp only [Option.any_some, File.isEnd, Bool.and_eq_true, decide_eq_true_eq] at named
      obtain ⟨rfl, rfl⟩ := named
      exact ⟨label, member⟩
    | _ => cases named

/-- The writers of a pipe are on its left, made it, or are about to be its right side. -/
theorem writer {system : System Label Image}
    (all : AllPlaced loads (checked line tree) Sided system) {pid : Nat}
    {process : Process Label Image} (has : system.Has pid process) {id : Nat} {label : Label}
    (opened : process.table.Open (.pipe id label .write)) :
    process.status.isZombie = false ∧ process.status.isReaped = false ∧
      (stage .left label ∈ process.lineage ∨
        ((system.pipes[id]?).map fun pipe => pipe.origin.1) = some pid ∨
        process.forked.isNone ∧ process.lineage.head? = some (stage .right label) ∧
          ∃ prog, process.status = .running prog) := by
  have placed := all.placed pid process has
  unfold Placed at placed
  split at placed
  · rename_i prog here
    have owed : Owed (process.view pid system.pipes) := by
      have first := placed.holds
      cases prog with
      | exec => exact first.2
      | fault => exact first.elim
      | _ => exact first
    rw [here]
    refine ⟨rfl, rfl, ?_⟩
    rcases owed id label opened with left | made | right
    · exact Or.inl left
    · exact Or.inr (Or.inl made)
    · exact Or.inr (Or.inr ⟨right.1, right.2, prog, rfl⟩)
  · rename_i image here
    obtain ⟨table, sided, more⟩ := placed
    rw [here]
    exact ⟨rfl, rfl, Or.inl (sided id label .write (more _ opened))⟩
  · rw [placed] at opened
    cases opened

/-- An exec'd process reads only pipes of whose right side it is part. -/
theorem reader {system : System Label Image}
    (all : AllPlaced loads (checked line tree) Sided system) {pid : Nat}
    {process : Process Label Image} (has : system.Has pid process)
    (here : process.status = .image image) {id : Nat} {label : Label}
    (opened : process.table.Open (.pipe id label .read)) :
    stage .right label ∈ process.lineage := by
  have placed := all.placed pid process has
  simp only [Placed, here] at placed
  obtain ⟨table, sided, more⟩ := placed
  exact sided id label .read (more _ opened)

theorem unheld {system : System Label Image} (named : Named system)
    (all : AllPlaced loads (checked line tree) Sided system) {pid : Nat}
    {process : Process Label Image} (has : system.Has pid process)
    (here : process.status = .image image) {id : Nat} {label : Label}
    (opened : process.table.Open (.pipe id label .read)) {pipe : Pipe Label}
    (found : system.pipes[id]? = some pipe)
    (left : ∀ other there, system.Has other there → stage .left label ∈ there.lineage →
      there.status.isZombie ∨ there.status.isReaped)
    (closed : ∀ maker, system.Has pipe.origin.1 maker → maker.holds id .write = false) :
    system.held id .write = false := by
  rw [System.held, List.any_eq_false]
  intro writing member holds
  obtain ⟨other, has'⟩ := List.mem_iff_getElem?.mp member
  obtain ⟨label', opened'⟩ := open_of_holds holds
  have same : label' = label := by
    obtain ⟨first, found', rfl⟩ := named.file has' opened'
    obtain ⟨second, found'', rfl⟩ := named.file has opened
    rw [Option.some.inj (found'.symm.trans found'')]
  subst same
  obtain ⟨unexited, unreaped, part⟩ := writer all has' opened'
  rcases part with onLeft | made | ⟨fresh, task, prog, running⟩
  · rcases left other writing has' onLeft with exited | exited
    · rw [unexited] at exited
      cases exited
    · rw [unreaped] at exited
      cases exited
  · rw [found] at made
    cases made
    rw [closed writing has'] at holds
    cases holds
  · obtain ⟨elder, there, hasElder, task', forked⟩ :=
      named.ancestor has (reader all has here opened)
    obtain rfl := named.task has' hasElder (task.trans task'.symm)
    cases has'.symm.trans hasElder
    rcases forked with rfl | forked
    · cases has.symm.trans has'
      cases here.symm.trans running
    · simp [Option.isNone_iff_eq_none.mp fresh] at forked

theorem plumbed_of_named {machine : Machine Image} {system : System Label Image}
    (named : Named system) (all : AllPlaced loads (checked line tree) Sided system) :
    Plumbed machine line tree system where
  defined pid process has here := by
    have placed := all.placed pid process has
    simp only [Placed, here] at placed
    exact placed
  connected pid process label path args failed has here := by
    have placed := all.placed pid process has
    simp only [Placed, here] at placed
    exact placed.1.1
  single _ _ _ made made' := named.pipe made made'
  ends _ _ _ _ _ has opened := named.file has opened
  ended pid process image fd next id outer left right pipe answer has here called file found
      drained exited closed := by
    have free := unheld named all has here (Descriptors.open_iff.mpr ⟨fd, file⟩) found exited closed
    simp only [System.step, has, here]
    exact (System.runImage_read_nil called file found drained pid answer).trans (by simp [free])

/-- In every state that a command with words that fit reaches in a process with the
standard descriptors, whatever it execs and in whatever order the processes take their
steps, the descriptors are plumbed. -/
theorem plumbed (machine : Machine Image) (line : Nat) (tree : Cmd) (castable : tree.castable)
    (fits : tree.Fits machine.Loads) {system : System Label Image}
    (reachable : Reachable (System.step machine) (System.boot (cmdRun line [] tree) standard)
      system) :
    Plumbed machine line tree system := by
  have starts : Starts line tree [] tree ⟨[], true, ∅, standard⟩ (.original 0) (.original 1) :=
    ⟨rfl, rfl, rfl, nofun, nofun, rfl⟩
  have named : Named system := by
    refine reachable.invariant (Named.boot (cmdRun_once line [] tree) ?_) ?_
    · intro id label side opened
      simp [standard, Descriptors.Open] at opened
    · exact fun _ _ _ named stepped => named.step stepped
  have all : AllPlaced machine.Loads (checked line tree) Sided system := by
    refine reachable.invariant (AllPlaced.boot (cmdRun_each line tree castable fits starts)) ?_
    exact fun _ _ _ all stepped => all.step (fun _ _ => id) stepped
  exact plumbed_of_named named all

/-- In `a | b c` the reader has started, the writer has exited and the pipe is closed. -/
theorem plumbed_reader :
    ∃ system : System Label Bool,
      (∃ process, system.Has 2 process ∧ process.status = .image false ∧ process.table =
        [some (.pipe 0 (.node 0 [] (.pipe (.atom "a" []) (.atom "b" ["c"]))) .read),
          some (.original 1), some (.original 2)]) ∧
      system.ended = [.node 0 [⟨.pipe (.atom "a" []) (.atom "b" ["c"]), .left⟩] (.atom "a" [])] ∧
      Plumbed ⟨1, fun _ args => some (args.length == 1),
        fun exits => if exits then .exit else .read 0 fun _ => true⟩
        0 (.pipe (.atom "a" []) (.atom "b" ["c"])) system := by
  refine ⟨_, ?_, ?_, plumbed ⟨1, fun _ args => some (args.length == 1),
    fun exits => if exits then .exit else .read 0 fun _ => true⟩ 0
    (.pipe (.atom "a" []) (.atom "b" ["c"])) rfl
    ⟨⟨by decide, by decide, .inr (by decide)⟩, by decide, by decide, .inr (by decide)⟩
    (reachable_get [(0, 0), (0, 0), (1, 0), (1, 0), (1, 0), (1, 0), (1, 0), (1, 0), (0, 1), (0, 0),
      (2, 0), (2, 0), (2, 0), (2, 0), (2, 0), (0, 0), (0, 0)] rfl)⟩
  · exact ⟨_, rfl, rfl, rfl⟩
  · rfl

/-- Ten words leave no room in `arg` for the null pointer, and the process that comes to run
them has no defined step. -/
theorem ten_words_unplumbed :
    ¬∀ (machine : Machine Unit) (tree : Cmd), tree.castable → ∀ system : System Label Unit,
      Reachable (System.step machine) (System.boot (cmdRun 0 [] tree) standard) system →
      Plumbed machine 0 tree system := by
  intro always
  let tree : Cmd := .atom "a" ["b", "c", "d", "e", "f", "g", "h", "i", "j"]
  have plumbed := always ⟨1, fun _ _ => some (), fun _ => .exit⟩ tree rfl _ ⟨[], rfl⟩
  exact plumbed.defined 0 _ rfl rfl

end CssLab.Shell
