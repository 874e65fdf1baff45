import CssLab.Lib.ProcessJoin
import CssLab.Shell.Run

namespace CssLab.Shell

open Unix Transition

/-- The atoms of a command that are not under a `'&'`. -/
def foreground (line : Nat) : List Frame → Cmd → List Label
  | frames, .atom word args => [.node line frames (.atom word args)]
  | _, .back _ => []
  | frames, .pipe left right =>
    foreground line (⟨.pipe left right, .left⟩ :: frames) left ++
      foreground line (⟨.pipe left right, .right⟩ :: frames) right
  | frames, .redir left right flag =>
    foreground line (⟨.redir left right flag, .left⟩ :: frames) left
  | frames, .seq left right =>
    foreground line (⟨.seq left right, .left⟩ :: frames) left ++
      foreground line (⟨.seq left right, .right⟩ :: frames) right

/-- What has to exit before a command in these frames starts: the foreground
of each left side that it is on the right of. -/
def required (line : Nat) : List Frame → List Label
  | [] => []
  | ⟨.seq left right, .right⟩ :: outer =>
    foreground line (⟨.seq left right, .left⟩ :: outer) left ++ required line outer
  | ⟨.pipe left right, .right⟩ :: outer =>
    foreground line (⟨.pipe left right, .left⟩ :: outer) left ++ required line outer
  | _ :: outer => required line outer

/-- `main` does these itself. -/
def builtIn : Cmd → Bool
  | .atom word _ => word = "exit" || word = "cd"
  | _ => false

/-- The foreground atoms of a line that `main` runs. -/
def lineForeground (lines : List (Option Cmd)) (line : Nat) : List Label :=
  match lines[line]? with
  | some (some cmd) => if builtIn cmd then [] else foreground line [] cmd
  | _ => []

/-- What the shell promises of its processes: none comes to a fault, a wait is for the one
child there is, commands go on when the foreground before them has exited, and a process
that runs a command exits when the foreground of that has. -/
structure WaitsRight (lines : List (Option Cmd)) (system : System Label Image) : Prop where
  defined : ∀ (pid : Nat) (process : Process Label Image),
    system.processes[pid]? = some process → process.status ≠ .running .fault
  waits : ∀ (pid : Nat) (process : Process Label Image) next,
    system.processes[pid]? = some process →
    process.status = .running (.wait next) →
    ∃ child, process.forked = some child ∧ system.unreaped pid = [child]
  ordered : ∀ line frames left right node below cmd,
    node = .seq left right ∨ node = .pipe left right →
    (⟨node, .right⟩ :: frames) <:+ below → Label.node line below cmd ∈ system.reached →
    foreground line (⟨node, .left⟩ :: frames) left ⊆ system.ended
  exits : ∀ (pid : Nat) (process : Process Label Image) line frames cmd,
    system.processes[pid]? = some process →
    process.status.isZombie ∨ process.status.isReaped →
    process.lineage.head? = some (.node line frames cmd) →
    foreground line frames cmd ⊆ system.ended
  prompts : ∀ line, Label.prompt line ∈ system.reached →
    ∀ earlier < line, lineForeground lines earlier ⊆ system.ended

/-- The same as a contract of the programs. -/
def contract (loads : String → List String → Prop) (lines : List (Option Cmd)) :
    Contract Label where
  needs
    | .prompt line => {label | ∃ earlier < line, label ∈ lineForeground lines earlier}
    | .node line frames _ => {label | label ∈ required line frames}
  promises
    | .prompt _ => ∅
    | .node line frames cmd => {label | label ∈ foreground line frames cmd}
  loads := loads

variable {loads : String → List String → Prop}

/-- What a right side requires is known once the left side's promise is. -/
theorem required_right {known : Set Label} {frames : List Frame} {node left right : Cmd}
    (branches : node = .seq left right ∨ node = .pipe left right)
    (before : {label | label ∈ required line frames} ⊆ known) :
    {label | label ∈ required line (⟨node, .right⟩ :: frames)} ⊆
      known ∪ {label | label ∈ foreground line (⟨node, .left⟩ :: frames) left} := by
  intro label member
  have parts : label ∈ foreground line (⟨node, .left⟩ :: frames) left ++ required line frames := by
    rcases branches with rfl | rfl <;> exact member
  rcases List.mem_append.mp parts with inside | outside
  · exact Or.inr inside
  · exact Or.inl (before outside)

theorem enough_right {goal known : Set Label} {first second : List Label}
    (enough : goal ⊆ known ∪ {label | label ∈ first ++ second}) :
    goal ⊆ (known ∪ {label | label ∈ first}) ∪ {label | label ∈ second} := by
  intro label member
  rcases enough member with old | new
  · exact Or.inl (Or.inl old)
  · rcases List.mem_append.mp new with one | two
    · exact Or.inl (Or.inr one)
    · exact Or.inr two

/-- With what it requires known, a command comes to its foreground. -/
theorem cmdRun_keeps (lines : List (Option Cmd)) (line : Nat) {cmd : Cmd} (frames : List Frame)
    (castable : cmd.castable) (fits : cmd.Fits loads) {goal known : Set Label}
    (before : {label | label ∈ required line frames} ⊆ known)
    (enough : goal ⊆ known ∪ {label | label ∈ foreground line frames cmd}) :
    (cmdRun line frames cmd).Keeps (contract loads lines) goal known none := by
  induction cmd generalizing frames goal known with
  | atom word args =>
    have others : goal \ {.node line frames (.atom word args)} ⊆ known := by
      intro label member
      rcases enough member.1 with old | new
      · exact old
      · exact absurd (List.mem_singleton.mp new) member.2
    obtain ⟨nine, short, known⟩ := fits
    rw [cmdRun_atom line frames nine short]
    refine ⟨rfl, before, others, fun missing => ?_⟩
    rw [cmdRunUsrBin_short _ (known.resolve_left missing)]
    exact ⟨rfl, before, Set.sdiff_subset.trans others, fun _ =>
      ⟨before, Set.sdiff_subset.trans others⟩⟩
  | back inner ih =>
    refine ⟨rfl, ih _ castable fits before Set.subset_union_right, fun _ => ⟨before, ?_⟩⟩
    intro label member
    exact (enough member).resolve_right nofun
  | pipe left right left_ih right_ih =>
    simp only [Cmd.castable, Bool.and_eq_true] at castable
    refine fun p0 p1 =>
      ⟨rfl, left_ih _ castable.1 fits.1 before Set.subset_union_right, fun _ => ⟨_, rfl, ?_⟩⟩
    refine ⟨rfl, right_ih _ castable.2 fits.2 (required_right (Or.inr rfl) before)
      Set.subset_union_right, fun _ => ⟨_, rfl, ?_⟩⟩
    exact enough_right enough
  | redir left right flag left_ih right_ih =>
    simp only [Cmd.castable, Bool.and_eq_true] at castable
    cases right with
    | atom path rest =>
      exact ⟨rfl, left_ih _ castable.1 fits before Set.subset_union_right,
        fun _ => ⟨_, rfl, enough⟩⟩
    | _ => cases castable.2
  | seq left right left_ih right_ih =>
    simp only [Cmd.castable, Bool.and_eq_true] at castable
    refine ⟨rfl, left_ih _ castable.1 fits.1 before Set.subset_union_right, fun _ => ⟨_, rfl, ?_⟩⟩
    exact right_ih _ castable.2 fits.2 (required_right (Or.inl rfl) before) (enough_right enough)

/-- What is known before a line, and what the line adds, is known after it. -/
theorem known_after {lines : List (Option Cmd)} {line : Nat} {known : Set Label}
    (before : ∀ earlier < line, ∀ label ∈ lineForeground lines earlier, label ∈ known)
    (now : ∀ label ∈ lineForeground lines line, label ∈ known) :
    ∀ earlier < line + 1, ∀ label ∈ lineForeground lines earlier, label ∈ known := by
  intro earlier below
  rcases Nat.lt_succ_iff_lt_or_eq.mp below with old | rfl
  · exact before earlier old
  · exact now

/-- A line is run and waited for before the next one. -/
theorem runLine_keeps {lines : List (Option Cmd)} {line : Nat} {cmd : Cmd} {known : Set Label}
    (castable : cmd.castable) (fits : cmd.Fits loads)
    (next : prog.Keeps (contract loads lines) ∅
      (known ∪ {label | label ∈ foreground line [] cmd}) none) :
    (runLine line cmd prog).Keeps (contract loads lines) ∅ known none := by
  refine ⟨rfl, ?_, fun _ => ⟨_, rfl, next⟩⟩
  exact cmdRun_keeps lines line [] castable fits (fun _ => nofun) Set.subset_union_right

theorem main_keeps (lines : List (Option Cmd))
    (castable : ∀ cmd, some cmd ∈ lines → cmd.castable)
    (fits : ∀ root ∈ lines, RootFits loads root) (line : Nat) (rest : List (Option Cmd))
    (here : lines.drop line = rest) (known : Set Label)
    (before : ∀ earlier < line, ∀ label ∈ lineForeground lines earlier, label ∈ known) :
    (main line rest).Keeps (contract loads lines) ∅ known none := by
  induction rest generalizing line known with
  | nil =>
    refine ⟨?_, Set.empty_subset _⟩
    rintro label ⟨earlier, below, member⟩
    exact before earlier below label member
  | cons input rest ih =>
    have prompt : (contract loads lines).needs (.prompt line) ⊆ known := by
      rintro label ⟨earlier, below, member⟩
      exact before earlier below label member
    have now : lines[line]? = some input := by
      rw [← List.head?_drop, here]
      rfl
    have later : lines.drop (line + 1) = rest := by
      rw [← List.tail_drop, here]
      rfl
    have skip (nothing : lineForeground lines line = []) :
        (main (line + 1) rest).Keeps (contract loads lines) ∅ known none := by
      refine ih (line + 1) later known (known_after before ?_)
      rw [nothing]
      exact nofun
    have run (cmd : Cmd) (same : input = some cmd) (fits : cmd.Fits loads) :
        (runLine line cmd (main (line + 1) rest)).Keeps (contract loads lines) ∅ known none := by
      subst same
      refine runLine_keeps (castable cmd (List.mem_of_getElem? now)) fits (ih (line + 1) later _ ?_)
      refine known_after (fun earlier below label member => ?_) ?_
      · exact Or.inl (before earlier below label member)
      · intro label member
        simp only [lineForeground, now] at member
        split at member
        · cases member
        · exact Or.inr member
    have room := fits input (List.mem_of_getElem? now)
    refine ⟨prompt, ?_⟩
    cases input with
    | none => exact skip (by simp [lineForeground, now])
    | some cmd =>
      cases cmd with
      | atom word args =>
        simp only [turn]
        by_cases leaves : word = "exit"
        · rw [if_pos leaves]
          exact Set.empty_subset _
        · simp only [RootFits, if_neg leaves] at room
          rw [if_neg leaves]
          by_cases moves : word = "cd"
          · rw [if_pos moves] at room ⊢
            have goOn := skip (by simp [lineForeground, now, builtIn, moves])
            cases args with
            | nil => exact goOn
            | cons path more =>
              have short : path.utf8ByteSize ≤ 19 := room path rfl
              simp only [if_neg (Nat.not_le_of_lt (Nat.lt_succ_of_le short))]
              intro done
              cases done with
              | true => exact goOn
              | false => exact ⟨fun _ => nofun, goOn⟩
          · rw [if_neg moves] at room ⊢
            exact run _ rfl room
      | _ => exact run _ rfl room

theorem required_suffix {line : Nat} {inner below : List Frame} (within : inner <:+ below) :
    required line inner ⊆ required line below := by
  obtain ⟨outer, rfl⟩ := within
  induction outer with
  | nil => exact List.Subset.refl _
  | cons frame rest ih =>
    refine List.Subset.trans ih ?_
    obtain ⟨node, side⟩ := frame
    cases side with
    | left => cases node <;> exact List.Subset.refl _
    | right =>
      cases node with
      | seq left right => exact List.subset_append_right _ _
      | pipe left right => exact List.subset_append_right _ _
      | _ => exact List.Subset.refl _

theorem waitsRight_of_kept {lines : List (Option Cmd)} {system : System Label Image}
    (kept : (contract loads lines).Kept system) : WaitsRight lines system where
  defined _ _ found := kept.defined found
  waits _ _ _ found here := kept.waits found here
  ordered line frames left right node below cmd branches within reached := by
    refine List.Subset.trans ?_ (kept.timely _ reached)
    refine List.Subset.trans ?_ (required_suffix within)
    rcases branches with rfl | rfl <;> exact List.subset_append_left _ _
  exits _ _ _ _ _ found ended task := kept.exited found ended task
  prompts line reached earlier below label member := kept.timely _ reached ⟨earlier, below, member⟩

theorem waitsRight_of_reachable (machine : Machine Image) (lines : List (Option Cmd))
    (castable : ∀ cmd, some cmd ∈ lines → cmd.castable)
    (fits : ∀ root ∈ lines, RootFits machine.Loads root) {system : System Label Image}
    (reachable : Reachable (System.step machine) (System.boot (main 0 lines) standard) system) :
    WaitsRight lines system := by
  have start : (contract machine.Loads lines).Kept
      (System.boot (main 0 lines) standard : System Label Image) :=
    Contract.Kept.boot (main_keeps lines castable fits 0 lines rfl ∅ nofun)
  refine waitsRight_of_kept (reachable.invariant start ?_)
  intro before event after kept stepped
  exact kept.step (fun _ _ => id) stepped

/-- In every state the shell reaches, whatever it is given to run, with words that fit, and in
whatever order the processes take their steps, it waits for the right ones. -/
theorem waits_right (machine : Machine Image) (lines : List (Option Cmd))
    (castable : ∀ cmd, some cmd ∈ lines → cmd.castable)
    (fits : ∀ root ∈ lines, RootFits machine.Loads root) {system : System Label Image}
    (reachable : Reachable (System.step machine) (System.boot (main 0 lines) standard) system) :
    WaitsRight lines system :=
  waitsRight_of_reachable machine lines castable fits reachable

/-- The prompt after `a &` comes while the process of `a` has yet to start it. -/
theorem waits_right_background :
    ∃ system : System Label Unit, .prompt 1 ∈ system.reached ∧ system.ended = [] ∧
      WaitsRight [some (.back (.atom "a" []))] system := by
  refine ⟨_, ?_, ?_, waits_right ⟨1, fun _ _ => some (), fun _ => .exit⟩
    [some (.back (.atom "a" []))] (by simp [Cmd.castable])
    (List.forall_mem_singleton.mpr ⟨by decide, by decide, .inr (by decide)⟩) (reachable_get
      [(0, 0), (0, 0), (1, 0), (1, 0), (1, 0), (0, 1), (0, 0)] rfl)⟩
  · exact List.mem_cons_self
  · rfl

/-- A `cd` to a path of twenty bytes overruns `cdPath`, and `main` has no defined step then. -/
theorem long_cd_undefined :
    ¬∀ (machine : Machine Unit) (lines : List (Option Cmd)),
      (∀ cmd, some cmd ∈ lines → cmd.castable) → ∀ system : System Label Unit,
        Reachable (System.step machine) (System.boot (main 0 lines) standard) system →
        WaitsRight lines system := by
  intro always
  let lines : List (Option Cmd) := [some (.atom "cd" ["aaaaaaaaaaaaaaaaaaaa"])]
  have castable : ∀ cmd, some cmd ∈ lines → cmd.castable := by simp [lines, Cmd.castable]
  have waits := always ⟨1, fun _ _ => some (), fun _ => .exit⟩ lines castable _
    (reachable_get [(0, 0)] rfl)
  exact waits.defined 0 _ rfl rfl

end CssLab.Shell
