import CssLab.Lib.Process
import CssLab.Shell.Ast

/-! `Cmd_run` and `main` as programs of system calls. -/

namespace CssLab.Shell

open Unix

inductive Side
  | left
  | right
  deriving DecidableEq

/-- A command and the side of it that one is on. -/
structure Frame where
  node : Cmd
  side : Side
  deriving DecidableEq

/-- The prompt before a line, or a command of a line with all it lies in,
nearest first. -/
inductive Label
  | prompt (line : Nat)
  | node (line : Nat) (frames : List Frame) (cmd : Cmd)
  deriving DecidableEq

/-- `Cmd_run` of an atom when there is no program in `/bin/`, with `usrBinPath[50]`. -/
def cmdRunUsrBin (here : Label) (word : String) (args : List String) : Prog Label :=
  if 50 ≤ ("/usr/bin/" ++ word).utf8ByteSize then .fault
  else
    .exec here ("/usr/bin/" ++ word) (word :: args) <|
    .print here "cannot run command, check your input.\n" <|
    .exit

/-- `Cmd_run(cmd)`, which exits and does not return. What overruns an array is a `fault`:
`arg[10]`, in which a null pointer has to stand behind the words, and `binPath[50]`. -/
def cmdRun (line : Nat) : List Frame → Cmd → Prog Label
  | frames, .atom word args =>
    let here := Label.node line frames (.atom word args)
    if 10 ≤ (word :: args).length ∨ 50 ≤ ("/bin/" ++ word).utf8ByteSize then .fault
    else .exec here ("/bin/" ++ word) (word :: args) (cmdRunUsrBin here word args)
  | frames, .seq left right =>
    let inside := fun side => ⟨.seq left right, side⟩ :: frames
    .fork (.node line (inside .left) left) (cmdRun line (inside .left) left) fun _ =>
    .wait <|
    cmdRun line (inside .right) right
  | frames, .back back =>
    let inside := ⟨.back back, .left⟩ :: frames
    .fork (.node line inside back) (cmdRun line inside back) fun pid =>
    .print (.node line frames (.back back)) ("back process[" ++ toString pid ++ "]\n") <|
    .exit
  | frames, .pipe left right =>
    let inside := fun side => ⟨.pipe left right, side⟩ :: frames
    .pipe (.node line frames (.pipe left right)) fun p0 p1 =>
    .fork (.node line (inside .left) left)
      (.close 1 <| .dup p1 <| .close p0 <| .close p1 <| cmdRun line (inside .left) left) fun _ =>
    .wait <|
    .fork (.node line (inside .right) right)
      (.close 0 <| .dup p0 <| .close p0 <| .close p1 <| cmdRun line (inside .right) right) fun _ =>
    .close p0 <|
    .close p1 <|
    .wait <|
    .exit
  | frames, .redir left right flag =>
    let inside := ⟨.redir left right flag, .left⟩ :: frames
    match right with
    | .atom path _ =>
      let replaced := match flag with
        | .output => 1
        | .input => 0
      .fork (.node line inside left)
        (.close replaced <| .openFile path <| cmdRun line inside left) fun _ =>
      .wait <|
      .exit
    | _ =>
      -- the cast to an atom reads a member of another structure
      .fault

/-- How `main` runs a line that is not built in. -/
def runLine (line : Nat) (cmd : Cmd) (next : Prog Label) : Prog Label :=
  .fork (.node line [] cmd) (cmdRun line [] cmd) fun _ => .wait next

/-- What `main` does with the `root` that `yyparse` leaves, a command or, for an empty line,
none, before it goes on. A path that overruns `cdPath[20]` is a `fault`. -/
def turn (line : Nat) (root : Option Cmd) (next : Prog Label) : Prog Label :=
  match root with
  | none => next
  | some (.atom word args) =>
    if word = "exit" then .exit
    else if word = "cd" then
      match args with
      | [] => next
      | path :: _ =>
        if 20 ≤ path.utf8ByteSize then .fault
        else
          .chdir path fun done =>
          if done then next
          else .print (.node line [] (.atom word args)) ("cannot cd " ++ path ++ ".\n") next
    else runLine line (.atom word args) next
  | some cmd => runLine line cmd next

/-- `main` from the prompt of a line on, for what `yyparse` makes of the input. It exits at the
end of the input. -/
def main : Nat → List (Option Cmd) → Prog Label
  | line, [] => .print (.prompt line) "css-lab@ " .exit
  | line, root :: rest => .print (.prompt line) "css-lab@ " (turn line root (main (line + 1) rest))

/-- The descriptors that are open at first. -/
def standard : Descriptors (File Label) :=
  [some (.original 0), some (.original 1), some (.original 2)]

/-! ### Words that fit -/

/-- The words of an atom leave room in `arg`, and the paths that are tried in their arrays, when
these programs can be loaded. -/
def AtomFits (loads : String → List String → Prop) (word : String) (args : List String) : Prop :=
  (word :: args).length ≤ 9 ∧ word.utf8ByteSize ≤ 44 ∧
    (loads ("/bin/" ++ word) (word :: args) ∨ word.utf8ByteSize ≤ 40)

/-- So do those of all atoms that `Cmd_run` comes to, which leaves out the right side of a
redirection. -/
def Cmd.Fits (loads : String → List String → Prop) : Cmd → Prop
  | .atom word args => AtomFits loads word args
  | .back inner => inner.Fits loads
  | .pipe left right => left.Fits loads ∧ right.Fits loads
  | .redir left _ _ => left.Fits loads
  | .seq left right => left.Fits loads ∧ right.Fits loads

/-- The same for what `main` does with a line. -/
def RootFits (loads : String → List String → Prop) : Option Cmd → Prop
  | none => True
  | some (.atom word args) =>
    if word = "exit" then True
    else if word = "cd" then ∀ path ∈ args.head?, path.utf8ByteSize ≤ 19
    else AtomFits loads word args
  | some cmd => cmd.Fits loads

section Atoms

variable {loads : String → List String → Prop} {word : String} {args : List String}

theorem utf8ByteSize_bin (word : String) :
    ("/bin/" ++ word).utf8ByteSize = 5 + word.utf8ByteSize :=
  String.utf8ByteSize_append

theorem utf8ByteSize_usrBin (word : String) :
    ("/usr/bin/" ++ word).utf8ByteSize = 9 + word.utf8ByteSize :=
  String.utf8ByteSize_append

/-- What fits is tried in both directories. -/
theorem cmdRun_atom (line : Nat) (frames : List Frame) (nine : (word :: args).length ≤ 9)
    (short : word.utf8ByteSize ≤ 44) :
    cmdRun line frames (.atom word args) =
      .exec (.node line frames (.atom word args)) ("/bin/" ++ word) (word :: args)
        (cmdRunUsrBin (.node line frames (.atom word args)) word args) := by
  have fits : ¬(10 ≤ (word :: args).length ∨ 50 ≤ ("/bin/" ++ word).utf8ByteSize) := by
    rw [utf8ByteSize_bin]
    omega
  exact if_neg fits

theorem cmdRunUsrBin_short (here : Label) (short : word.utf8ByteSize ≤ 40) :
    cmdRunUsrBin here word args =
      .exec here ("/usr/bin/" ++ word) (word :: args)
        (.print here "cannot run command, check your input.\n" .exit) := by
  have fits : ¬50 ≤ ("/usr/bin/" ++ word).utf8ByteSize := by
    rw [utf8ByteSize_usrBin]
    omega
  exact if_neg fits

end Atoms

end CssLab.Shell
