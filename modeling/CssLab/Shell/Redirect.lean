import CssLab.Lib.Http
import CssLab.Lib.OpenFiles
import CssLab.Shell.Run

namespace CssLab.Shell

open Unix OpenFiles

/-- The files of the shell's processes, with the descriptors of one of them. -/
abbrev Files := State String (File Label)

/-- `O_CREAT | O_RDWR` -/
def redirFlags : Flags := ⟨true, false⟩

/-- The descriptors of a process as far as its program opens and closes them by itself. -/
def perform : Prog Label → Files → Files
  | .close fd next, files => perform next (files.close fd)
  | .openFile path next, files => perform next (files.openFile redirFlags path)
  | _, files => files

/-- The child that a program forks, as it is when it comes to its command. -/
def inChild : Prog Label → Files → Files
  | .fork _ child _, files => perform child files
  | _, files => files

/-- The files after `Cmd_run` of `left > path ...`, where the command makes these writes to
descriptor 1. Of the command nothing else matters, and neither does where it lies nor what is
behind the path. -/
def afterRedir (line : Nat) (frames : List Frame) (left : Cmd) (path : String)
    (args : List String) (writes : List (List UInt8)) (files : Files) : Files :=
  (inChild (cmdRun line frames (.redir left (.atom path args) .output)) files).writes 1 writes

theorem perform_cmdRun (line : Nat) (frames : List Frame) (cmd : Cmd) (files : Files) :
    perform (cmdRun line frames cmd) files = files := by
  cases cmd with
  | atom word args =>
    rw [cmdRun]
    split
    · rfl
    · rfl
  | redir left right flag =>
    cases right with
    | _ => rfl
  | _ => rfl

/-- Descriptor 1 is the file from its start on, and what was in the file is still there. -/
theorem writing_redirected (line : Nat) (frames : List Frame) (left : Cmd) (path : String)
    (args : List String) (files : Files) {source : Entry (File Label)}
    {rest : Descriptors (Entry (File Label))} (table : files.table = some source :: rest) :
    Writing (inChild (cmdRun line frames (.redir left (.atom path args) .output)) files) 1 path 0
      ((files.disk path).getD []) := by
  have child : inChild (cmdRun line frames (.redir left (.atom path args) .output)) files =
      (files.close 1).openFile redirFlags path := perform_cmdRun ..
  have lowest : ((files.close 1).table.place (.description files.descriptions.length)).1 = 1 := by
    rw [State.close, table]
    cases rest with
    | nil => rfl
    | cons sink rest =>
      cases rest with
      | nil => rfl
      | cons next rest => rfl
  have opened : Writing ((files.close 1).openFile redirFlags path) 1 path 0
      (if redirFlags.trunc then [] else (files.disk path).getD []) :=
    .openFile (files.close 1) path rfl lowest
  rw [child]
  exact opened

/-- The file has exactly what was written exactly if it was absent or had no more than that. -/
theorem redirect_exact_iff (line : Nat) (frames : List Frame) (left : Cmd) (path : String)
    (args : List String) (writes : List (List UInt8))
    (disk : String → Option (List UInt8)) (descriptions : List (Description String))
    (source : Entry (File Label)) (rest : Descriptors (Entry (File Label))) :
    (afterRedir line frames left path args writes
        ⟨disk, descriptions, some source :: rest⟩).disk path = some writes.flatten ↔
    ∀ old ∈ disk path, old.length ≤ writes.flatten.length := by
  have writing := (writing_redirected line frames left path args
    ⟨disk, descriptions, some source :: rest⟩ rfl).writes writes
  rw [afterRedir, writing.holds, overwrite_zero, Option.some.injEq, List.append_right_eq_self,
    List.drop_eq_nil_iff]
  change ((disk path).getD []).length ≤ writes.flatten.length ↔ _
  cases disk path with
  | none => simp
  | some old => simp

/-- In a file that held `hello world`, the output `hi` is followed by the rest of that. -/
theorem longer_file_keeps_rest :
    (afterRedir 0 [] (.atom "echo" ["hi"]) "f" [] [Http.text "hi"]
        ⟨fun path => if path = "f" then some (Http.text "hello world") else none, [],
          [some (.other (.original 0)), some (.other (.original 1)),
            some (.other (.original 2))]⟩).disk "f" = some (Http.text "hillo world") ∧
      (afterRedir 0 [] (.atom "echo" ["hi"]) "f" [] [Http.text "hi"]
        ⟨fun path => if path = "f" then some (Http.text "hello world") else none, [],
          [some (.other (.original 0)), some (.other (.original 1)),
            some (.other (.original 2))]⟩).disk "f" ≠ some [Http.text "hi"].flatten := by
  decide

end CssLab.Shell
