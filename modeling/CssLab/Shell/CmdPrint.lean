import CssLab.Shell.Session

/-! `Cmd_print` of ast.c, and what the shell makes of its text. -/

namespace CssLab.Shell

/-- `"enter"`, of which `Cmd_print` puts two lines before a sequence. -/
def enter : List Char := ['e', 'n', 't', 'e', 'r']

/-- `Cmd_print` -/
def cmdPrint : Cmd → List Char
  | .atom word args => (word :: args).flatMap fun data => data.toList ++ [' ']
  | .seq left right =>
    enter ++ ['\n'] ++ enter ++ ['\n'] ++ cmdPrint left ++ [';', ' '] ++ cmdPrint right
  | .back command => cmdPrint command ++ [' ', '&']
  | .pipe left right => cmdPrint left ++ [' ', '|', ' '] ++ cmdPrint right
  | .redir left right flag =>
    cmdPrint left ++ [' ', if flag = .output then '>' else '<', ' '] ++ cmdPrint right

/-- The line of it that has the command. -/
def Cmd.line : Cmd → List Char
  | .atom word args => (word :: args).flatMap fun data => data.toList ++ [' ']
  | .seq left right => left.line ++ ([';', ' '] ++ right.line)
  | .back command => command.line ++ [' ', '&']
  | .pipe left right => left.line ++ ([' ', '|', ' '] ++ right.line)
  | .redir left right flag =>
    left.line ++ ([' ', if flag = .output then '>' else '<', ' '] ++ right.line)

def Cmd.seqs : Cmd → Nat
  | .atom _ _ => 0
  | .seq left right => left.seqs + right.seqs + 1
  | .back command => command.seqs
  | .pipe left right => left.seqs + right.seqs
  | .redir left right _ => left.seqs + right.seqs

/-- A word that the scanner can make. -/
def Token.scans : Token → Prop
  | .arg word => word ≠ "" ∧ word.toList.all isWord = true
  | _ => True

theorem scan_scans (text : List Char) : ∀ token ∈ scan text, token.scans := by
  induction size : text.length using Nat.strongRecOn generalizing text with
  | ind length ih =>
    cases opening text with
    | nil => exact nofun
    | space rest =>
      rw [scan_space]
      exact ih rest.length (size ▸ Nat.lt_succ_self _) rest rfl
    | operator known rest =>
      rw [scan_operator known]
      refine List.forall_mem_cons.mpr ⟨?_, ih rest.length (size ▸ Nat.lt_succ_self _) rest rfl⟩
      unfold operator at known
      split at known
      case h_7 => cases known
      all_goals
        cases known
        trivial
    | @word word rest some letters ends =>
      have shorter : rest.length < length := by
        rw [← size, List.length_append]
        exact Nat.lt_add_of_pos_left (List.length_pos_iff.mpr some)
      rw [scan_word some letters ends]
      refine List.forall_mem_cons.mpr ⟨⟨?_, ?_⟩, ih rest.length shorter rest rfl⟩
      · rwa [ne_eq, ← String.toList_inj, String.toList_ofList]
      · rwa [String.toList_ofList]
    | unknown word space none rest =>
      rw [scan_unknown word space none]
      exact nofun

theorem Clean.append (clean : Clean line) (more : Clean line') : Clean (line ++ line') := by
  intro char inside
  rcases List.mem_append.mp inside with inside | inside
  · exact clean char inside
  · exact more char inside

/-- The text of a command on its line is scanned as these tokens, whatever stands behind it. -/
structure Cmd.Prints (cmd : Cmd) (tokens : List Token) : Prop where
  clean : Clean cmd.line
  scanned : ∀ rest, scan (cmd.line ++ rest) = tokens ++ scan rest

theorem words_prints {words : List String} (each : ∀ word ∈ words, (Token.arg word).scans) :
    Clean (words.flatMap fun data => data.toList ++ [' ']) ∧
      ∀ rest, scan ((words.flatMap fun data => data.toList ++ [' ']) ++ rest) =
        words.map .arg ++ scan rest := by
  induction words with
  | nil => exact ⟨nofun, fun rest => rfl⟩
  | cons word words ih =>
    obtain ⟨⟨some, letters⟩, each⟩ := List.forall_mem_cons.mp each
    obtain ⟨clean, scanned⟩ := ih each
    rw [List.flatMap_cons]
    constructor
    · refine .append (.append (fun char inside => ?_) ?_) clean
      · have letter := List.all_eq_true.mp letters char inside
        refine ⟨?_, by simp [letter]⟩
        rintro rfl
        cases letter
      · rintro _ (_ | ⟨_, ⟨⟩⟩)
        exact ⟨by decide, by decide⟩
    · intro rest
      have some : word.toList ≠ [] := by
        rwa [ne_eq, ← String.toList_inj] at some
      have ends : Ends (' ' :: ((words.flatMap fun data => data.toList ++ [' ']) ++ rest)) := by
        rintro _ ⟨⟩
        rfl
      rw [List.append_assoc, List.append_assoc, List.singleton_append, scan_word some letters ends,
        String.ofList_toList, scan_space, scanned]
      rfl

/-- An operator between two commands, with the blanks around it. -/
theorem operator_prints {char : Char} {token : Token} (known : operator char = some token)
    (other : char ≠ '\n') : Clean [' ', char, ' '] ∧
      ∀ rest, scan ([' ', char, ' '] ++ rest) = token :: scan rest := by
  constructor
  · rintro _ (_ | ⟨_, _ | ⟨_, _ | ⟨_, ⟨⟩⟩⟩⟩)
    · exact ⟨by decide, by decide⟩
    · exact ⟨other, by simp [known]⟩
    · exact ⟨by decide, by decide⟩
  · intro rest
    exact (scan_space _).trans ((scan_operator known _).trans (congrArg _ (scan_space rest)))

theorem Basic.prints (basic : Basic tokens cmd) (each : ∀ token ∈ tokens, token.scans) :
    cmd.Prints tokens := by
  induction basic with
  | atom word args =>
    have words : ∀ data ∈ word :: args, (Token.arg data).scans := fun data inside =>
      each (.arg data) (List.mem_map_of_mem inside)
    obtain ⟨clean, scanned⟩ := words_prints words
    exact ⟨clean, scanned⟩
  | @back tokens cmd basic ih =>
    have before := ih fun token inside => each token (List.mem_append_left _ inside)
    refine ⟨.append before.clean ?_, fun rest => ?_⟩
    · rintro _ (_ | ⟨_, _ | ⟨_, ⟨⟩⟩⟩)
      · exact ⟨by decide, by decide⟩
      · exact ⟨by decide, by decide⟩
    · rw [Cmd.line, List.append_assoc, before.scanned, List.append_assoc]
      exact congrArg _ ((scan_space _).trans (scan_operator rfl rest))

/-- Two commands with the text of an operator between them. -/
theorem Cmd.Prints.between {left right : Cmd} {before after : List Token} {token : Token}
    {text : List Char} (first : left.Prints before) (second : right.Prints after)
    (clean : Clean text) (scanned : ∀ rest, scan (text ++ rest) = token :: scan rest) :
    Clean (left.line ++ (text ++ right.line)) ∧
      ∀ rest, scan (left.line ++ (text ++ right.line) ++ rest) =
        (before ++ token :: after) ++ scan rest := by
  refine ⟨first.clean.append (clean.append second.clean), fun rest => ?_⟩
  rw [List.append_assoc, first.scanned, List.append_assoc, scanned, second.scanned,
    List.append_assoc, List.cons_append]

theorem Redirected.prints (redirected : Redirected tokens cmd)
    (each : ∀ token ∈ tokens, token.scans) : cmd.Prints tokens := by
  induction redirected with
  | basic basic => exact basic.prints each
  | redir left flag right ih =>
    have before := ih fun token inside => each token (List.mem_append_left _ inside)
    have behind := right.prints fun token inside =>
      each token (List.mem_append_right _ (.tail _ inside))
    cases flag with
    | output =>
      obtain ⟨clean, scanned⟩ := (operator_prints rfl (by decide) : Clean [' ', '>', ' '] ∧ _)
      obtain ⟨clean, scanned⟩ := before.between behind clean scanned
      exact ⟨clean, scanned⟩
    | input =>
      obtain ⟨clean, scanned⟩ := (operator_prints rfl (by decide) : Clean [' ', '<', ' '] ∧ _)
      obtain ⟨clean, scanned⟩ := before.between behind clean scanned
      exact ⟨clean, scanned⟩

theorem Joined.prints (joined : Joined tokens cmd) (each : ∀ token ∈ tokens, token.scans) :
    cmd.Prints tokens := by
  induction joined with
  | redirected redirected => exact redirected.prints each
  | join left joint right ih =>
    have before := ih fun token inside => each token (List.mem_append_left _ inside)
    have behind := right.prints fun token inside =>
      each token (List.mem_append_right _ (.tail _ inside))
    cases joint with
    | bar =>
      obtain ⟨clean, scanned⟩ := (operator_prints rfl (by decide) : Clean [' ', '|', ' '] ∧ _)
      obtain ⟨clean, scanned⟩ := before.between behind clean scanned
      exact ⟨clean, scanned⟩
    | semicolon =>
      have clean : Clean [';', ' '] := by
        rintro _ (_ | ⟨_, _ | ⟨_, ⟨⟩⟩⟩)
        · exact ⟨by decide, by decide⟩
        · exact ⟨by decide, by decide⟩
      have scanned (rest : List Char) : scan ([';', ' '] ++ rest) = .semicolon :: scan rest :=
        (scan_operator rfl _).trans (congrArg _ (scan_space rest))
      obtain ⟨clean, scanned⟩ := before.between behind clean scanned
      exact ⟨clean, scanned⟩

/-- The lines that `Cmd_print` makes of no command. -/
def enters (count : Nat) : List (List Char) := List.replicate count enter

theorem ended_append (lines more : List (List Char)) :
    ended (lines ++ more) = ended lines ++ ended more := List.flatMap_append

theorem Basic.printed (basic : Basic tokens cmd) : cmdPrint cmd = cmd.line ∧ cmd.seqs = 0 := by
  induction basic with
  | atom word args => exact ⟨rfl, rfl⟩
  | back basic ih =>
    rw [cmdPrint, ih.1]
    exact ⟨rfl, ih.2⟩

theorem Redirected.printed (redirected : Redirected tokens cmd) :
    cmdPrint cmd = cmd.line ∧ cmd.seqs = 0 := by
  induction redirected with
  | basic basic => exact basic.printed
  | redir left flag right ih =>
    rw [cmdPrint, ih.1, right.printed.1, Cmd.seqs, ih.2, right.printed.2]
    exact ⟨List.append_assoc _ _ _, rfl⟩

/-- All the lines without a command come first. -/
theorem Joined.printed (joined : Joined tokens cmd) :
    cmdPrint cmd = ended (enters (2 * cmd.seqs)) ++ cmd.line := by
  induction joined with
  | redirected redirected =>
    obtain ⟨same, none⟩ := redirected.printed
    rw [same, none]
    rfl
  | @join before cmd after cmd' left joint right ih =>
    obtain ⟨same, none⟩ := right.printed
    cases joint with
    | bar =>
      have seqs : (Joint.bar.cmd cmd cmd').seqs = cmd.seqs := congrArg (cmd.seqs + ·) none
      rw [seqs, Joint.cmd, cmdPrint, ih, same]
      simp [Cmd.line]
    | semicolon =>
      have seqs : (Joint.semicolon.cmd cmd cmd').seqs = cmd.seqs + 1 :=
        congrArg (cmd.seqs + · + 1) none
      rw [seqs, Joint.cmd, cmdPrint, ih, same]
      simp [Cmd.line, enters, Nat.mul_add, List.replicate_succ, ended]

theorem scan_enter : scan enter = [.arg "enter"] := by
  have scanned : scan (enter ++ []) = .arg (String.ofList enter) :: scan [] :=
    scan_word (List.cons_ne_nil _ _) rfl nofun
  exact scanned

theorem enter_asks : Asks enter (some (.atom "enter" [])) := by
  refine ⟨by decide, ?_, Nat.le_of_ble_eq_true rfl⟩
  rw [scan_enter]
  exact .redirected (.basic (.atom "enter" []))

theorem enters_ask (count : Nat) :
    List.Forall₂ Asks (enters count) (List.replicate count (some (.atom "enter" []))) := by
  induction count with
  | zero => exact .nil
  | succ count ih => exact .cons enter_asks ih

/-- What `Cmd_print` makes of a command that the shell has read, typed in again, asks for the
command `enter` twice for each sequence in it, and then for the same command. -/
theorem printed_asks (asks : Asks line (some cmd)) :
    ∃ lines, cmdPrint cmd ++ ['\n'] = ended lines ∧ List.Forall₂ Asks lines
      (List.replicate (2 * cmd.seqs) (some (.atom "enter" [])) ++ [some cmd]) := by
  obtain ⟨-, joined, fits⟩ := asks
  have prints := joined.prints (scan_scans line)
  refine ⟨enters (2 * cmd.seqs) ++ [cmd.line], ?_, ?_⟩
  · rw [joined.printed, ended_append, List.append_assoc]
    exact congrArg _ (List.append_nil _).symm
  · refine List.rel_append ?_ (.cons ⟨prints.clean, ?_, fits⟩ .nil)
    · exact enters_ask _
    · have scanned := prints.scanned []
      rw [List.append_nil, scan_nil, List.append_nil] at scanned
      rw [scanned]
      exact joined

theorem printed_asks_sequence : ∃ lines,
    cmdPrint (.seq (.atom "ls" []) (.atom "wc" ["-l"])) ++ ['\n'] = ended lines ∧
      List.Forall₂ Asks lines (List.replicate 2 (some (.atom "enter" [])) ++
        [some (.seq (.atom "ls" []) (.atom "wc" ["-l"]))]) := by
  have asks : Asks "ls;wc -l".toList (some (.seq (.atom "ls" []) (.atom "wc" ["-l"]))) := by
    refine ⟨by decide, ?_, Nat.le_of_ble_eq_true rfl⟩
    have scanned : scan "ls;wc -l".toList = [.arg "ls", .semicolon, .arg "wc", .arg "-l"] := by
      decide
    rw [scanned]
    exact .join (.redirected (.basic (.atom "ls" []))) .semicolon (.basic (.atom "wc" ["-l"]))
  exact printed_asks asks

end CssLab.Shell
