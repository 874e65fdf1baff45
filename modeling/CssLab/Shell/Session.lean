import CssLab.Shell.ParserEnds
import CssLab.Shell.Scanner
import CssLab.Shell.Waiting
import Mathlib.Data.List.Forall2

namespace CssLab.Shell

open Unix Transition

/-- `main` leaves its loop at this. -/
def isExit : Option Cmd → Bool
  | some (.atom word _) => word == "exit"
  | _ => false

/-- What `main` is from the prompt of a line on, with these tokens to read, and the status it
exits with: that of `yyerror` is 1. -/
inductive Session : Nat → List Token → Prog Label → Nat → Prop
  | turns (reads : Reads tokens root rest) (other : isExit root = false)
      (more : Session (line + 1) rest next status) :
      Session line tokens (.print (.prompt line) "css-lab@ " (turn line root next)) status
  | breaks (reads : Reads tokens root rest) (exit : isExit root = true) :
      Session line tokens (.print (.prompt line) "css-lab@ " .exit) 0
  | exits (rejects : Rejects tokens) :
      Session line tokens (.print (.prompt line) "css-lab@ " .exit) 1

/-- What a line asks for. -/
def Asks (line : List Char) (root : Option Cmd) : Prop :=
  Clean line ∧
    match root with
    | none => scan line = []
    | some cmd => Joined (scan line) cmd ∧ cmd.height ≤ 9998

/-- A call of `yyparse` takes one line, and only if it asks for something. -/
theorem reads_scan_iff : Reads (scan text) root rest ↔
    ∃ line after, text = line ++ '\n' :: after ∧ Asks line root ∧ rest = scan after := by
  constructor
  · intro reads
    cases root with
    | none =>
      have found : scan text = [] ++ .newline :: rest := reads_none_iff.mp reads
      obtain ⟨line, after, rfl, clean, same, left⟩ := scan_newline found nofun
      exact ⟨line, after, rfl, ⟨clean, same⟩, left.symm⟩
    | some cmd =>
      obtain ⟨tokens, joined, fits, found⟩ := reads_some_iff.mp reads
      obtain ⟨line, after, rfl, clean, rfl, left⟩ := scan_newline found joined.no_newline
      exact ⟨line, after, rfl, ⟨clean, joined, fits⟩, left.symm⟩
  · rintro ⟨line, after, rfl, ⟨clean, asks⟩, rfl⟩
    rw [(scan_line clean after).1]
    cases root with
    | none =>
      rw [asks]
      exact reads_blank _
    | some cmd => exact reads_line asks.1 asks.2 _

theorem reads_line_scan (asks : Asks line root) (after : List Char) :
    Reads (scan (line ++ '\n' :: after)) root (scan after) :=
  reads_scan_iff.mpr ⟨line, after, rfl, asks, rfl⟩

/-- The lines of a text, each with its newline. -/
def ended (lines : List (List Char)) : List Char := lines.flatMap (· ++ ['\n'])

/-- Nothing at the start of a text is a line that asks for something. -/
def Refused (text : List Char) : Prop :=
  ∀ line root after, Asks line root → text ≠ line ++ '\n' :: after

theorem refused_iff : Refused text ↔ Rejects (scan text) := by
  rw [rejects_iff]
  constructor
  · intro refused root rest reads
    obtain ⟨line, after, same, asks, -⟩ := reads_scan_iff.mp reads
    exact refused line root after asks same
  · rintro never line root after asks rfl
    exact never root _ (reads_line_scan asks after)

/-- How the loop ends at what is left of the text. -/
def EndsAt (rest : List Char) (status : Nat) : Prop :=
  status = 0 ∧ (∃ line root after, rest = line ++ '\n' :: after ∧ Asks line root ∧ isExit root) ∨
    status = 1 ∧ Refused rest

theorem Reads.shorter (reads : Reads tokens root rest) : rest.length < tokens.length := by
  cases root with
  | none =>
    rw [reads_none_iff.mp reads]
    exact Nat.lt_succ_self _
  | some cmd =>
    obtain ⟨line, -, -, rfl⟩ := reads_some_iff.mp reads
    rw [List.length_append, List.length_cons]
    omega

theorem lines_exist (text : List Char) : ∃ lines rest roots status,
    text = ended lines ++ rest ∧ List.Forall₂ Asks lines roots ∧
      (∀ root ∈ roots, isExit root = false) ∧ EndsAt rest status := by
  induction size : (scan text).length using Nat.strongRecOn generalizing text with
  | ind length ih =>
    by_cases rejects : Rejects (scan text)
    · exact ⟨[], text, [], 1, rfl, .nil, nofun, .inr ⟨rfl, refused_iff.mpr rejects⟩⟩
    · rw [rejects_iff] at rejects
      push Not at rejects
      obtain ⟨root, rest, reads⟩ := rejects
      have shorter := reads.shorter
      obtain ⟨line, after, rfl, asks, rfl⟩ := reads_scan_iff.mp reads
      cases exit : isExit root with
      | true =>
        exact ⟨[], _, [], 0, rfl, .nil, nofun, .inl ⟨rfl, line, root, after, rfl, asks, exit⟩⟩
      | false =>
        obtain ⟨lines, rest, roots, status, rfl, each, others, ends⟩ :=
          ih _ (size ▸ shorter) after rfl
        refine ⟨line :: lines, rest, root :: roots, status, ?_, .cons asks each,
          List.forall_mem_cons.mpr ⟨exit, others⟩, ends⟩
        simp [ended]

theorem Session.eq (session : Session line tokens prog status)
    (again : Session line tokens prog' status') : prog' = prog ∧ status' = status := by
  induction session generalizing prog' with
  | turns reads other more ih =>
    cases again with
    | turns reads' other' more' =>
      obtain ⟨rfl, rfl⟩ := reads.eq reads'
      obtain ⟨rfl, rfl⟩ := ih more'
      exact ⟨rfl, rfl⟩
    | breaks reads' exit =>
      obtain ⟨rfl, rfl⟩ := reads.eq reads'
      rw [other] at exit
      cases exit
    | exits rejects => exact absurd rejects (not_rejects_of_reads reads)
  | breaks reads exit =>
    cases again with
    | turns reads' other more =>
      obtain ⟨rfl, rfl⟩ := reads.eq reads'
      rw [other] at exit
      cases exit
    | breaks reads' exit' => exact ⟨rfl, rfl⟩
    | exits rejects => exact absurd rejects (not_rejects_of_reads reads)
  | exits rejects =>
    cases again with
    | turns reads other more => exact absurd rejects (not_rejects_of_reads reads)
    | breaks reads exit => exact absurd rejects (not_rejects_of_reads reads)
    | exits rejects' => exact ⟨rfl, rfl⟩

/-- On lines that ask for these commands `main` makes the calls for them. -/
theorem session_of_lines {lines : List (List Char)} {roots : List (Option Cmd)} {rest : List Char}
    (each : List.Forall₂ Asks lines roots) (others : ∀ root ∈ roots, isExit root = false)
    (ends : EndsAt rest status) (line : Nat) :
    Session line (scan (ended lines ++ rest)) (main line roots) status := by
  induction each generalizing line with
  | nil =>
    rcases ends with ⟨rfl, text, root, after, rfl, asks, exit⟩ | ⟨rfl, refused⟩
    · exact .breaks (reads_line_scan asks after) exit
    · exact .exits (refused_iff.mp refused)
  | @cons text root lines roots asks each ih =>
    obtain ⟨other, others⟩ := List.forall_mem_cons.mp others
    have first : ended (text :: lines) ++ rest = text ++ '\n' :: (ended lines ++ rest) := by
      simp [ended]
    rw [first]
    exact .turns (reads_line_scan asks _) other (ih others (line + 1))

/-- On every text `main` makes the calls for what its lines ask for, one after the other, up to
the first `exit`, with status 0, or up to the first line that is none of the grammar, has a
character that starts no token, is too much for the stack or has no newline, with status 1. If
the words of the lines fit and the targets of their redirections are atoms, then in every state
that the shell and its processes come to no step is undefined and it waits for the right ones. -/
theorem session_runs (text : List Char) : ∃ lines rest roots status,
    text = ended lines ++ rest ∧ List.Forall₂ Asks lines roots ∧
      (∀ root ∈ roots, isExit root = false) ∧ EndsAt rest status ∧
      (∀ prog status', Session 0 (scan text) prog status' ↔
        prog = main 0 roots ∧ status' = status) ∧
      ∀ machine : Machine Image, (∀ cmd, some cmd ∈ roots → cmd.castable) →
        (∀ root ∈ roots, RootFits machine.Loads root) → ∀ system,
          Reachable (System.step machine) (System.boot (main 0 roots) standard) system →
          WaitsRight roots system := by
  obtain ⟨lines, rest, roots, status, rfl, each, others, ends⟩ := lines_exist text
  have session := session_of_lines each others ends 0
  refine ⟨lines, rest, roots, status, rfl, each, others, ends, fun prog status' => ⟨?_, ?_⟩, ?_⟩
  · exact session.eq
  · rintro ⟨rfl, rfl⟩
    exact session
  · intro machine castable fits system reachable
    exact waitsRight_of_reachable machine roots castable fits reachable

end CssLab.Shell
