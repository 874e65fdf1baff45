import CssLab.Shell.Grammar
import Mathlib.Data.List.Forall2

namespace CssLab.Shell

/-- The tokens of such a line. -/
def Token.isPlain : Token → Bool
  | .arg _ => true
  | .bar => true
  | .semicolon => true
  | _ => false

/-- Words that pipes go between, from the left to the right. -/
inductive Piped : List Token → Cmd → Prop
  | atom (word : String) (args : List String) :
      Piped (.arg word :: args.map .arg) (.atom word args)
  | pipe (left : Piped tokens cmd) (word : String) (args : List String) :
      Piped (tokens ++ .bar :: .arg word :: args.map .arg) (.pipe cmd (.atom word args))

/-- What a sequence runs, one after the other. -/
def Cmd.sequence : Cmd → List Cmd
  | .seq left right => left.sequence ++ right.sequence
  | command => [command]

def Cmd.hasSeq : Cmd → Bool
  | .atom _ _ => false
  | .back command => command.hasSeq
  | .pipe left right => left.hasSeq || right.hasSeq
  | .redir left right _ => left.hasSeq || right.hasSeq
  | .seq _ _ => true

/-- No sequence is below a pipe. -/
def Cmd.pipesApart : Cmd → Bool
  | .atom _ _ => true
  | .back command => command.pipesApart
  | .pipe left right => !left.hasSeq && !right.hasSeq
  | .redir left right _ => left.pipesApart && right.pipesApart
  | .seq left right => left.pipesApart && right.pipesApart

/-- The segments of a line run as pipelines of their own, in their order. -/
def Segmented (line : List Token) (cmd : Cmd) : Prop :=
  List.Forall₂ Piped (line.splitOnP (· == .semicolon)) cmd.sequence ∧ cmd.pipesApart

/-- No `';'` stands before a `'|'`. -/
def BarsFirst (line : List Token) : Prop :=
  line.Pairwise fun first later => first = .semicolon → later ≠ .bar

/-- What such a line is parsed as: its operators group to the left, of whichever kind. -/
inductive Plain : List Token → Cmd → Prop
  | words (word : String) (args : List String) :
      Plain (.arg word :: args.map .arg) (.atom word args)
  | join (left : Plain tokens cmd) (joint : Joint) (word : String) (args : List String) :
      Plain (tokens ++ joint.token :: .arg word :: args.map .arg)
        (joint.cmd cmd (.atom word args))

theorem Redirected.plain (redirected : Redirected tokens cmd)
    (plain : ∀ token ∈ tokens, token.isPlain) :
    ∃ word args, tokens = .arg word :: args.map .arg ∧ cmd = .atom word args := by
  cases redirected with
  | basic basic =>
    cases basic with
    | atom word args => exact ⟨word, args, rfl, rfl⟩
    | back basic => exact absurd (plain .ampersand (by simp)) (by decide)
  | redir left flag right =>
    have sign := plain flag.token (by simp)
    cases flag with
    | output => exact absurd sign (by decide)
    | input => exact absurd sign (by decide)

theorem Joined.plain (joined : Joined tokens cmd) (plain : ∀ token ∈ tokens, token.isPlain) :
    Plain tokens cmd := by
  induction joined with
  | redirected redirected =>
    obtain ⟨word, args, rfl, rfl⟩ := redirected.plain plain
    exact .words word args
  | join left joint right ih =>
    rw [List.forall_mem_append, List.forall_mem_cons] at plain
    obtain ⟨word, args, rfl, rfl⟩ := right.plain plain.2.2
    exact .join (ih plain.1) joint word args

theorem plain_of_accepts {line after : List Token} {cmd : Cmd}
    (plain : ∀ token ∈ line, token.isPlain)
    (accepts : Accepts (line ++ .newline :: after) (some cmd)) : Plain line cmd := by
  obtain ⟨line', after', joined, same⟩ := joined_of_accepts accepts
  have none : Token.newline ∉ line := fun member => absurd (plain .newline member) (by decide)
  obtain rfl : line = line' := by
    rw [← takeWhile_newline none after, same, takeWhile_newline joined.no_newline]
  exact joined.plain plain

theorem splitOnP_none {line : List Token} (none : .semicolon ∉ line) :
    line.splitOnP (· == .semicolon) = [line] := by
  apply List.splitOnP_eq_singleton
  intro token member
  exact beq_eq_false_iff_ne.mpr (ne_of_mem_of_not_mem member none)

theorem splitOnP_semicolon (before after : List Token) :
    (before ++ .semicolon :: after).splitOnP (· == .semicolon) =
      before.splitOnP (· == .semicolon) ++ after.splitOnP (· == .semicolon) :=
  List.splitOnP_append_cons before after rfl

theorem Plain.hasSeq_iff (plain : Plain line cmd) : cmd.hasSeq ↔ .semicolon ∈ line := by
  induction plain with
  | words word args => simp [Cmd.hasSeq]
  | join left joint word args ih =>
    cases joint with
    | bar => simp [Joint.cmd, Joint.token, Cmd.hasSeq, ih]
    | semicolon => simp [Joint.cmd, Joint.token, Cmd.hasSeq]

theorem Plain.piped (plain : Plain line cmd) (none : .semicolon ∉ line) :
    Piped line cmd := by
  induction plain with
  | words word args => exact .atom word args
  | join left joint word args ih =>
    rw [List.mem_append, List.mem_cons, not_or, not_or] at none
    cases joint with
    | bar => exact .pipe (ih none.1) word args
    | semicolon => exact absurd rfl none.2.1

theorem barsFirst_words (word : String) (args : List String) :
    BarsFirst (.arg word :: args.map .arg) := by
  apply List.pairwise_of_forall_mem_list
  simp

theorem barsFirst_bar (line : List Token) (word : String) (args : List String) :
    BarsFirst (line ++ .bar :: .arg word :: args.map .arg) ↔ .semicolon ∉ line := by
  have words := barsFirst_words word args
  unfold BarsFirst at words ⊢
  rw [List.pairwise_append, List.pairwise_cons]
  constructor
  · rintro ⟨-, -, ordered⟩ member
    exact ordered .semicolon member .bar (by simp) rfl rfl
  · intro absent
    have never : ∀ token ∈ line, token ≠ .semicolon :=
      fun token member => ne_of_mem_of_not_mem member absent
    refine ⟨?_, ⟨by simp, words⟩, ?_⟩
    · exact List.pairwise_of_forall_mem_list fun first member _ _ same =>
        absurd same (never first member)
    · exact fun first member _ _ same => absurd same (never first member)

theorem barsFirst_semicolon (line : List Token) (word : String) (args : List String) :
    BarsFirst (line ++ .semicolon :: .arg word :: args.map .arg) ↔ BarsFirst line := by
  have words := barsFirst_words word args
  unfold BarsFirst at words ⊢
  rw [List.pairwise_append, List.pairwise_cons]
  constructor
  · rintro ⟨ordered, -⟩
    exact ordered
  · intro ordered
    exact ⟨ordered, ⟨by simp, words⟩, by simp⟩

theorem segmented_semicolon (line : List Token) (cmd : Cmd) (word : String) (args : List String) :
    Segmented (line ++ .semicolon :: .arg word :: args.map .arg) (.seq cmd (.atom word args)) ↔
      Segmented line cmd := by
  have one : List.Forall₂ Piped [.arg word :: args.map .arg] [.atom word args] :=
    .cons (.atom word args) .nil
  have parts : (Cmd.seq cmd (.atom word args)).sequence = cmd.sequence ++ [.atom word args] := rfl
  have apart : (Cmd.seq cmd (.atom word args)).pipesApart = cmd.pipesApart := Bool.and_true _
  unfold Segmented
  rw [splitOnP_semicolon, @splitOnP_none (.arg word :: args.map .arg) (by simp), parts,
    apart]
  refine and_congr_left fun _ => ?_
  constructor
  · intro both
    have length := both.length_eq
    rw [List.length_append, List.length_append, List.length_singleton, List.length_singleton]
      at length
    have front := List.forall₂_take_append _ _ _ both
    rwa [List.take_left' (Nat.add_right_cancel length)] at front
  · intro front
    exact List.rel_append front one

theorem segmented_iff (plain : Plain line cmd) : Segmented line cmd ↔ BarsFirst line := by
  induction plain with
  | words word args =>
    refine iff_of_true ⟨?_, rfl⟩ (barsFirst_words word args)
    rw [splitOnP_none (by simp)]
    exact .cons (.atom word args) .nil
  | @join line cmd left joint word args ih =>
    cases joint with
    | bar =>
      rw [Joint.token, Joint.cmd, barsFirst_bar]
      constructor
      · rintro ⟨-, apart⟩ member
        rw [Cmd.pipesApart, left.hasSeq_iff.mpr member] at apart
        cases apart
      · intro absent
        have none : cmd.hasSeq = false := by
          rw [← Bool.not_eq_true, left.hasSeq_iff]
          exact absent
        refine ⟨?_, by rw [Cmd.pipesApart, none]; rfl⟩
        rw [splitOnP_none (by simp [absent])]
        exact .cons (.pipe (left.piped absent) word args) .nil
    | semicolon =>
      rw [Joint.token, Joint.cmd, barsFirst_semicolon, ← ih]
      exact segmented_semicolon line cmd word args

/-- A line of words, `'|'` and `';'` comes out as one pipeline after the other, and with no
sequence below a pipe, exactly when no `';'` stands before a `'|'`. -/
theorem segmented_iff_bars_first (line after : List Token) (cmd : Cmd)
    (plain : ∀ token ∈ line, token.isPlain)
    (accepts : Accepts (line ++ .newline :: after) (some cmd)) :
    Segmented line cmd ↔ BarsFirst line :=
  segmented_iff (plain_of_accepts plain accepts)

theorem segmented_iff_bars_first_line :
    Segmented [.arg "a", .bar, .arg "b", .semicolon, .arg "c"]
        (.seq (.pipe (.atom "a" []) (.atom "b" [])) (.atom "c" [])) ↔
      BarsFirst [.arg "a", .bar, .arg "b", .semicolon, .arg "c"] :=
  segmented_iff_bars_first _ [] _ (by decide) ⟨40, rfl⟩

/-- The pipe of `a ; b | c` has the output of `a` too. -/
theorem sequence_piped :
    ¬ ∀ line after cmd, (∀ token ∈ line, token.isPlain) →
      Accepts (line ++ .newline :: after) (some cmd) → Segmented line cmd := by
  intro always
  have accepts : Accepts [.arg "a", .semicolon, .arg "b", .bar, .arg "c", .newline]
      (some (.pipe (.seq (.atom "a" []) (.atom "b" [])) (.atom "c" []))) := ⟨40, rfl⟩
  have segmented := always [.arg "a", .semicolon, .arg "b", .bar, .arg "c"] [] _ (by decide) accepts
  exact absurd segmented.2 (by decide)

end CssLab.Shell
