import CssLab.Shell.Grammar
import Mathlib.Tactic.FinCases

namespace CssLab.Shell

/-- How many entries the stack needs for a command above what it stands on. -/
def Cmd.height : Cmd → Nat
  | .atom _ args => args.length + 2
  | .back command => command.height
  | .pipe left right => max left.height (right.height + 2)
  | .redir left right _ => max left.height (right.height + 2)
  | .seq left right => max left.height (right.height + 2)

theorem Basic.two_le_height (basic : Basic tokens cmd) : 2 ≤ cmd.height := by
  induction basic with
  | atom word args => exact Nat.le_add_left 2 args.length
  | back basic ih => exact ih

/-- The parser comes from here to this in the end. -/
def Parser.Leads (parser : Parser) (outcome : Outcome) : Prop := ∃ fuel, parser.run fuel = outcome

theorem Parser.Leads.step {parser next : Parser} (leads : next.Leads outcome)
    (stepped : parser.step = .goes next) : parser.Leads outcome := by
  obtain ⟨fuel, ends⟩ := leads
  refine ⟨fuel + 1, ?_⟩
  rw [Parser.run, stepped]
  exact ends

/-- The next token of what is left, and what is left behind it. -/
def ahead : List Token → Lookahead × List Token
  | [] => (.eof, [])
  | token :: rest => (.token token, rest)

/-- These tokens are still to be parsed, the first of them perhaps in the lookahead. -/
def Lookahead.Sees (look : Lookahead) (left rest : List Token) : Prop :=
  look = .empty ∧ rest = left ∨ ahead left = (look, rest)

theorem read_of_sees {look : Lookahead} (stack : List (Nat × Value)) (sees : look.Sees left rest) :
    Parser.read ⟨stack, look, rest⟩ = ⟨stack, (ahead left).1, (ahead left).2⟩ := by
  rcases sees with ⟨rfl, rfl⟩ | same
  · cases rest with
    | nil => rfl
    | cons token rest => rfl
  · cases left with
    | nil =>
      cases same
      rfl
    | cons token left =>
      cases same
      rfl

/-- The states in which a command is next. -/
def beforeCommand : List Nat := [0, 9, 10, 11, 12]

theorem wordsOn_top (word : String) (args : List String) (stack : List (Nat × Value)) :
    ∃ state value more, wordsOn word args ++ stack = (state, value) :: more ∧
      more.length = args.length + stack.length ∧
      (state = 1 ∧ args = [] ∨ state = 6 ∧ args ≠ []) := by
  have length (args : List String) : (wordsOn word args).length = args.length + 1 := by
    induction args with
    | nil => rfl
    | cons arg args ih => rw [wordsOn, List.length_cons, ih, List.length_cons]
  cases args with
  | nil =>
    refine ⟨1, _, stack, rfl, ?_, .inl ⟨rfl, rfl⟩⟩
    rw [List.length_nil, Nat.zero_add]
  | cons arg args =>
    refine ⟨6, .id arg, wordsOn word args ++ stack, rfl, ?_, .inr ⟨rfl, List.cons_ne_nil _ _⟩⟩
    rw [List.length_append, length, List.length_cons]

section Runs

variable {state : Nat} {value : Value} {below stack : List (Nat × Value)} {look : Lookahead}
  {left rest after : List Token} {outcome : Outcome}

theorem leads_reads (short : below.length < 9999) (reads : yypact.getD state 0 ≠ -9)
    (sees : look.Sees left rest)
    (decided : Parser.decide state ⟨(state, value) :: below, (ahead left).1, (ahead left).2⟩ =
      .goes next) (leads : next.Leads outcome) :
    Parser.Leads ⟨(state, value) :: below, look, rest⟩ outcome := by
  have room : ¬10000 ≤ ((state, value) :: below).length := by
    rw [List.length_cons]
    omega
  apply leads.step
  rw [Parser.step]
  simp only [room, if_false]
  rw [Parser.yybackup, if_neg reads, read_of_sees _ sees, decided]

theorem leads_default (short : below.length < 9999) (reduces : yypact.getD state 0 = -9)
    (decided : Parser.yydefault state ⟨(state, value) :: below, look, rest⟩ = .goes next)
    (leads : next.Leads outcome) : Parser.Leads ⟨(state, value) :: below, look, rest⟩ outcome := by
  have room : ¬10000 ≤ ((state, value) :: below).length := by
    rw [List.length_cons]
    omega
  apply leads.step
  rw [Parser.step]
  simp only [room, if_false]
  rw [Parser.yybackup, if_pos reduces, decided]

theorem leads_error (long : 9999 < stack.length) : Parser.Leads ⟨stack, look, rest⟩ .error := by
  cases stack with
  | nil => exact absurd long (Nat.not_lt_zero _)
  | cons top below =>
    have full : 10000 ≤ (top :: below).length := long
    refine ⟨1, ?_⟩
    rw [Parser.run, Parser.step]
    simp only [if_pos full]

/-- The arguments are put together from the last one, and then the atom. -/
theorem leads_args (begins : state ∈ beforeCommand) (word : String) (args later : List String)
    (fits : below.length + args.length < 9997)
    (leads : Parser.Leads ⟨(afterCommand state, .cmd (.atom word (args.reverse ++ later))) ::
      (state, value) :: below, look, rest⟩ outcome) :
    Parser.Leads ⟨(if args = [] then 7 else 15, .node later) :: wordsOn word args ++
      (state, value) :: below, look, rest⟩ outcome := by
  induction args generalizing later with
  | nil =>
    have atom : Parser.Leads ⟨(5, .cmd (.atom word later)) :: (state, value) :: below, look, rest⟩
        outcome := by
      refine leads_default (by simp only [List.length_cons]; omega) (by decide) ?_ leads
      fin_cases begins <;> rfl
    have fits' : ((1, .id word) :: (state, value) :: below).length < 9999 := by
      simp only [List.length_cons, List.length_nil] at fits ⊢
      omega
    refine leads_default fits' (by decide) ?_ atom
    fin_cases begins <;> rfl
  | cons arg args ih =>
    rw [List.length_cons] at fits
    rw [List.reverse_cons, List.append_assoc] at leads
    have later := ih (arg :: later) (by omega) leads
    obtain ⟨state', value', more, same, length, which⟩ :=
      wordsOn_top word args ((state, value) :: below)
    have whole : wordsOn word (arg :: args) ++ (state, value) :: below =
        (6, .id arg) :: (state', value') :: more := congrArg _ same
    rw [List.length_cons] at length
    rw [List.cons_append, same] at later
    rw [List.cons_append, whole]
    refine leads_default (by simp only [List.length_cons]; omega) rfl ?_ later
    rcases which with ⟨rfl, rfl⟩ | ⟨rfl, some⟩
    · rfl
    · rw [if_neg some]
      rfl

theorem decide_words (which : state = 1 ∧ args = [] ∨ state = 6 ∧ args ≠ [])
    (ends : ∀ word, after.head? ≠ some (.arg word)) :
    Parser.decide state ⟨(state, value) :: below, (ahead after).1, (ahead after).2⟩ =
      .goes ⟨(if args = [] then 7 else 15, .node []) :: (state, value) :: below, (ahead after).1,
        (ahead after).2⟩ := by
  have decided : Parser.decide state ⟨(state, value) :: below, (ahead after).1, (ahead after).2⟩ =
      .goes ⟨(if state = 1 then 7 else 15, .node []) :: (state, value) :: below, (ahead after).1,
        (ahead after).2⟩ := by
    rcases after with _ | ⟨token, after⟩
    · rcases which with ⟨rfl, -⟩ | ⟨rfl, -⟩ <;> rfl
    · cases token with
      | arg other => exact absurd rfl (ends other)
      | _ => rcases which with ⟨rfl, -⟩ | ⟨rfl, -⟩ <;> rfl
  rw [decided]
  rcases which with ⟨rfl, rfl⟩ | ⟨rfl, some⟩
  · rfl
  · rw [if_neg some]
    rfl

/-- The words of an atom are read up to what is none. -/
theorem leads_words (begins : state ∈ beforeCommand) (word : String) (args later : List String)
    (fits : below.length + args.length + later.length < 9997)
    (sees : look.Sees (later.map .arg ++ after) rest)
    (ends : ∀ word, after.head? ≠ some (.arg word))
    (leads : ∀ look rest, look.Sees after rest →
      Parser.Leads ⟨(afterCommand state, .cmd (.atom word (args.reverse ++ later))) ::
        (state, value) :: below, look, rest⟩ outcome) :
    Parser.Leads ⟨wordsOn word args ++ (state, value) :: below, look, rest⟩ outcome := by
  induction later generalizing args look rest with
  | nil =>
    have reduced := leads_args begins word args [] (by omega)
      (leads (ahead after).1 (ahead after).2 (.inr rfl))
    obtain ⟨state', value', more, same, length, which⟩ :=
      wordsOn_top word args ((state, value) :: below)
    rw [List.length_cons] at length
    rw [List.cons_append, same] at reduced
    rw [same]
    refine leads_reads (by omega) ?_ sees (decide_words which ends) reduced
    rcases which with ⟨rfl, -⟩ | ⟨rfl, -⟩
    · decide
    · decide
  | cons arg later ih =>
    rw [List.length_cons] at fits
    have shifted : Parser.Leads ⟨wordsOn word (arg :: args) ++ (state, value) :: below, .empty,
        later.map .arg ++ after⟩ outcome := by
      refine ih (arg :: args) ?_ (.inl ⟨rfl, rfl⟩) ?_
      · rw [List.length_cons]
        omega
      · intro look rest sees
        rw [List.reverse_cons, List.append_assoc]
        exact leads look rest sees
    obtain ⟨state', value', more, same, length, which⟩ :=
      wordsOn_top word args ((state, value) :: below)
    rw [List.length_cons] at length
    rw [wordsOn, List.cons_append, same] at shifted
    rw [same]
    refine leads_reads (by omega) ?_ sees ?_ shifted
    · rcases which with ⟨rfl, -⟩ | ⟨rfl, -⟩
      · decide
      · decide
    · rcases which with ⟨rfl, -⟩ | ⟨rfl, -⟩
      · rfl
      · rfl

theorem words_overflow (word : String) (args later : List String)
    (full : 9997 ≤ below.length + args.length + later.length)
    (sees : look.Sees (later.map .arg ++ after) rest)
    (ends : ∀ word, after.head? ≠ some (.arg word)) :
    Parser.Leads ⟨wordsOn word args ++ (state, value) :: below, look, rest⟩ .error := by
  induction later generalizing args look rest with
  | nil =>
    obtain ⟨state', value', more, same, length, which⟩ :=
      wordsOn_top word args ((state, value) :: below)
    rw [List.length_cons] at length
    rw [same]
    by_cases short : more.length < 9999
    · have grown : Parser.Leads ⟨(if args = [] then 7 else 15, .node []) :: (state', value') ::
          more, (ahead after).1, (ahead after).2⟩ .error := by
        refine leads_error ?_
        simp only [List.length_cons, List.length_nil] at full ⊢
        omega
      refine leads_reads short ?_ sees (decide_words which ends) grown
      rcases which with ⟨rfl, -⟩ | ⟨rfl, -⟩
      · decide
      · decide
    · exact leads_error (Nat.lt_succ_of_le (Nat.le_of_not_lt short))
  | cons arg later ih =>
    have shifted : Parser.Leads ⟨wordsOn word (arg :: args) ++ (state, value) :: below, .empty,
        later.map .arg ++ after⟩ .error := by
      refine ih (arg :: args) ?_ (.inl ⟨rfl, rfl⟩)
      simp only [List.length_cons] at full ⊢
      omega
    obtain ⟨state', value', more, same, length, which⟩ :=
      wordsOn_top word args ((state, value) :: below)
    rw [wordsOn, List.cons_append, same] at shifted
    rw [same]
    by_cases short : more.length < 9999
    · refine leads_reads short ?_ sees ?_ shifted
      · rcases which with ⟨rfl, -⟩ | ⟨rfl, -⟩
        · decide
        · decide
      · rcases which with ⟨rfl, -⟩ | ⟨rfl, -⟩
        · rfl
        · rfl
    · exact leads_error (Nat.lt_succ_of_le (Nat.le_of_not_lt short))

theorem leads_word (begins : state ∈ beforeCommand) (word : String) (short : below.length < 9999)
    (sees : look.Sees (.arg word :: left) rest)
    (leads : Parser.Leads ⟨(1, .id word) :: (state, value) :: below, .empty, left⟩ outcome) :
    Parser.Leads ⟨(state, value) :: below, look, rest⟩ outcome := by
  refine leads_reads short ?_ sees ?_ leads
  · fin_cases begins <;> decide
  · fin_cases begins <;> rfl

/-- Where a command is next, a basic one is read, whatever the parser comes to behind it. -/
theorem leads_basic (basic : Basic tokens cmd) (begins : state ∈ beforeCommand)
    (fits : below.length + cmd.height ≤ 9998) (sees : look.Sees (tokens ++ after) rest)
    (ends : ∀ word, after.head? ≠ some (.arg word))
    (leads : ∀ look rest, look.Sees after rest → Parser.Leads
      ⟨(afterCommand state, .cmd cmd) :: (state, value) :: below, look, rest⟩ outcome) :
    Parser.Leads ⟨(state, value) :: below, look, rest⟩ outcome := by
  induction basic generalizing after with
  | atom word args =>
    have enough : below.length + (args.length + 2) ≤ 9998 := fits
    refine leads_word begins word (by omega) sees ?_
    exact leads_words begins word [] args (by rw [List.length_nil]; omega) (.inl ⟨rfl, rfl⟩) ends
      leads
  | @back tokens cmd basic ih =>
    rw [List.append_assoc] at sees
    have tall := basic.two_le_height
    have fits' : below.length + cmd.height ≤ 9998 := fits
    refine ih fits' sees nofun fun look rest sees => ?_
    have reduced : Parser.Leads ⟨(13, .none) :: (afterCommand state, .cmd cmd) :: (state, value) ::
        below, .empty, after⟩ outcome := by
      refine leads_default (by simp only [List.length_cons]; omega) rfl ?_
        (leads .empty after (.inl ⟨rfl, rfl⟩))
      fin_cases begins <;> rfl
    refine leads_reads (by simp only [List.length_cons]; omega) (afterCommand_needs state) sees ?_
      reduced
    fin_cases begins <;> rfl

theorem basic_overflow (basic : Basic tokens cmd) (begins : state ∈ beforeCommand)
    (short : below.length < 9999) (full : 9998 < below.length + cmd.height)
    (sees : look.Sees (tokens ++ after) rest) (ends : ∀ word, after.head? ≠ some (.arg word)) :
    Parser.Leads ⟨(state, value) :: below, look, rest⟩ .error := by
  induction basic generalizing after with
  | atom word args =>
    have full : 9998 < below.length + (args.length + 2) := full
    refine leads_word begins word short sees ?_
    exact words_overflow word [] args (by rw [List.length_nil]; omega) (.inl ⟨rfl, rfl⟩) ends
  | back basic ih =>
    rw [List.append_assoc] at sees
    exact ih full sees nofun

theorem Flag.begins (flag : Flag) : flag.state ∈ beforeCommand := by
  cases flag <;> decide

theorem Joint.begins (joint : Joint) : joint.state ∈ beforeCommand := by
  cases joint <;> decide

/-- The tokens that may stand behind redirections. -/
def behindRedirected : List Token := [.greater, .less, .bar, .semicolon, .newline]

theorem Flag.behind (flag : Flag) : flag.token ∈ behindRedirected := by
  cases flag <;> decide

theorem behind_ends {token : Token} (behind : token ∈ behindRedirected) (after : List Token)
    (word : String) : (token :: after).head? ≠ some (.arg word) := by
  rintro ⟨⟩
  simp [behindRedirected] at behind

theorem Redirected.two_le_height (redirected : Redirected tokens cmd) : 2 ≤ cmd.height := by
  induction redirected with
  | basic basic => exact basic.two_le_height
  | redir left flag right ih => exact Nat.le_trans ih (Nat.le_max_left _ _)

/-- The target of a redirection is read and the rule of the redirection applied. -/
theorem leads_target (basic : Basic tokens cmd') (outer : state ∈ [0, 9, 10]) (flag : Flag)
    (fits : below.length + 2 + cmd'.height ≤ 9998) {token : Token}
    (behind : token ∈ behindRedirected)
    (sees : look.Sees (flag.token :: (tokens ++ token :: after)) rest)
    (leads : ∀ look rest, look.Sees (token :: after) rest → Parser.Leads
      ⟨(afterCommand state, .cmd (.redir cmd cmd' flag)) :: (state, value) :: below, look, rest⟩
      outcome) :
    Parser.Leads ⟨(afterCommand state, .cmd cmd) :: (state, value) :: below, look, rest⟩
      outcome := by
  have target : Parser.Leads ⟨(flag.state, .none) :: (afterCommand state, .cmd cmd) ::
      (state, value) :: below, .empty, tokens ++ token :: after⟩ outcome := by
    refine leads_basic basic flag.begins fits (.inl ⟨rfl, rfl⟩) (behind_ends behind after) ?_
    intro look rest sees
    have tall := basic.two_le_height
    refine leads_reads (by simp only [List.length_cons]; omega) (afterCommand_needs flag.state) sees
      ?_ (leads (.token token) after (.inr rfl))
    cases flag <;> fin_cases outer <;> fin_cases behind <;> rfl
  refine leads_reads (by simp only [List.length_cons]; omega) (afterCommand_needs state) sees ?_
    target
  cases flag <;> fin_cases outer <;> rfl

/-- Where a line or a part of it is next, redirections are read. -/
theorem leads_redirected (redirected : Redirected tokens cmd) (outer : state ∈ [0, 9, 10])
    (fits : below.length + cmd.height ≤ 9998) {token : Token} (behind : token ∈ behindRedirected)
    (sees : look.Sees (tokens ++ token :: after) rest)
    (leads : ∀ look rest, look.Sees (token :: after) rest → Parser.Leads
      ⟨(afterCommand state, .cmd cmd) :: (state, value) :: below, look, rest⟩ outcome) :
    Parser.Leads ⟨(state, value) :: below, look, rest⟩ outcome := by
  induction redirected generalizing token after with
  | basic basic =>
    refine leads_basic basic ?_ fits sees (behind_ends behind after) leads
    fin_cases outer <;> decide
  | @redir before cmd target cmd' left flag right ih =>
    have fits : below.length + max cmd.height (cmd'.height + 2) ≤ 9998 := fits
    rw [List.append_assoc, List.cons_append] at sees
    refine ih (by omega) flag.behind sees fun look rest sees => ?_
    exact leads_target right outer flag (by omega) behind sees leads

theorem redirected_overflow (redirected : Redirected tokens cmd) (outer : state ∈ [0, 9, 10])
    (short : below.length < 9999) (full : 9998 < below.length + cmd.height) {token : Token}
    (behind : token ∈ behindRedirected) (sees : look.Sees (tokens ++ token :: after) rest) :
    Parser.Leads ⟨(state, value) :: below, look, rest⟩ .error := by
  have begins : state ∈ beforeCommand := by
    fin_cases outer <;> decide
  induction redirected generalizing token after with
  | basic basic => exact basic_overflow basic begins short full sees (behind_ends behind after)
  | @redir before cmd target cmd' left flag right ih =>
    have full : 9998 < below.length + max cmd.height (cmd'.height + 2) := full
    rw [List.append_assoc, List.cons_append] at sees
    by_cases fits : below.length + cmd.height ≤ 9998
    · refine leads_redirected left outer fits flag.behind sees fun look rest sees => ?_
      have tall := left.two_le_height
      have target : Parser.Leads ⟨(flag.state, .none) :: (afterCommand state, .cmd cmd) ::
          (state, value) :: below, .empty, target ++ token :: after⟩ .error := by
        refine basic_overflow right flag.begins ?_ ?_ (.inl ⟨rfl, rfl⟩) (behind_ends behind after)
        · simp only [List.length_cons]
          omega
        · simp only [List.length_cons]
          omega
      refine leads_reads (by simp only [List.length_cons]; omega) (afterCommand_needs state) sees
        ?_ target
      cases flag <;> fin_cases outer <;> rfl
    · exact ih (Nat.lt_of_not_le fits) flag.behind sees

/-- The tokens that may stand behind a part of a line. -/
def behindJoined : List Token := [.bar, .semicolon, .newline]

theorem Joint.behind (joint : Joint) : joint.token ∈ behindJoined := by
  cases joint <;> decide

theorem behindJoined_redirected {token : Token} (behind : token ∈ behindJoined) :
    token ∈ behindRedirected := by
  fin_cases behind <;> decide

theorem Joint.outer (joint : Joint) : joint.state ∈ [0, 9, 10] := by
  cases joint <;> decide

theorem Joint.height (joint : Joint) (left right : Cmd) :
    (joint.cmd left right).height = max left.height (right.height + 2) := by
  cases joint <;> rfl

/-- From its start, the parser puts what is before an operator together. -/
theorem leads_joined (joined : Joined tokens cmd) (fits : cmd.height ≤ 9998) {token : Token}
    (behind : token ∈ behindJoined) (sees : look.Sees (tokens ++ token :: after) rest)
    (leads : ∀ look rest, look.Sees (token :: after) rest →
      Parser.Leads ⟨[(4, .cmd cmd), (0, .none)], look, rest⟩ outcome) :
    Parser.Leads ⟨[(0, .none)], look, rest⟩ outcome := by
  induction joined generalizing token after with
  | redirected redirected =>
    refine leads_redirected redirected (by decide) ?_ (behindJoined_redirected behind) sees leads
    rw [List.length_nil, Nat.zero_add]
    exact fits
  | @join before cmd target cmd' left joint right ih =>
    rw [joint.height] at fits
    rw [List.append_assoc, List.cons_append] at sees
    refine ih (by omega) joint.behind sees fun look rest sees => ?_
    have part : Parser.Leads ⟨[(joint.state, .none), (4, .cmd cmd), (0, .none)], .empty,
        target ++ token :: after⟩ outcome := by
      refine leads_redirected right joint.outer ?_ (behindJoined_redirected behind)
        (.inl ⟨rfl, rfl⟩) fun look rest sees => ?_
      · simp only [List.length_cons, List.length_nil]
        omega
      · refine leads_reads (Nat.le_of_ble_eq_true rfl) (afterCommand_needs joint.state) sees ?_
          (leads (.token token) after (.inr rfl))
        cases joint <;> fin_cases behind <;> rfl
    refine leads_reads (Nat.le_of_ble_eq_true rfl) (by decide) sees ?_ part
    cases joint <;> rfl

theorem joined_overflow (joined : Joined tokens cmd) (full : 9998 < cmd.height) {token : Token}
    (behind : token ∈ behindJoined) (sees : look.Sees (tokens ++ token :: after) rest) :
    Parser.Leads ⟨[(0, .none)], look, rest⟩ .error := by
  induction joined generalizing token after with
  | redirected redirected =>
    refine redirected_overflow redirected (by decide) (Nat.le_of_ble_eq_true rfl) ?_
      (behindJoined_redirected behind) sees
    rw [List.length_nil, Nat.zero_add]
    exact full
  | @join before cmd target cmd' left joint right ih =>
    rw [joint.height] at full
    rw [List.append_assoc, List.cons_append] at sees
    by_cases fits : cmd.height ≤ 9998
    · refine leads_joined left fits joint.behind sees fun look rest sees => ?_
      have part : Parser.Leads ⟨[(joint.state, .none), (4, .cmd cmd), (0, .none)], .empty,
          target ++ token :: after⟩ .error := by
        refine redirected_overflow right joint.outer (Nat.le_of_ble_eq_true rfl) ?_
          (behindJoined_redirected behind) (.inl ⟨rfl, rfl⟩)
        simp only [List.length_cons, List.length_nil]
        omega
      refine leads_reads (Nat.le_of_ble_eq_true rfl) (by decide) sees ?_ part
      cases joint <;> rfl
    · exact ih (Nat.lt_of_not_le fits) joint.behind sees

end Runs

end CssLab.Shell
