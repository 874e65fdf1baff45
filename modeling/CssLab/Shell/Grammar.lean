import CssLab.Shell.Parser

/-! The commands that `yyparse` accepts, by the level of their operators. -/

namespace CssLab.Shell

/-- A word with its arguments, and any number of `'&'` after it. -/
inductive Basic : List Token → Cmd → Prop
  | atom (word : String) (args : List String) :
      Basic (.arg word :: args.map .arg) (.atom word args)
  | back (basic : Basic tokens cmd) : Basic (tokens ++ [.ampersand]) (.back cmd)

/-- The token of a redirection. -/
def Flag.token : Flag → Token
  | .output => .greater
  | .input => .less

/-- Redirections group to the left. -/
inductive Redirected : List Token → Cmd → Prop
  | basic (basic : Basic tokens cmd) : Redirected tokens cmd
  | redir (left : Redirected tokens cmd) (flag : Flag) (right : Basic target cmd') :
      Redirected (tokens ++ flag.token :: target) (.redir cmd cmd' flag)

/-- An operator of the lowest level, which `'|'` and `';'` share. -/
inductive Joint
  | bar
  | semicolon

def Joint.token : Joint → Token
  | .bar => .bar
  | .semicolon => .semicolon

def Joint.cmd : Joint → Cmd → Cmd → Cmd
  | .bar => .pipe
  | .semicolon => .seq

/-- Pipes and sequences group to the left, with each other. -/
inductive Joined : List Token → Cmd → Prop
  | redirected (redirected : Redirected tokens cmd) : Joined tokens cmd
  | join (left : Joined tokens cmd) (joint : Joint) (right : Redirected after cmd') :
      Joined (tokens ++ joint.token :: after) (joint.cmd cmd cmd')

/-- The tokens of a command are a line without its end. -/
theorem Basic.no_newline (basic : Basic tokens cmd) : .newline ∉ tokens := by
  induction basic with
  | atom word args => simp
  | back basic ih => simp [ih]

theorem Redirected.no_newline (redirected : Redirected tokens cmd) : .newline ∉ tokens := by
  induction redirected with
  | basic basic => exact basic.no_newline
  | redir left flag right ih =>
    cases flag with
    | output => simp [ih, right.no_newline, Flag.token]
    | input => simp [ih, right.no_newline, Flag.token]

theorem Joined.no_newline (joined : Joined tokens cmd) : .newline ∉ tokens := by
  induction joined with
  | redirected redirected => exact redirected.no_newline
  | join left joint right ih =>
    cases joint with
    | bar => simp [ih, right.no_newline, Joint.token]
    | semicolon => simp [ih, right.no_newline, Joint.token]

theorem takeWhile_newline {tokens : List Token} (none : .newline ∉ tokens) (after : List Token) :
    (tokens ++ .newline :: after).takeWhile (· ≠ .newline) = tokens := by
  rw [List.takeWhile_append_of_pos, List.takeWhile_cons_of_neg (by decide), List.append_nil]
  intro token member
  exact decide_eq_true (ne_of_mem_of_not_mem member none)

/-- The state after an operator. -/
def Flag.state : Flag → Nat
  | .output => 11
  | .input => 12

def Joint.state : Joint → Nat
  | .bar => 9
  | .semicolon => 10

/-- The state after a command that stands after a state. -/
def afterCommand : Nat → Nat
  | 9 => 16
  | 10 => 17
  | 11 => 18
  | 12 => 19
  | _ => 4

/-- A stack on which a redirected command is next, with the tokens before it. -/
inductive Outer : List (Nat × Value) → List Token → Prop
  | start : Outer [(0, .none)] []
  | joint (left : Joined tokens cmd) (joint : Joint) :
      Outer [(joint.state, .none), (4, .cmd cmd), (0, .none)] (tokens ++ [joint.token])

/-- A stack on which a basic command is next. -/
inductive Open : List (Nat × Value) → List Token → Prop
  | outer (outer : Outer stack tokens) : Open stack tokens
  | redir (outer : Outer ((state, value) :: below) tokens) (left : Redirected before cmd)
      (flag : Flag) :
      Open ((flag.state, .none) :: (afterCommand state, .cmd cmd) :: (state, value) :: below)
        (tokens ++ before ++ [flag.token])

/-- The words of a command on the stack, its last argument first. -/
def wordsOn (word : String) : List String → List (Nat × Value)
  | [] => [(1, .id word)]
  | arg :: args => (6, .id arg) :: wordsOn word args

/-- The stack, the lookahead and the tokens before that. -/
inductive Shape : List (Nat × Value) → Lookahead → List Token → Prop
  | next (here : Open stack tokens) : Shape stack look tokens
  | words (here : Open stack tokens) (word : String) (args : List String) :
      Shape (wordsOn word args ++ stack) look
        (tokens ++ .arg word :: args.reverse.map .arg)
  | args (here : Open stack tokens) (word : String) (args later : List String) :
      Shape ((if args = [] then 7 else 15, .node later) :: wordsOn word args ++ stack) look
        (tokens ++ .arg word :: (args.reverse ++ later).map .arg)
  | basic (here : Open stack tokens) (word : String) (args : List String) :
      Shape ((5, .cmd (.atom word args)) :: stack) look (tokens ++ .arg word :: args.map .arg)
  | command (here : Open ((state, value) :: below) tokens) (basic : Basic after cmd) :
      Shape ((afterCommand state, .cmd cmd) :: (state, value) :: below) look (tokens ++ after)
  | back (here : Open ((state, value) :: below) tokens) (basic : Basic after cmd) :
      Shape ((13, .none) :: (afterCommand state, .cmd cmd) :: (state, value) :: below) look
        (tokens ++ after ++ [.ampersand])
  | redirected (here : Outer ((state, value) :: below) tokens) (redirected : Redirected after cmd)
      (known : look ≠ .empty) (nothing : look ≠ .token .ampersand) :
      Shape ((afterCommand state, .cmd cmd) :: (state, value) :: below) look (tokens ++ after)
  | joined (joined : Joined tokens cmd) (known : look ≠ .empty)
      (nothing : look ≠ .token .ampersand ∧ look ≠ .token .greater ∧ look ≠ .token .less) :
      Shape [(4, .cmd cmd), (0, .none)] look tokens
  | line (joined : Joined tokens cmd) :
      Shape [(14, .none), (4, .cmd cmd), (0, .none)] look (tokens ++ [.newline])
  | blank : Shape [(2, .none), (0, .none)] look [.newline]

/-- The tokens a lookahead has taken from the input. -/
def Lookahead.tokens : Lookahead → List Token
  | .token first => [first]
  | _ => []

/-- What has been found out about the input. -/
def Parsed (tokens : List Token) : Outcome → Prop
  | .goes parser => ∃ before, Shape parser.stack parser.look before ∧
      tokens = before ++ parser.look.tokens ++ parser.rest
  | .accepted (some cmd) => ∃ line after, Joined line cmd ∧ tokens = line ++ .newline :: after
  | .accepted none => ∃ after, tokens = .newline :: after
  | .error => True

theorem Open.state {stack : List (Nat × Value)} {before : List Token} (here : Open stack before) :
    ∃ state value below, stack = (state, value) :: below ∧
      (state = 0 ∧ value = .none ∧ below = [] ∧ before = [] ∨ state ∈ [9, 10, 11, 12]) := by
  cases here with
  | outer outer =>
    cases outer with
    | start => exact ⟨0, .none, [], rfl, Or.inl ⟨rfl, rfl, rfl, rfl⟩⟩
    | joint left joint => exact ⟨_, _, _, rfl, Or.inr (by cases joint <;> decide)⟩
  | redir outer left flag => exact ⟨_, _, _, rfl, Or.inr (by cases flag <;> decide)⟩

variable {tokens before : List Token} {stack : List (Nat × Value)} {look : Lookahead}
  {rest : List Token}

theorem read_spec (stack : List (Nat × Value)) (look : Lookahead) (rest : List Token) :
    ∃ look' rest', Parser.read ⟨stack, look, rest⟩ = ⟨stack, look', rest'⟩ ∧ look' ≠ .empty ∧
      look'.tokens ++ rest' = look.tokens ++ rest ∧ (look ≠ .empty → look' = look) := by
  cases look with
  | empty =>
    cases rest with
    | nil => exact ⟨.eof, [], rfl, nofun, rfl, fun known => absurd rfl known⟩
    | cons first rest => exact ⟨.token first, rest, rfl, nofun, rfl, fun known => absurd rfl known⟩
  | eof => exact ⟨.eof, rest, rfl, nofun, rfl, fun _ => rfl⟩
  | token first => exact ⟨.token first, rest, rfl, nofun, rfl, fun _ => rfl⟩

theorem parsed_backup {state : Nat} (needs : yypact.getD state 0 ≠ -9)
    (whole : tokens = before ++ look.tokens ++ rest)
    (decided : ∀ look' rest', look' ≠ .empty → (look ≠ .empty → look' = look) →
      tokens = before ++ look'.tokens ++ rest' →
      Parsed tokens (Parser.decide state ⟨stack, look', rest'⟩)) :
    Parsed tokens (Parser.yybackup state ⟨stack, look, rest⟩) := by
  rw [Parser.yybackup, if_neg needs]
  obtain ⟨look', rest', read, known, same, kept⟩ := read_spec stack look rest
  rw [read]
  refine decided look' rest' known kept ?_
  rw [whole, List.append_assoc, List.append_assoc, same]

theorem parsed_next {state : Nat} {value : Value} {below : List (Nat × Value)}
    (here : Open ((state, value) :: below) before)
    (whole : tokens = before ++ look.tokens ++ rest) :
    Parsed tokens (Parser.yybackup state ⟨(state, value) :: below, look, rest⟩) := by
  obtain ⟨state', value', below', same, which⟩ := here.state
  cases same
  rcases which with ⟨rfl, rfl, rfl, rfl⟩ | which
  · refine parsed_backup (by decide) whole fun look' rest' known _ whole => ?_
    rcases look' with _ | _ | first
    · exact absurd rfl known
    · trivial
    · cases first with
      | arg word => exact ⟨_, .words here word [], by simpa [Lookahead.tokens] using whole⟩
      | newline => exact ⟨_, .blank, by simpa [Lookahead.tokens] using whole⟩
      | _ => trivial
  · simp only [List.mem_cons, List.not_mem_nil, or_false] at which
    rcases which with rfl | rfl | rfl | rfl <;>
      refine parsed_backup (by decide) whole fun look' rest' known _ whole => ?_ <;>
      rcases look' with _ | _ | first <;>
      first
        | exact absurd rfl known
        | trivial
        | cases first with
          | arg word => exact ⟨_, .words here word [], by simpa [Lookahead.tokens] using whole⟩
          | _ => trivial

theorem parsed_step {state : Nat} {value : Value} {below : List (Nat × Value)}
    (parsed : Parsed tokens (Parser.yybackup state ⟨(state, value) :: below, look, rest⟩)) :
    Parsed tokens (Parser.step ⟨(state, value) :: below, look, rest⟩) := by
  simp only [Parser.step]
  split
  · trivial
  · exact parsed

theorem parsed_words (here : Open stack before) (word : String) (args : List String)
    (whole : tokens = (before ++ .arg word :: args.reverse.map .arg) ++ look.tokens ++ rest) :
    Parsed tokens (Parser.step ⟨wordsOn word args ++ stack, look, rest⟩) := by
  have more (rest' : List Token) (arg : String)
      (whole : tokens = (before ++ .arg word :: args.reverse.map .arg) ++ [.arg arg] ++ rest') :
      Parsed tokens (.goes ⟨wordsOn word (arg :: args) ++ stack, .empty, rest'⟩) := by
    refine ⟨_, .words here word (arg :: args), ?_⟩
    simpa [Lookahead.tokens] using whole
  have none (look' : Lookahead) (rest' : List Token)
      (whole : tokens = (before ++ .arg word :: args.reverse.map .arg) ++ look'.tokens ++ rest') :
      Parsed tokens (.goes ⟨(if args = [] then 7 else 15, .node []) :: wordsOn word args ++ stack,
        look', rest'⟩) := by
    refine ⟨_, .args here word args [], ?_⟩
    simpa using whole
  cases args with
  | nil =>
    refine parsed_step (parsed_backup (by decide) whole fun look' rest' known _ whole => ?_)
    rcases look' with _ | _ | first
    · exact absurd rfl known
    · exact none _ _ whole
    · cases first with
      | arg arg => exact more _ arg whole
      | _ => exact none _ _ whole
  | cons last args =>
    refine parsed_step (parsed_backup (by decide) whole fun look' rest' known _ whole => ?_)
    rcases look' with _ | _ | first
    · exact absurd rfl known
    · exact none _ _ whole
    · cases first with
      | arg arg => exact more _ arg whole
      | _ => exact none _ _ whole

/-- In a state with one reduction the lookahead is not read. -/
theorem parsed_default {state : Nat} {value : Value} {below : List (Nat × Value)}
    (one : yypact.getD state 0 = -9)
    (parsed : Parsed tokens (Parser.yydefault state ⟨(state, value) :: below, look, rest⟩)) :
    Parsed tokens (Parser.step ⟨(state, value) :: below, look, rest⟩) := by
  refine parsed_step ?_
  rw [Parser.yybackup, if_pos one]
  exact parsed

/-- The arguments are put together from the last one, and then the atom. -/
theorem parsed_args (here : Open stack before) (word : String) (args later : List String)
    (whole : tokens = (before ++ .arg word :: (args.reverse ++ later).map .arg) ++ look.tokens ++
      rest) :
    Parsed tokens (Parser.step
      ⟨(if args = [] then 7 else 15, .node later) :: wordsOn word args ++ stack, look, rest⟩) := by
  cases args with
  | nil =>
    obtain ⟨state, value, below, rfl, which⟩ := here.state
    have parsed : Parsed tokens
        (.goes ⟨(5, .cmd (.atom word later)) :: (state, value) :: below, look, rest⟩) :=
      ⟨_, .basic here word later, by simpa using whole⟩
    refine parsed_default rfl ?_
    rcases which with ⟨rfl, _⟩ | which
    · exact parsed
    · simp only [List.mem_cons, List.not_mem_nil, or_false] at which
      rcases which with rfl | rfl | rfl | rfl <;> exact parsed
  | cons arg args =>
    have parsed : Parsed tokens (.goes ⟨(if args = [] then 7 else 15, .node (arg :: later)) ::
        wordsOn word args ++ stack, look, rest⟩) :=
      ⟨_, .args here word args (arg :: later), by simpa using whole⟩
    refine parsed_default rfl ?_
    cases args with
    | nil => exact parsed
    | cons next args => exact parsed

theorem parsed_basic (here : Open stack before) (word : String) (args : List String)
    (whole : tokens = (before ++ .arg word :: args.map .arg) ++ look.tokens ++ rest) :
    Parsed tokens (Parser.step ⟨(5, .cmd (.atom word args)) :: stack, look, rest⟩) := by
  obtain ⟨state, value, below, rfl, which⟩ := here.state
  have parsed : Parsed tokens (.goes
      ⟨(afterCommand state, .cmd (.atom word args)) :: (state, value) :: below, look, rest⟩) :=
    ⟨_, .command here (.atom word args), whole⟩
  refine parsed_default rfl ?_
  rcases which with ⟨rfl, _⟩ | which
  · exact parsed
  · simp only [List.mem_cons, List.not_mem_nil, or_false] at which
    rcases which with rfl | rfl | rfl | rfl <;> exact parsed

theorem parsed_back {state : Nat} {value : Value} {below : List (Nat × Value)}
    (here : Open ((state, value) :: below) before) (basic : Basic after cmd)
    (whole : tokens = (before ++ after ++ [.ampersand]) ++ look.tokens ++ rest) :
    Parsed tokens (Parser.step ⟨(13, .none) :: (afterCommand state, .cmd cmd) ::
      (state, value) :: below, look, rest⟩) := by
  have parsed : Parsed tokens (.goes
      ⟨(afterCommand state, .cmd (.back cmd)) :: (state, value) :: below, look, rest⟩) :=
    ⟨_, .command here (.back basic), by simpa using whole⟩
  refine parsed_default rfl ?_
  obtain ⟨state', value', below', same, which⟩ := here.state
  cases same
  rcases which with ⟨rfl, _⟩ | which
  · exact parsed
  · simp only [List.mem_cons, List.not_mem_nil, or_false] at which
    rcases which with rfl | rfl | rfl | rfl <;> exact parsed

/-- After a whole line so far comes another part of it, or its end. -/
theorem parsed_joined (joined : Joined before cmd) (known : look ≠ .empty)
    (nothing : look ≠ .token .ampersand ∧ look ≠ .token .greater ∧ look ≠ .token .less)
    (whole : tokens = before ++ look.tokens ++ rest) :
    Parsed tokens (Parser.decide 4 ⟨[(4, .cmd cmd), (0, .none)], look, rest⟩) := by
  have more (joint : Joint) (whole : tokens = before ++ [joint.token] ++ rest) :
      Parsed tokens (.goes ⟨[(joint.state, .none), (4, .cmd cmd), (0, .none)], .empty, rest⟩) :=
    ⟨_, .next (.outer (.joint joined joint)), by simpa [Lookahead.tokens] using whole⟩
  rcases look with _ | _ | first
  · exact absurd rfl known
  · trivial
  · cases first with
    | arg word => trivial
    | bar => exact more .bar whole
    | semicolon => exact more .semicolon whole
    | greater => exact absurd rfl nothing.2.1
    | less => exact absurd rfl nothing.2.2
    | ampersand => exact absurd rfl nothing.1
    | newline => exact ⟨_, .line joined, by simpa [Lookahead.tokens] using whole⟩

/-- After redirections come more of them, or an operator that binds less. -/
theorem parsed_redirected {state : Nat} {value : Value} {below : List (Nat × Value)}
    (here : Outer ((state, value) :: below) before) (redirected : Redirected after cmd)
    (known : look ≠ .empty) (nothing : look ≠ .token .ampersand)
    (whole : tokens = (before ++ after) ++ look.tokens ++ rest) :
    Parsed tokens (Parser.decide (afterCommand state)
      ⟨(afterCommand state, .cmd cmd) :: (state, value) :: below, look, rest⟩) := by
  have more (flag : Flag) (whole : tokens = (before ++ after) ++ [flag.token] ++ rest) :
      Parsed tokens (.goes ⟨(flag.state, .none) :: (afterCommand state, .cmd cmd) ::
        (state, value) :: below, .empty, rest⟩) :=
    ⟨_, .next (.redir here redirected flag), by simpa [Lookahead.tokens] using whole⟩
  by_cases greater : look = .token .greater
  · subst greater
    cases here with
    | start => exact more .output whole
    | joint left joint => cases joint <;> exact more .output whole
  by_cases less : look = .token .less
  · subst less
    cases here with
    | start => exact more .input whole
    | joint left joint => cases joint <;> exact more .input whole
  cases here with
  | start => exact parsed_joined (.redirected redirected) known ⟨nothing, greater, less⟩ whole
  | @joint _ first left joint =>
    have done : Parsed tokens (.goes ⟨[(4, .cmd (joint.cmd first cmd)), (0, .none)], look, rest⟩) :=
      ⟨_, .joined (.join left joint redirected) known ⟨nothing, greater, less⟩, by
        simpa using whole⟩
    rcases look with _ | _ | token
    · exact absurd rfl known
    · cases joint <;> exact done
    · cases token with
      | ampersand => exact absurd rfl nothing
      | greater => exact absurd rfl greater
      | less => exact absurd rfl less
      | _ => cases joint <;> exact done

/-- After a basic command comes another `'&'`, or what comes after redirections. -/
theorem parsed_command {state : Nat} {value : Value} {below : List (Nat × Value)}
    (here : Open ((state, value) :: below) before) (basic : Basic after cmd) (known : look ≠ .empty)
    (whole : tokens = (before ++ after) ++ look.tokens ++ rest) :
    Parsed tokens (Parser.decide (afterCommand state)
      ⟨(afterCommand state, .cmd cmd) :: (state, value) :: below, look, rest⟩) := by
  by_cases again : look = .token .ampersand
  · subst again
    have more : Parsed tokens (.goes ⟨(13, .none) :: (afterCommand state, .cmd cmd) ::
        (state, value) :: below, .empty, rest⟩) :=
      ⟨_, .back here basic, by simpa [Lookahead.tokens] using whole⟩
    cases here with
    | outer outer =>
      cases outer with
      | start => exact more
      | joint left joint => cases joint <;> exact more
    | redir outer left flag => cases flag <;> exact more
  · cases here with
    | outer outer => exact parsed_redirected outer (.basic basic) known again whole
    | @redir state value below _ _ first outer left flag =>
      have done : Parsed tokens (.goes ⟨(afterCommand state, .cmd (.redir first cmd flag)) ::
          (state, value) :: below, look, rest⟩) :=
        ⟨_, .redirected outer (.redir left flag basic) known again, by simpa using whole⟩
      rcases look with _ | _ | token
      · exact absurd rfl known
      · cases outer with
        | start => cases flag <;> exact done
        | joint left joint => cases flag <;> cases joint <;> exact done
      · cases token with
        | ampersand => exact absurd rfl again
        | _ =>
          cases outer with
          | start => cases flag <;> exact done
          | joint left joint => cases flag <;> cases joint <;> exact done

theorem afterCommand_needs (state : Nat) : yypact.getD (afterCommand state) 0 ≠ -9 := by
  unfold afterCommand
  split <;> decide

theorem Shape.step (shape : Shape stack look before)
    (whole : tokens = before ++ look.tokens ++ rest) :
    Parsed tokens (Parser.step ⟨stack, look, rest⟩) := by
  cases shape with
  | next here =>
    obtain ⟨state, value, below, rfl, _⟩ := here.state
    exact parsed_step (parsed_next here whole)
  | words here word args => exact parsed_words here word args whole
  | args here word args later => exact parsed_args here word args later whole
  | basic here word args => exact parsed_basic here word args whole
  | @command state _ _ _ _ _ _ here basic =>
    refine parsed_step (parsed_backup (afterCommand_needs state) whole ?_)
    exact fun look' rest' known _ whole' => parsed_command here basic known whole'
  | back here basic => exact parsed_back here basic whole
  | @redirected state _ _ _ _ _ _ here redirected known nothing =>
    refine parsed_step (parsed_backup (afterCommand_needs state) whole ?_)
    intro look' rest' _ kept whole'
    rw [kept known] at whole' ⊢
    exact parsed_redirected here redirected known nothing whole'
  | joined joined known nothing =>
    refine parsed_step (parsed_backup (by decide) whole fun look' rest' _ kept whole' => ?_)
    rw [kept known] at whole' ⊢
    exact parsed_joined joined known nothing whole'
  | line joined =>
    refine parsed_default rfl ?_
    exact ⟨_, look.tokens ++ rest, joined, by simpa using whole⟩
  | blank =>
    refine parsed_default rfl ?_
    exact ⟨look.tokens ++ rest, by simpa using whole⟩

theorem Parsed.run (fuel : Nat) {parser : Parser} (parsed : Parsed tokens (.goes parser)) :
    Parsed tokens (parser.run fuel) := by
  induction fuel generalizing parser with
  | zero => exact parsed
  | succ fuel ih =>
    obtain ⟨before, shape, whole⟩ := parsed
    have stepped := shape.step whole
    rw [Parser.run]
    cases outcome : parser.step with
    | goes next =>
      rw [outcome] at stepped
      exact ih stepped
    | accepted root => rwa [outcome] at stepped
    | error => trivial

theorem joined_of_accepts (accepts : Accepts tokens (some cmd)) :
    ∃ line after, Joined line cmd ∧ tokens = line ++ .newline :: after := by
  obtain ⟨fuel, ends⟩ := accepts
  have start : Parsed tokens (.goes (.start tokens)) := ⟨[], .next (.outer .start), rfl⟩
  have parsed := start.run fuel
  rwa [ends] at parsed

end CssLab.Shell
