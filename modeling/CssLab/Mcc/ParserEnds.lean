import CssLab.Mcc.GrammarComplete
import Mathlib.Algebra.BigOperators.Group.List.Basic
import Mathlib.Algebra.GroupWithZero.Nat

namespace CssLab.Mcc

/-- A rule makes the stack lighter. -/
def Value.weight : Value → Nat
  | .none | .num _ | .var _ => 2
  | .stm _ | .exp _ => 1

def Lookahead.weight : Lookahead → Nat
  | .empty | .eof => 3
  | .token _ => 6

def Parser.weight (parser : Parser) : Nat :=
  (parser.stack.map fun entry => entry.2.weight).sum + parser.look.weight + 3 * parser.input.length

theorem yylex_shorter (lexed : yylex input = some (some token, rest)) :
    rest.length < input.length := by
  have fewer := (List.dropWhile_suffix isBlank (l := input)).length_le
  rw [yylex] at lexed
  split at lexed
  · cases lexed
  · rename_i char more found
    rw [found, List.length_cons] at fewer
    have within (stops : Char → Bool) : (more.dropWhile stops).length ≤ more.length :=
      (List.dropWhile_suffix stops).length_le
    split at lexed
    · cases lexed
      exact Nat.lt_of_lt_of_le (Nat.lt_succ_of_le (within _)) fewer
    · split at lexed
      · cases lexed
        exact Nat.lt_of_lt_of_le (Nat.lt_succ_of_le (within _)) fewer
      · obtain ⟨_, -, same⟩ := Option.map_eq_some_iff.mp lexed
        cases same
        omega

theorem yylex_end (lexed : yylex input = some (none, rest)) : rest = [] := by
  rw [yylex] at lexed
  split at lexed
  · cases lexed
    rfl
  · split at lexed
    · cases lexed
    · split at lexed
      · cases lexed
      · obtain ⟨_, -, same⟩ := Option.map_eq_some_iff.mp lexed
        cases same

theorem length_le_weight (values : List Value) : values.length ≤ (values.map Value.weight).sum := by
  induction values with
  | nil => exact Nat.le_refl _
  | cons value values ih =>
    have one : 1 ≤ value.weight := by cases value <;> simp [Value.weight]
    rw [List.length_cons, List.map_cons, List.sum_cons]
    omega

/-- A rule makes one light value of several, or of a heavy one. -/
theorem ruleAction_weight (acted : ruleAction rule values = some value) :
    value.weight < (values.map Value.weight).sum := by
  have several := length_le_weight values
  unfold ruleAction at acted
  split at acted
  case h_4 | h_5 =>
    cases acted
    simp [Value.weight]
  case h_11 => cases acted
  all_goals
    cases acted
    refine Nat.lt_of_lt_of_le ?_ several
    simp [Value.weight]

/-- The weight of a stack from those of its upper and its lower part. -/
theorem stack_weight {stack below : List (Nat × Value)} (found : stack.drop count = below) :
    (stack.map fun entry => entry.2.weight).sum =
      (((stack.take count).map Prod.snd).map Value.weight).sum +
        (below.map fun entry => entry.2.weight).sum := by
  rw [← found, List.map_map, ← List.sum_append, Function.comp_def, ← List.map_append,
    List.take_append_drop]

theorem yyreduce_weight {parser next : Parser} (reduced : parser.yyreduce rule = .goes next) :
    next.weight < parser.weight := by
  unfold Parser.yyreduce at reduced
  split at reduced
  · cases reduced
  · dsimp only at reduced
    split at reduced
    · rename_i acted found
      cases reduced
      have lighter := ruleAction_weight acted
      rw [Parser.weight, Parser.weight, stack_weight found, List.map_cons, List.sum_cons]
      dsimp only
      omega
    · cases reduced

theorem yydefault_weight {parser next : Parser} (decided : parser.yydefault state = .goes next) :
    next.weight < parser.weight := by
  unfold Parser.yydefault at decided
  split at decided
  · cases decided
  · exact yyreduce_weight decided

/-- Only the state after a program would shift the end of the text. -/
theorem eof_not_shifted (other : state ≠ 3) :
    yypact.getD state 0 < 0 ∨ yycheck.getD (yypact.getD state 0).toNat 0 ≠ 0 := by
  by_cases known : state < 26
  · revert other
    revert state
    decide
  · have outside : yypact.getD state 0 = 0 := by
      rw [List.getD_eq_getElem?_getD, List.getElem?_eq_none (Nat.le_of_not_lt known),
        Option.getD_none]
    rw [outside]
    decide

theorem decide_weight {parser next : Parser} (decided : parser.decide state = .goes next)
    (other : state ≠ 3) (known : parser.look ≠ .empty) : next.weight < parser.weight := by
  unfold Parser.decide at decided
  dsimp only at decided
  split at decided
  · exact yydefault_weight decided
  · rename_i shifts
    cases decided
    cases found : parser.look with
    | empty => exact absurd found known
    | eof =>
      rw [found] at shifts
      have never := eof_not_shifted other
      simp only [Lookahead.yytoken, Int.add_zero] at shifts
      omega
    | token token =>
      have light : (Lookahead.token token).yylval.weight = 2 := by
        cases token <;> rfl
      simp only [Parser.weight, found, List.map_cons, List.sum_cons, light, Lookahead.weight]
      omega

theorem read_weight {parser next : Parser} (read : parser.read = some next) :
    next.weight ≤ parser.weight ∧ next.look ≠ .empty := by
  unfold Parser.read at read
  split at read
  · rename_i empty
    rw [Parser.weight, Parser.weight, empty]
    split at read
    · cases read
    · rename_i lexed
      cases read
      cases yylex_end lexed
      exact ⟨Nat.add_le_add_left (Nat.zero_le _) _, nofun⟩
    · rename_i lexed
      cases read
      have shorter := yylex_shorter lexed
      refine ⟨?_, nofun⟩
      simp only [Lookahead.weight]
      omega
  · rename_i known
    cases read
    exact ⟨Nat.le_refl _, known⟩

theorem step_weight {state : Nat} {value : Value} {below : List (Nat × Value)} {look : Lookahead}
    {input : List Char} {next : Parser}
    (stepped : Parser.step ⟨(state, value) :: below, look, input⟩ = .goes next)
    (other : state ≠ 3) :
    next.weight < Parser.weight ⟨(state, value) :: below, look, input⟩ := by
  rw [Parser.step] at stepped
  dsimp only at stepped
  split at stepped
  · cases stepped
  · unfold Parser.yybackup at stepped
    split at stepped
    · exact yydefault_weight stepped
    · split at stepped
      · cases stepped
      · rename_i read
        obtain ⟨lighter, known⟩ := read_weight read
        exact Nat.lt_of_lt_of_le (decide_weight stepped other known) lighter

theorem Shape.top (shape : Shape stack look before) :
    ∃ state value below, stack = (state, value) :: below ∧ state ≠ 3 := by
  cases shape with
  | stm here =>
    obtain ⟨state, below, rfl, which⟩ := here.top
    exact ⟨state, .none, below, rfl, by omega⟩
  | exp here =>
    obtain ⟨state, below, rfl, states⟩ := here.top
    exact ⟨state, .none, below, rfl, by fin_cases states <;> decide⟩
  | @done state _ _ _ _ _ _ _ here =>
    obtain ⟨_, _, same, states⟩ := here.top
    cases same
    exact ⟨afterExp state, _, _, rfl, by fin_cases states <;> decide⟩
  | _ => exact ⟨_, _, _, rfl, by decide⟩

/-- From where it has come to, the parser goes on to the end. -/
theorem Parsed.ends {parser : Parser} (parsed : Parsed source (.goes parser)) :
    ∃ fuel, parser.run fuel = .error ∨ ∃ root, parser.run fuel = .accepted root := by
  induction heavy : parser.weight using Nat.strongRecOn generalizing parser with
  | ind weight ih =>
    obtain ⟨before, place, shape, lexes, sees⟩ := parsed
    obtain ⟨stack, look, input⟩ := parser
    have stepped := shape.step lexes sees
    obtain ⟨state, value, below, rfl, other⟩ := shape.top
    cases outcome : Parser.step ⟨(state, value) :: below, look, input⟩ with
    | error => exact ⟨1, .inl (by rw [Parser.run, outcome])⟩
    | accepted root => exact ⟨1, .inr ⟨root, by rw [Parser.run, outcome]⟩⟩
    | goes next =>
      rw [outcome] at stepped
      have lighter := step_weight outcome other
      obtain ⟨fuel, ends⟩ := ih _ (heavy ▸ lighter) stepped rfl
      refine ⟨fuel + 1, ?_⟩
      rw [Parser.run, outcome]
      exact ends

theorem run_stable {parser : Parser} (ends : ∀ next, parser.run fuel ≠ .goes next) (more : Nat) :
    parser.run (fuel + more) = parser.run fuel := by
  induction fuel generalizing parser with
  | zero => exact absurd rfl (ends parser)
  | succ fuel ih =>
    rw [Nat.add_right_comm, Parser.run, Parser.run]
    cases outcome : parser.step with
    | goes next =>
      refine ih fun last => ?_
      have never := ends last
      rwa [Parser.run, outcome] at never
    | accepted root => rfl
    | error => rfl

/-- `yyparse` accepts a text as a program exactly if the grammar has it at its start, with
nothing behind it that would continue it; on every other text it leaves with an error. -/
theorem yyparse_iff (source : List Char) :
    (∀ root, Accepts source root ↔ Parses source root) ∧
      (Rejects source ↔ ∀ root, ¬Parses source root) := by
  have accepts (root : Stm) : Accepts source root ↔ Parses source root :=
    ⟨parses_of_accepts, accepts_of_parses⟩
  refine ⟨accepts, ?_, ?_⟩
  · rintro ⟨fuel, error⟩ root parses
    obtain ⟨fuel', accepted⟩ := accepts_of_parses parses
    have one := run_stable (by rw [error]; nofun) fuel'
    have other := run_stable (by rw [accepted]; nofun) fuel
    rw [Nat.add_comm, one, error, accepted] at other
    cases other
  · intro never
    obtain ⟨fuel, error | ⟨root, accepted⟩⟩ := (parsed_start source).ends
    · exact ⟨fuel, error⟩
    · exact absurd (parses_of_accepts ⟨fuel, accepted⟩) (never root)

end CssLab.Mcc
