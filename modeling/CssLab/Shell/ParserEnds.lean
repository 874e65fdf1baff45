import CssLab.Shell.GrammarComplete
import Mathlib.Algebra.BigOperators.Group.List.Basic
import Mathlib.Algebra.GroupWithZero.Nat

namespace CssLab.Shell

/-- `yyparse` accepts a line with this in `root`, and leaves the rest to the next call. -/
def Reads (tokens : List Token) (root : Option Cmd) (rest : List Token) : Prop :=
  ∃ fuel parser, (Parser.start tokens).run fuel = .goes parser ∧ parser.step = .accepted root ∧
    parser.rest = rest

/-- `yyparse` calls `yyerror`, which exits. -/
def Rejects (tokens : List Token) : Prop := ∃ fuel, (Parser.start tokens).run fuel = .error

/-- A rule makes the stack lighter, but the one for no more words. -/
def Value.weight : Value → Nat
  | .none | .cmd _ | .node _ => 1
  | .id _ => 4

/-- State 5 is left for that of a command, which has the same value. -/
def entryWeight (entry : Nat × Value) : Nat :=
  entry.2.weight + if entry.1 = 5 then 1 else 0

/-- The words of an atom may still have to be ended. -/
def pending (state : Nat) : Nat := if state = 7 ∨ state = 15 then 0 else 2

def Lookahead.weight : Lookahead → Nat
  | .empty | .eof => 0
  | .token _ => 7

def Parser.weight (parser : Parser) : Nat :=
  (parser.stack.map entryWeight).sum + parser.look.weight + 7 * parser.rest.length +
    pending ((parser.stack.map Prod.fst).headD 0)

theorem pending_le_two (state : Nat) : pending state ≤ 2 := by
  unfold pending
  split <;> decide

theorem read_weight (parser : Parser) : parser.read.weight = parser.weight ∧
    parser.read.stack = parser.stack ∧ parser.read.look ≠ .empty := by
  obtain ⟨stack, look, rest⟩ := parser
  cases look with
  | empty =>
    cases rest with
    | nil => exact ⟨rfl, rfl, nofun⟩
    | cons token rest =>
      refine ⟨?_, rfl, nofun⟩
      simp only [Parser.weight, Parser.read, Lookahead.weight, List.length_cons]
      omega
  | eof => exact ⟨rfl, rfl, nofun⟩
  | token token => exact ⟨rfl, rfl, nofun⟩

/-- The weight of a stack from those of its upper and its lower part. -/
theorem stack_weight {stack below : List (Nat × Value)} (found : stack.drop count = below) :
    (stack.map entryWeight).sum =
      ((stack.take count).map entryWeight).sum + (below.map entryWeight).sum := by
  rw [← found, ← List.sum_append, ← List.map_append, List.take_append_drop]

theorem values_le_entries (entries : List (Nat × Value)) :
    ((entries.map Prod.snd).map Value.weight).sum ≤ (entries.map entryWeight).sum := by
  induction entries with
  | nil => exact Nat.le_refl _
  | cons entry entries ih =>
    simp only [List.map_cons, List.sum_cons, entryWeight]
    omega

/-- The state that a rule leads to above another. -/
def goto (rule state : Nat) : Nat :=
  let yylhs := yyr1.getD rule 0 - 10
  let yyi := yypgoto.getD yylhs 0 + state
  if 0 ≤ yyi ∧ yyi ≤ 19 ∧ yycheck.getD yyi.toNat 0 = state then yytable.getD yyi.toNat 0
  else (yydefgoto.getD yylhs 0).toNat

theorem yytable_ne_five (place : Nat) : yytable.getD place 0 ≠ 5 := by
  by_cases known : place < 20
  · revert place
    decide
  · rw [List.getD_eq_getElem?_getD, List.getElem?_eq_none (Nat.le_of_not_lt known)]
    decide

theorem goto_five {rule state : Nat} (known : rule < 13) (five : goto rule state = 5) :
    rule = 10 := by
  unfold goto at five
  dsimp only at five
  split at five
  · exact absurd five (yytable_ne_five _)
  · clear * - five known
    revert five
    revert rule
    decide

/-- What a rule makes of the values is lighter by itself, if it makes anything of them. -/
theorem ruleAction_weight (acted : ruleAction rule values = some value) (other : rule ≠ 4)
    (more : rule ≠ 12) :
    value.weight + (if rule = 10 ∨ rule = 11 then 3 else 0) < (values.map Value.weight).sum := by
  unfold ruleAction at acted
  split at acted
  case h_1 => exact absurd rfl other
  case h_9 => exact absurd rfl more
  case h_10 => cases acted
  case h_3 first command =>
    cases acted
    cases first <;> simp [Value.weight]
  all_goals
    cases acted
    simp [Value.weight]

theorem ruleAction_known (acted : ruleAction rule values = some value) : rule < 13 := by
  unfold ruleAction at acted
  split at acted
  case h_10 => cases acted
  all_goals decide

/-- Of no more words there are some after a word only, and of words only after them. -/
theorem yydefact_pending {state rule : Nat} (found : yydefact.getD state 0 = rule)
    (some : rule ≠ 0) :
    (rule = 4 → state = 5) ∧ (rule = 12 → pending (goto 12 state) = 0 ∧ goto 12 state ≠ 5) ∧
      (rule ≠ 10 → rule ≠ 11 → pending state = 2) := by
  by_cases known : state < 20
  · subst found
    revert some
    revert state
    decide
  · rw [List.getD_eq_getElem?_getD, List.getElem?_eq_none (Nat.le_of_not_lt known)] at found
    exact absurd found.symm some

theorem ruleAction_keeps (acted : ruleAction 4 [value] = some yyval) : value = yyval := by
  cases value with
  | cmd command =>
    cases acted
    rfl
  | _ => cases acted

theorem yyreduce_goes {rule : Nat} {parser next : Parser}
    (reduced : parser.yyreduce rule = .goes next) :
    ∃ yyval state value below,
      ruleAction rule ((parser.stack.take (yyr2.getD rule 0)).map Prod.snd) = some yyval ∧
      parser.stack.drop (yyr2.getD rule 0) = (state, value) :: below ∧
      next = { parser with stack := (goto rule state, yyval) :: (state, value) :: below } := by
  unfold Parser.yyreduce at reduced
  split at reduced
  · cases reduced
  · cases reduced
  · dsimp only at reduced
    split at reduced
    · rename_i acted left
      cases reduced
      exact ⟨_, _, _, _, acted, left, rfl⟩
    · cases reduced

theorem yyreduce_weight {state rule : Nat} {value : Value} {below : List (Nat × Value)}
    {look : Lookahead} {rest : List Token} {next : Parser}
    (found : yydefact.getD state 0 = rule) (some : rule ≠ 0)
    (reduced : Parser.yyreduce rule ⟨(state, value) :: below, look, rest⟩ = .goes next) :
    next.weight < Parser.weight ⟨(state, value) :: below, look, rest⟩ := by
  obtain ⟨five, none, other⟩ := yydefact_pending found some
  obtain ⟨yyval, state', value', below', acted, left, rfl⟩ := yyreduce_goes reduced
  have goes : goto rule state' = 5 → rule = 10 := goto_five (ruleAction_known acted)
  have ends := pending_le_two (goto rule state')
  dsimp only at acted left ⊢
  by_cases four : rule = 4
  · subst four
    cases five rfl
    cases left
    cases ruleAction_keeps acted
    have not : goto 4 state' ≠ 5 := fun same => absurd (goes same) (by decide)
    simp only [Parser.weight, List.map_cons, List.headD_cons, List.sum_cons, entryWeight,
      if_neg not, if_true]
    have rises : pending 5 = 2 := rfl
    omega
  by_cases twelve : rule = 12
  · subst twelve
    cases left
    cases acted
    obtain ⟨falls, not⟩ := none rfl
    have rises := other (by decide) (by decide)
    simp only [Parser.weight, List.map_cons, List.headD_cons, List.sum_cons, entryWeight,
      if_neg not, falls, rises, Value.weight]
    omega
  have split := stack_weight left
  have values := values_le_entries (((state, value) :: below).take (yyr2.getD rule 0))
  have lighter := ruleAction_weight acted four twelve
  simp only [Parser.weight, List.map_cons, List.headD_cons] at split ⊢
  rw [split, List.sum_cons, List.sum_cons, entryWeight]
  dsimp only
  by_cases ten : rule = 10
  · rw [if_pos (Or.inl ten)] at lighter
    split <;> omega
  · rw [if_neg fun same => ten (goes same)]
    by_cases eleven : rule = 11
    · rw [if_pos (Or.inr eleven)] at lighter
      omega
    · rw [if_neg (by omega)] at lighter
      have rises := other ten eleven
      omega

section Ends

variable {state : Nat} {value : Value} {below : List (Nat × Value)} {look : Lookahead}
  {rest : List Token} {next : Parser}

theorem yydefault_weight
    (decided : Parser.yydefault state ⟨(state, value) :: below, look, rest⟩ = .goes next) :
    next.weight < Parser.weight ⟨(state, value) :: below, look, rest⟩ := by
  unfold Parser.yydefault at decided
  split at decided
  · cases decided
  · rename_i some
    exact yyreduce_weight rfl some decided

/-- Only the state after a line would shift the end of the input. -/
theorem eof_not_shifted (other : state ≠ 3) :
    yypact.getD state 0 < 0 ∨ yycheck.getD (yypact.getD state 0).toNat 0 ≠ 0 := by
  by_cases known : state < 20
  · revert other
    revert state
    decide
  · have outside : yypact.getD state 0 = 0 := by
      rw [List.getD_eq_getElem?_getD, List.getElem?_eq_none (Nat.le_of_not_lt known),
        Option.getD_none]
    rw [outside]
    decide

theorem decide_weight
    (decided : Parser.decide state ⟨(state, value) :: below, look, rest⟩ = .goes next)
    (other : state ≠ 3) (known : look ≠ .empty) :
    next.weight < Parser.weight ⟨(state, value) :: below, look, rest⟩ := by
  unfold Parser.decide at decided
  dsimp only at decided
  split at decided
  · exact yydefault_weight decided
  · rename_i shifts
    cases decided
    cases look with
    | empty => exact absurd rfl known
    | eof =>
      have never := eof_not_shifted other
      simp only [Lookahead.yytoken, Int.add_zero] at shifts
      omega
    | token token =>
      have light : (Lookahead.token token).yylval.weight ≤ 4 := by
        cases token <;> exact Nat.le_of_ble_eq_true rfl
      have ends := pending_le_two
        (yytable.getD (yypact.getD state 0 + (Lookahead.token token).yytoken).toNat 0)
      simp only [Parser.weight, List.map_cons, List.sum_cons, List.headD_cons, Lookahead.weight]
      rw [entryWeight, if_neg (yytable_ne_five _)]
      dsimp only
      omega

theorem step_weight
    (stepped : Parser.step ⟨(state, value) :: below, look, rest⟩ = .goes next)
    (other : state ≠ 3) : next.weight < Parser.weight ⟨(state, value) :: below, look, rest⟩ := by
  rw [Parser.step] at stepped
  dsimp only at stepped
  split at stepped
  · cases stepped
  · unfold Parser.yybackup at stepped
    split at stepped
    · exact yydefault_weight stepped
    · obtain ⟨same, kept, known⟩ := read_weight ⟨(state, value) :: below, look, rest⟩
      rw [← same]
      generalize Parser.read ⟨(state, value) :: below, look, rest⟩ = after at stepped kept known ⊢
      obtain ⟨stack, look, rest⟩ := after
      cases kept
      exact decide_weight stepped other known

end Ends

theorem Shape.top (shape : Shape stack look before) :
    ∃ state value below, stack = (state, value) :: below ∧ state ≠ 3 := by
  have after (state : Nat) : afterCommand state ≠ 3 := by
    unfold afterCommand
    split <;> decide
  cases shape with
  | next here =>
    obtain ⟨state, value, below, rfl, ⟨rfl, -⟩ | states⟩ := here.state
    · exact ⟨0, value, below, rfl, by decide⟩
    · exact ⟨state, value, below, rfl, by fin_cases states <;> decide⟩
  | words here word args =>
    cases args with
    | nil => exact ⟨1, _, _, rfl, by decide⟩
    | cons arg args => exact ⟨6, _, _, rfl, by decide⟩
  | args here word args later => exact ⟨_, _, _, rfl, by split <;> decide⟩
  | command here basic => exact ⟨_, _, _, rfl, after _⟩
  | redirected here redirected known nothing => exact ⟨_, _, _, rfl, after _⟩
  | _ => exact ⟨_, _, _, rfl, by decide⟩

/-- From where it has come to, the parser goes on to the end. -/
theorem Parsed.ends {parser : Parser} (parsed : Parsed tokens (.goes parser)) :
    (∃ fuel, parser.run fuel = .error) ∨
      ∃ fuel last root, parser.run fuel = .goes last ∧ last.step = .accepted root := by
  induction heavy : parser.weight using Nat.strongRecOn generalizing parser with
  | ind weight ih =>
    obtain ⟨before, shape, whole⟩ := parsed
    obtain ⟨stack, look, rest⟩ := parser
    have stepped := shape.step whole
    obtain ⟨state, value, below, rfl, other⟩ := shape.top
    cases outcome : Parser.step ⟨(state, value) :: below, look, rest⟩ with
    | error => exact .inl ⟨1, by rw [Parser.run, outcome]⟩
    | accepted root => exact .inr ⟨0, _, root, rfl, outcome⟩
    | goes next =>
      rw [outcome] at stepped
      have lighter := step_weight outcome other
      have more (fuel : Nat) :
          Parser.run (fuel + 1) ⟨(state, value) :: below, look, rest⟩ = next.run fuel := by
        rw [Parser.run, outcome]
      rcases ih _ (heavy ▸ lighter) stepped rfl with ⟨fuel, ends⟩ | ⟨fuel, last, root, goes, ends⟩
      · exact .inl ⟨fuel + 1, (more fuel).trans ends⟩
      · exact .inr ⟨fuel + 1, last, root, (more fuel).trans goes, ends⟩

theorem run_goes {parser middle : Parser} (goes : parser.run fuel = .goes middle) (more : Nat) :
    parser.run (fuel + more) = middle.run more := by
  induction fuel generalizing parser with
  | zero =>
    cases goes
    rw [Nat.zero_add]
  | succ fuel ih =>
    rw [Parser.run] at goes
    rw [Nat.add_right_comm, Parser.run]
    cases outcome : parser.step with
    | goes next =>
      rw [outcome] at goes
      exact ih goes
    | accepted root =>
      rw [outcome] at goes
      cases goes
    | error =>
      rw [outcome] at goes
      cases goes

theorem run_stable {parser : Parser} (ends : ∀ next, parser.run fuel ≠ .goes next) (more : Nat) :
    parser.run (fuel + more) = parser.run fuel := by
  induction fuel generalizing parser with
  | zero => exact absurd rfl (ends parser)
  | succ fuel ih =>
    rw [Nat.add_right_comm, Parser.run, Parser.run]
    cases outcome : parser.step with
    | goes next =>
      refine ih fun last => ?_
      have never := ends last
      rwa [Parser.run, outcome] at never
    | accepted root => rfl
    | error => rfl

theorem Reads.run (reads : Reads tokens root rest) :
    ∃ fuel, ∀ more, (Parser.start tokens).run (fuel + (more + 1)) = .accepted root := by
  obtain ⟨fuel, parser, goes, accepted, -⟩ := reads
  refine ⟨fuel, fun more => ?_⟩
  rw [run_goes goes, Parser.run, accepted]

theorem not_rejects_of_reads (reads : Reads tokens root rest) : ¬Rejects tokens := by
  rintro ⟨fuel, error⟩
  obtain ⟨fuel', accepted⟩ := reads.run
  have one := run_stable (by rw [error]; nofun) (fuel' + 1)
  have other := accepted fuel
  rw [Nat.add_left_comm, one, error] at other
  cases other

theorem Reads.eq (reads : Reads tokens root rest) (again : Reads tokens root' rest') :
    root = root' ∧ rest = rest' := by
  obtain ⟨fuel, parser, goes, accepted, rfl⟩ := reads
  obtain ⟨fuel', parser', goes', accepted', rfl⟩ := again
  have never {fuel fuel' : Nat} {parser parser' : Parser} {root : Option Cmd}
      (goes : (Parser.start tokens).run fuel = .goes parser)
      (accepted : parser.step = .accepted root)
      (goes' : (Parser.start tokens).run fuel' = .goes parser') : fuel' ≤ fuel := by
    by_contra later
    obtain ⟨more, rfl⟩ := Nat.exists_eq_add_of_lt (Nat.lt_of_not_le later)
    rw [Nat.add_assoc, run_goes goes, Parser.run, accepted] at goes'
    cases goes'
  have same := Nat.le_antisymm (never goes' accepted' goes) (never goes accepted goes')
  subst same
  rw [goes] at goes'
  cases goes'
  rw [accepted] at accepted'
  cases accepted'
  exact ⟨rfl, rfl⟩

/-- A line is read up to its end, if the stack has room for it. -/
theorem reads_line (joined : Joined line cmd) (fits : cmd.height ≤ 9998) (rest : List Token) :
    Reads (line ++ .newline :: rest) (some cmd) rest := by
  have ends : Parser.Leads (.start (line ++ .newline :: rest))
      (.goes ⟨[(14, .none), (4, .cmd cmd), (0, .none)], .empty, rest⟩) := by
    refine leads_joined joined fits (by decide) (.inl ⟨rfl, rfl⟩) fun look left sees => ?_
    exact leads_reads (Nat.le_of_ble_eq_true rfl) (by decide) sees rfl ⟨0, rfl⟩
  obtain ⟨fuel, goes⟩ := ends
  exact ⟨fuel, _, goes, rfl, rfl⟩

theorem reads_blank (rest : List Token) : Reads (.newline :: rest) none rest :=
  ⟨1, ⟨[(2, .none), (0, .none)], .empty, rest⟩, rfl, rfl, rfl⟩

theorem reads_some_iff : Reads tokens (some cmd) rest ↔
    ∃ line, Joined line cmd ∧ cmd.height ≤ 9998 ∧ tokens = line ++ .newline :: rest := by
  constructor
  · intro reads
    obtain ⟨fuel, accepted⟩ := reads.run
    obtain ⟨line, after, joined, rfl⟩ := joined_of_accepts ⟨_, accepted 0⟩
    by_cases fits : cmd.height ≤ 9998
    · obtain ⟨-, rfl⟩ := reads.eq (reads_line joined fits after)
      exact ⟨line, joined, fits, rfl⟩
    · exact absurd (joined_overflow joined (Nat.lt_of_not_le fits) (by decide) (.inl ⟨rfl, rfl⟩))
        (not_rejects_of_reads reads)
  · rintro ⟨line, joined, fits, rfl⟩
    exact reads_line joined fits rest

theorem parsed_start (tokens : List Token) : Parsed tokens (.goes (.start tokens)) :=
  ⟨[], .next (.outer .start), rfl⟩

theorem reads_none_iff : Reads tokens none rest ↔ tokens = .newline :: rest := by
  constructor
  · intro reads
    obtain ⟨fuel, accepted⟩ := reads.run
    have parsed := (parsed_start tokens).run (fuel + 1)
    rw [accepted 0] at parsed
    obtain ⟨after, rfl⟩ := parsed
    obtain ⟨-, rfl⟩ := reads.eq (reads_blank after)
    rfl
  · rintro rfl
    exact reads_blank rest

theorem rejects_iff : Rejects tokens ↔ ∀ root rest, ¬Reads tokens root rest := by
  constructor
  · exact fun rejects root rest reads => not_rejects_of_reads reads rejects
  · intro never
    rcases (parsed_start tokens).ends with error | ⟨fuel, last, root, goes, accepted⟩
    · exact error
    · exact absurd ⟨fuel, last, goes, accepted, rfl⟩ (never root last.rest)

/-- Every call of `yyparse` ends. It accepts a line of the grammar that its stack has room for, or
an empty one, and takes nothing behind the end of the line; on all else it exits. -/
theorem reads_iff_joined (tokens : List Token) :
    (∀ cmd rest, Reads tokens (some cmd) rest ↔
      ∃ line, Joined line cmd ∧ cmd.height ≤ 9998 ∧ tokens = line ++ .newline :: rest) ∧
    (∀ rest, Reads tokens none rest ↔ tokens = .newline :: rest) ∧
    (Rejects tokens ↔ ∀ root rest, ¬Reads tokens root rest) :=
  ⟨fun _ _ => reads_some_iff, fun _ => reads_none_iff, rejects_iff⟩

end CssLab.Shell
