import CssLab.Mcc.GrammarSound

namespace CssLab.Mcc

/-- The parser comes from here to this in the end. -/
def Parser.Leads (parser : Parser) (outcome : Outcome) : Prop := ∃ fuel, parser.run fuel = outcome

theorem Parser.Leads.step {parser next : Parser} (leads : next.Leads outcome)
    (stepped : parser.step = .goes next) : parser.Leads outcome := by
  obtain ⟨fuel, ends⟩ := leads
  refine ⟨fuel + 1, ?_⟩
  rw [Parser.run, stepped]
  exact ends

section Runs

variable {place middle input rest : List Char} {state : Nat} {value : Value}
  {below : List (Nat × Value)} {look : Lookahead} {outcome : Outcome}

/-- A run that goes on by what the next token decides. -/
theorem leads_reads (short : below.length < 9999) (reads : yypact.getD state 0 ≠ -8)
    (sees : look.Sees place input) (lexed : yylex place = some (next, rest))
    (decided : Parser.decide state ⟨(state, value) :: below, .of next, rest⟩ = .goes after)
    (leads : after.Leads outcome) :
    Parser.Leads ⟨(state, value) :: below, look, input⟩ outcome := by
  apply leads.step
  rw [step_of_lexed short reads sees lexed, decided]

/-- A run that goes on by the only rule of a state. -/
theorem leads_default (short : below.length < 9999) (reduces : yypact.getD state 0 = -8)
    (decided : Parser.yydefault state ⟨(state, value) :: below, look, input⟩ = .goes after)
    (leads : after.Leads outcome) :
    Parser.Leads ⟨(state, value) :: below, look, input⟩ outcome := by
  apply leads.step
  rw [step_of_default short reduces, decided]

/-- Where an expression may begin, its tokens are read and become it, whatever the parser
comes to behind them. -/
theorem leads_exp {e : Exp} (exp : expGrammar.Stacked room least tokens e)
    (begins : state ∈ beforeExp) (higher : leastAfter state ≤ least)
    (fits : below.length + room ≤ 9998) (sees : look.Sees place input)
    (lexes : Lexes place tokens middle) (ahead : yylex middle = some (next, rest))
    (follow : ∀ op : BinType, next = some op.token → op.level ≤ least)
    (leads : ∀ look input, look.Sees middle input →
      Parser.Leads ⟨(afterExp state, .exp e) :: (state, value) :: below, look, input⟩ outcome) :
    Parser.Leads ⟨(state, value) :: below, look, input⟩ outcome := by
  induction exp generalizing state value below look place middle input rest next with
  | @atom token e room least found =>
    obtain ⟨more, lexed, rfl⟩ : ∃ more, yylex place = some (some token, more) ∧ middle = more := by
      cases lexes with
      | cons first more =>
        cases more
        exact ⟨_, first, rfl⟩
    have leads := leads .empty middle rfl
    have short : below.length < 9999 := by omega
    have short' : ((state, value) :: below).length < 9999 := by
      rw [List.length_cons]
      omega
    have reads : yypact.getD state 0 ≠ -8 := by
      fin_cases begins <;> decide
    cases token with
    | num num =>
      cases found
      have reduced : Parser.Leads ⟨(10, .num num) :: (state, value) :: below, .empty, middle⟩
          outcome := by
        refine leads_default short' (by decide) ?_ leads
        fin_cases begins <;> rfl
      refine leads_reads short reads sees lexed ?_ reduced
      fin_cases begins <;> rfl
    | var name =>
      cases found
      have reduced : Parser.Leads ⟨(9, .var name) :: (state, value) :: below, .empty, middle⟩
          outcome := by
        refine leads_default short' (by decide) ?_ leads
        fin_cases begins <;> rfl
      refine leads_reads short reads sees lexed ?_ reduced
      fin_cases begins <;> rfl
    | _ => cases found
  | @brackets room tokens e least inner ih =>
    obtain ⟨opened, lexed, inside⟩ : ∃ opened, yylex place = some (some .lparen, opened) ∧
        Lexes opened (tokens ++ [.rparen]) middle := by
      cases lexes with
      | cons first more => exact ⟨_, first, more⟩
    obtain ⟨closing, within, last⟩ := inside.split
    have lexed' : yylex closing = some (some .rparen, middle) := by
      cases last with
      | cons first more =>
        cases more
        exact first
    have leads := leads .empty middle rfl
    have reads : yypact.getD state 0 ≠ -8 := by
      fin_cases begins <;> decide
    have closed : Parser.Leads ⟨(21, .none) :: (15, .exp e) :: (11, .none) :: (state, value) ::
        below, .empty, middle⟩ outcome := by
      refine leads_default (by simp only [List.length_cons]; omega) (by decide) ?_ leads
      fin_cases begins <;> rfl
    have opened : Parser.Leads ⟨(11, .none) :: (state, value) :: below, .empty, opened⟩
        outcome := by
      refine ih (by decide) (Nat.zero_le _) (by simp only [List.length_cons]; omega) rfl within
        lexed' (fun op same => ?_) fun look input sees => ?_
      · cases op <;> cases same
      · refine leads_reads (by simp only [List.length_cons]; omega) (by decide) sees lexed' rfl
          closed
    refine leads_reads (by omega) reads sees lexed ?_ opened
    fin_cases begins <;> rfl
  | @node least room before first after second op above left right ih ih' =>
    obtain ⟨operator, front, back⟩ := lexes.split
    obtain ⟨behind, lexed, back⟩ : ∃ behind, yylex operator = some (some op.token, behind) ∧
        Lexes behind after middle := by
      cases back with
      | cons first more => exact ⟨_, first, more⟩
    have reduced (look : Lookahead) (input : List Char) (sees : look.Sees middle input) :
        Parser.Leads ⟨(afterExp op.state, .exp second) :: (op.state, .none) ::
          (afterExp state, .exp first) :: (state, value) :: below, look, input⟩ outcome := by
      have short : ((op.state, .none) :: (afterExp state, Value.exp first) ::
          (state, value) :: below).length < 9999 := by
        have one := right.room_pos
        simp only [List.length_cons]
        omega
      cases op with
      | add =>
        have leads := leads (.of next) rest (Lookahead.sees_of ahead)
        refine leads_reads short (by decide) sees ahead ?_ leads
        rcases next with _ | token
        · fin_cases begins <;> rfl
        · cases token with
          | times => exact absurd ((follow .times rfl).trans above) (by decide)
          | slash => exact absurd ((follow .div rfl).trans above) (by decide)
          | _ => fin_cases begins <;> rfl
      | sub =>
        have leads := leads (.of next) rest (Lookahead.sees_of ahead)
        refine leads_reads short (by decide) sees ahead ?_ leads
        rcases next with _ | token
        · fin_cases begins <;> rfl
        · cases token with
          | times => exact absurd ((follow .times rfl).trans above) (by decide)
          | slash => exact absurd ((follow .div rfl).trans above) (by decide)
          | _ => fin_cases begins <;> rfl
      | times =>
        refine leads_default short (by decide) ?_ (leads look input sees)
        fin_cases begins <;> rfl
      | div =>
        refine leads_default short (by decide) ?_ (leads look input sees)
        fin_cases begins <;> rfl
    have shifted : Parser.Leads ⟨(op.state, .none) :: (afterExp state, .exp first) ::
        (state, value) :: below, .empty, behind⟩ outcome := by
      refine ih' ?_ ?_ ?_ rfl back ahead (fun op' same => ?_) reduced
      · cases op <;> decide
      · cases op <;> decide
      · simp only [List.length_cons]
        omega
      · exact (follow op' same).trans (Nat.le_succ_of_le above)
    refine ih begins (higher.trans above) fits sees front lexed (fun op' same => ?_) ?_
    · rw [expGrammar.operator_injective (Option.some.inj same)]
      exact Nat.le_refl _
    · intro look input sees
      have shifts : leastAfter state ≤ op.level := higher.trans above
      refine leads_reads (by simp only [List.length_cons]; omega) ?_ sees lexed ?_ shifted
      · cases op <;> fin_cases begins <;> first | decide | exact absurd shifts (by decide)
      · cases op <;> fin_cases begins <;> first | rfl | exact absurd shifts (by decide)

/-- Where a statement may begin, one without a semicolon is read. -/
theorem leads_simple {stm : Stm} (simple : Simple room tokens stm) (begins : state = 0 ∨ state = 8)
    (fits : below.length + room ≤ 9998) (sees : look.Sees place input)
    (lexes : Lexes place tokens middle) (ahead : yylex middle = some (next, rest))
    (follow : ∀ token ∈ next, token.isOperator = true → stm.continues token = false)
    (leads : ∀ look input, look.Sees middle input →
      Parser.Leads ⟨(afterStm state, .stm stm) :: (state, value) :: below, look, input⟩ outcome) :
    Parser.Leads ⟨(state, value) :: below, look, input⟩ outcome := by
  have reads : yypact.getD state 0 ≠ -8 := by
    rcases begins with rfl | rfl
    · decide
    · decide
  cases simple with
  | @assign room tokens e name exp =>
    obtain ⟨named, lexed, equal, lexed', lexes⟩ : ∃ named,
        yylex place = some (some (.var name), named) ∧ ∃ equal,
          yylex named = some (some .equals, equal) ∧ Lexes equal tokens middle := by
      cases lexes with
      | cons first more =>
        cases more with
        | cons second more => exact ⟨_, first, _, second, more⟩
    have ended (look : Lookahead) (input : List Char) (sees : look.Sees middle input) :
        Parser.Leads ⟨(12, .exp e) :: (5, .none) :: (1, .var name) :: (state, value) :: below,
          look, input⟩ outcome := by
      have leads := leads (.of next) rest (Lookahead.sees_of ahead)
      have one := exp.room_pos
      refine leads_reads (by simp only [List.length_cons]; omega) (by decide) sees ahead ?_ leads
      rcases next with _ | token
      · rcases begins with rfl | rfl <;> rfl
      · have other : token.isOperator = false := by
          by_contra operator
          have operator := Bool.of_not_eq_false operator
          have ends := follow token rfl operator
          rw [Stm.continues, operator] at ends
          cases ends
        cases token with
        | plus | minus | times | slash => cases other
        | _ => rcases begins with rfl | rfl <;> rfl
    have right : Parser.Leads ⟨(5, .none) :: (1, .var name) :: (state, value) :: below, .empty,
        equal⟩ outcome := by
      refine leads_exp exp (by decide) (Nat.zero_le _) ?_ rfl lexes ahead ?_ ended
      · simp only [List.length_cons]
        omega
      · rintro op rfl
        have operator : op.token.isOperator = true := by cases op <;> rfl
        have ends := follow op.token rfl operator
        rw [Stm.continues, operator] at ends
        cases ends
    have named : Parser.Leads ⟨(1, .var name) :: (state, value) :: below, .empty, named⟩ outcome :=
      leads_reads (by simp only [List.length_cons]; omega) (by decide) rfl lexed' rfl right
    refine leads_reads (by omega) reads sees lexed ?_ named
    rcases begins with rfl | rfl <;> rfl
  | @print room tokens e exp =>
    obtain ⟨keyword, lexed, opened, lexed', closing, lexes, lexed''⟩ : ∃ keyword,
        yylex place = some (some .print, keyword) ∧ ∃ opened,
          yylex keyword = some (some .lparen, opened) ∧ ∃ closing, Lexes opened tokens closing ∧
            yylex closing = some (some .rparen, middle) := by
      cases lexes with
      | cons first more =>
        cases more with
        | cons second more =>
          obtain ⟨closing, within, last⟩ := more.split
          cases last with
          | cons third more =>
            cases more
            exact ⟨_, first, _, second, closing, within, third⟩
    have printed : Parser.Leads ⟨(20, .none) :: (13, .exp e) :: (6, .none) :: (2, .none) ::
        (state, value) :: below, .empty, middle⟩ outcome := by
      refine leads_default (by simp only [List.length_cons]; omega) (by decide) ?_
        (leads .empty middle rfl)
      rcases begins with rfl | rfl <;> rfl
    have inside : Parser.Leads ⟨(6, .none) :: (2, .none) :: (state, value) :: below, .empty,
        opened⟩ outcome := by
      refine leads_exp exp (by decide) (Nat.zero_le _) ?_ rfl lexes lexed'' ?_ ?_
      · simp only [List.length_cons]
        omega
      · intro op same
        cases op <;> cases same
      · intro look input sees
        exact leads_reads (by simp only [List.length_cons]; omega) (by decide) sees lexed'' rfl
          printed
    have bracket : Parser.Leads ⟨(2, .none) :: (state, value) :: below, .empty, keyword⟩ outcome :=
      leads_reads (by simp only [List.length_cons]; omega) (by decide) rfl lexed' rfl inside
    refine leads_reads (by omega) reads sees lexed ?_ bracket
    rcases begins with rfl | rfl <;> rfl

theorem leads_program {stm : Stm} (program : Program room tokens stm) (fits : room ≤ 9998)
    (sees : look.Sees place input) (lexes : Lexes place tokens middle)
    (ahead : yylex middle = some (next, rest))
    (follow : ∀ token ∈ next, token.isOperator = true → stm.continues token = false)
    (leads : ∀ look input, look.Sees middle input →
      Parser.Leads ⟨[(4, .stm stm), (0, .none)], look, input⟩ outcome) :
    Parser.Leads ⟨[(0, .none)], look, input⟩ outcome := by
  induction program generalizing middle rest next with
  | simple simple =>
    refine leads_simple simple (.inl rfl) ?_ sees lexes ahead follow leads
    rwa [List.length_nil, Nat.zero_add]
  | @seq room before first after second left right ih =>
    obtain ⟨semicolon, front, back⟩ := lexes.split
    obtain ⟨behind, lexed, back⟩ : ∃ behind, yylex semicolon = some (some .semicolon, behind) ∧
        Lexes behind after middle := by
      cases back with
      | cons first more => exact ⟨_, first, more⟩
    have sequence (look : Lookahead) (input : List Char) (sees : look.Sees middle input) :
        Parser.Leads ⟨[(14, .stm second), (8, .none), (4, .stm first), (0, .none)], look, input⟩
          outcome :=
      leads_default (by simp) (by decide) rfl (leads look input sees)
    have later : Parser.Leads ⟨[(8, .none), (4, .stm first), (0, .none)], .empty, behind⟩
        outcome := by
      refine leads_simple right (.inr rfl) ?_ rfl back ahead follow sequence
      simp only [List.length_cons, List.length_nil]
      omega
    refine ih fits front lexed ?_ fun look input sees => ?_
    · rintro _ ⟨⟩ operator
      cases operator
    · exact leads_reads (by simp) (by decide) sees lexed rfl later

end Runs

theorem accepts_of_parses (parses : Parses source root) : Accepts source root := by
  obtain ⟨tokens, place, next, rest, lexes, program, ahead, ends⟩ := parses
  have start : Parser.Leads ⟨[(0, .none)], .empty, source⟩ (.accepted root) := by
    refine leads_program program (Nat.le_refl _) rfl lexes ahead
      (fun token found _ => ends token found) fun look input sees => ?_
    have decided : Parser.step ⟨[(4, .stm root), (0, .none)], look, input⟩ = .accepted root := by
      rw [step_of_lexed (by simp) (by decide) sees ahead]
      rcases next with _ | token
      · rfl
      · cases token with
        | semicolon =>
          have other := ends .semicolon rfl
          rw [root.continues_semicolon] at other
          cases other
        | _ => rfl
    refine ⟨1, ?_⟩
    rw [Parser.run, decided]
  exact start

end CssLab.Mcc
