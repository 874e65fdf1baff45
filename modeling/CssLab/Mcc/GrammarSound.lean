import CssLab.Mcc.Grammar
import Mathlib.Tactic.FinCases

namespace CssLab.Mcc

/-- How many symbols there is room for above a stack. -/
def roomAbove (below : List (Nat × Value)) : Nat := 9998 - below.length

/-- A stack on which a statement is next, with the tokens before it. -/
inductive Outer : List (Nat × Value) → List Token → Prop
  | start : Outer [(0, .none)] []
  | seq (left : Program 9998 tokens first) :
      Outer [(8, .none), (4, .stm first), (0, .none)] (tokens ++ [.semicolon])

/-- A stack on which an expression is next. -/
inductive Expecting : List (Nat × Value) → List Token → Prop
  | assign (outer : Outer stack before) (name : String) :
      Expecting ((5, .none) :: (1, .var name) :: stack) (before ++ [.var name, .equals])
  | print (outer : Outer stack before) :
      Expecting ((6, .none) :: (2, .none) :: stack) (before ++ [.print, .lparen])
  | brackets (here : Expecting stack before) :
      Expecting ((11, .none) :: stack) (before ++ [.lparen])
  | operator (here : Expecting ((state, value) :: below) before) (op : BinType)
      (above : leastAfter state ≤ op.level)
      (left : expGrammar.Stacked (roomAbove below) op.level after first) :
      Expecting ((op.state, .none) :: (afterExp state, .exp first) :: (state, value) :: below)
        (before ++ after ++ [op.token])

/-- The lookahead is known and it is no part of the statement, unless a semicolon. -/
def Settled (stm : Stm) (look : Lookahead) : Prop :=
  ∀ token, token.isOperator = true → stm.continues token = true →
    look ≠ .empty ∧ look ≠ .token token

/-- The stack and the lookahead, with the tokens before it. -/
inductive Shape : List (Nat × Value) → Lookahead → List Token → Prop
  | stm (here : Outer stack before) : Shape stack look before
  | name (here : Outer stack before) (name : String) :
      Shape ((1, .var name) :: stack) look (before ++ [.var name])
  | keyword (here : Outer stack before) : Shape ((2, .none) :: stack) look (before ++ [.print])
  | exp (here : Expecting stack before) : Shape stack look before
  | num (here : Expecting stack before) (num : BitVec 32) :
      Shape ((10, .num num) :: stack) look (before ++ [.num num])
  | var (here : Expecting stack before) (name : String) :
      Shape ((9, .var name) :: stack) look (before ++ [.var name])
  | done (here : Expecting ((state, value) :: below) before)
      (exp : expGrammar.Stacked (roomAbove below) least after e)
      (above : leastAfter state ≤ least)
      (settled : ∀ op : BinType, least < op.level → look ≠ .empty ∧ look ≠ .token op.token) :
      Shape ((afterExp state, .exp e) :: (state, value) :: below) look (before ++ after)
  | closed (here : Expecting stack before)
      (exp : expGrammar.Stacked (roomAbove stack) 0 after e) :
      Shape ((21, .none) :: (15, .exp e) :: (11, .none) :: stack) look
        (before ++ [.lparen] ++ after ++ [.rparen])
  | printed (here : Outer stack before)
      (exp : expGrammar.Stacked (roomAbove ((2, .none) :: stack)) 0 after e) :
      Shape ((20, .none) :: (13, .exp e) :: (6, .none) :: (2, .none) :: stack) look
        (before ++ [.print, .lparen] ++ after ++ [.rparen])
  | second (left : Program 9998 before first) (right : Simple 9996 after stm)
      (settled : Settled stm look) :
      Shape [(14, .stm stm), (8, .none), (4, .stm first), (0, .none)] look
        (before ++ [.semicolon] ++ after)
  | program (program : Program 9998 before stm) (settled : Settled stm look) :
      Shape [(4, .stm stm), (0, .none)] look before

/-- What has been found out about a text. -/
def Parsed (source : List Char) : Outcome → Prop
  | .goes parser => ∃ before place, Shape parser.stack parser.look before ∧
      Lexes source before place ∧ parser.look.Sees place parser.input
  | .accepted root => Parses source root
  | .error => True

theorem Outer.top (here : Outer stack before) : ∃ state below, stack = (state, .none) :: below ∧
    (state = 0 ∧ below = [] ∨ state = 8) := by
  cases here with
  | start => exact ⟨0, [], rfl, .inl ⟨rfl, rfl⟩⟩
  | seq left => exact ⟨8, _, rfl, .inr rfl⟩

theorem Expecting.top (here : Expecting stack before) :
    ∃ state below, stack = (state, .none) :: below ∧ state ∈ beforeExp := by
  cases here with
  | assign outer name => exact ⟨5, _, rfl, by decide⟩
  | print outer => exact ⟨6, _, rfl, by decide⟩
  | brackets here => exact ⟨11, _, rfl, by decide⟩
  | operator here op above left => exact ⟨op.state, _, rfl, by cases op <;> decide⟩

section Steps

variable {source place input rest : List Char} {before : List Token} {state : Nat} {value : Value}
  {below stack : List (Nat × Value)} {look : Lookahead}

theorem parsed_reads (short : below.length < 9999) (reads : yypact.getD state 0 ≠ -8)
    (sees : look.Sees place input)
    (decided : ∀ next rest, yylex place = some (next, rest) →
      Parsed source (Parser.decide state ⟨(state, value) :: below, .of next, rest⟩)) :
    Parsed source (Parser.step ⟨(state, value) :: below, look, input⟩) := by
  rw [step_of_sees short reads sees]
  cases lexed : yylex place with
  | none => trivial
  | some next => exact decided next.1 next.2 lexed

theorem parsed_default (short : below.length < 9999) (reduces : yypact.getD state 0 = -8)
    (decided : Parsed source (Parser.yydefault state ⟨(state, value) :: below, look, input⟩)) :
    Parsed source (Parser.step ⟨(state, value) :: below, look, input⟩) := by
  rwa [step_of_default short reduces]

theorem parsed_shift {token : Token} (lexes : Lexes source before place)
    (lexed : yylex place = some (some token, rest))
    (shape : Shape stack .empty (before ++ [token])) :
    Parsed source (.goes ⟨stack, .empty, rest⟩) :=
  ⟨_, rest, shape, lexes.append (.single lexed), rfl⟩

theorem parsed_reduce {next : Option Token} (lexes : Lexes source before place)
    (lexed : yylex place = some (next, rest)) (shape : Shape stack (.of next) before) :
    Parsed source (.goes ⟨stack, .of next, rest⟩) :=
  ⟨_, place, shape, lexes, Lookahead.sees_of lexed⟩

/-- Where a statement is next, it starts with a name or with `print`. -/
theorem parsed_stm (here : Outer stack before) (lexes : Lexes source before place)
    (sees : look.Sees place input) : Parsed source (Parser.step ⟨stack, look, input⟩) := by
  have shift (token : Token) (rest : List Char) (lexed : yylex place = some (some token, rest)) :
      (∀ name, token = .var name → Parsed source (.goes ⟨(1, .var name) :: stack, .empty, rest⟩)) ∧
        (token = .print → Parsed source (.goes ⟨(2, .none) :: stack, .empty, rest⟩)) := by
    constructor
    · rintro name rfl
      exact parsed_shift lexes lexed (.name here name)
    · rintro rfl
      exact parsed_shift lexes lexed (.keyword here)
  cases here with
  | start =>
    refine parsed_reads (by decide) (by decide) sees fun next rest lexed => ?_
    rcases next with _ | token
    · trivial
    · cases token with
      | var name => exact (shift _ rest lexed).1 name rfl
      | print => exact (shift _ rest lexed).2 rfl
      | _ => trivial
  | seq left =>
    refine parsed_reads (by simp) (by decide) sees fun next rest lexed => ?_
    rcases next with _ | token
    · trivial
    · cases token with
      | var name => exact (shift _ rest lexed).1 name rfl
      | print => exact (shift _ rest lexed).2 rfl
      | _ => trivial

theorem parsed_name (here : Outer stack before) (name : String) (short : stack.length < 9999)
    (lexes : Lexes source (before ++ [.var name]) place) (sees : look.Sees place input) :
    Parsed source (Parser.step ⟨(1, .var name) :: stack, look, input⟩) := by
  refine parsed_reads short (by decide) sees fun next rest lexed => ?_
  rcases next with _ | token
  · trivial
  · cases token with
    | equals =>
      refine parsed_shift lexes lexed (.exp ?_)
      rw [List.append_assoc]
      exact .assign here name
    | _ => trivial

theorem parsed_keyword (here : Outer stack before) (short : stack.length < 9999)
    (lexes : Lexes source (before ++ [.print]) place) (sees : look.Sees place input) :
    Parsed source (Parser.step ⟨(2, .none) :: stack, look, input⟩) := by
  refine parsed_reads short (by decide) sees fun next rest lexed => ?_
  rcases next with _ | token
  · trivial
  · cases token with
    | lparen =>
      refine parsed_shift lexes lexed (.exp ?_)
      rw [List.append_assoc]
      exact .print here
    | _ => trivial

/-- Where an expression is next, it starts with a number, a name or a bracket. -/
theorem parsed_exp (here : Expecting ((state, value) :: below) before)
    (short : below.length < 9999) (lexes : Lexes source before place)
    (sees : look.Sees place input) :
    Parsed source (Parser.step ⟨(state, value) :: below, look, input⟩) := by
  have decided (next : Option Token) (rest : List Char) (lexed : yylex place = some (next, rest))
      (states : state ∈ beforeExp) :
      Parsed source (Parser.decide state ⟨(state, value) :: below, .of next, rest⟩) := by
    rcases next with _ | token
    · fin_cases states <;> trivial
    · cases token with
      | var name =>
        have shape := parsed_shift lexes lexed (.var here name)
        fin_cases states <;> exact shape
      | num num =>
        have shape := parsed_shift lexes lexed (.num here num)
        fin_cases states <;> exact shape
      | lparen =>
        have shape := parsed_shift lexes lexed (.exp (.brackets here))
        fin_cases states <;> exact shape
      | _ => fin_cases states <;> trivial
  obtain ⟨_, _, same, states⟩ := here.top
  cases same
  have reads : yypact.getD state 0 ≠ -8 := by
    fin_cases states <;> decide
  exact parsed_reads short reads sees fun next rest lexed => decided next rest lexed states

theorem parsed_operand (here : Expecting ((state, value) :: below) before) {token : Token} {e : Exp}
    (found : expGrammar.atom token = some e) (short : below.length < 9998)
    (lexes : Lexes source (before ++ [token]) place) (sees : look.Sees place input) :
    Parsed source (.goes ⟨(afterExp state, .exp e) :: (state, value) :: below, look, input⟩) := by
  have room : roomAbove below = roomAbove ((state, value) :: below) + 1 := by
    rw [roomAbove, roomAbove, List.length_cons]
    omega
  have exp : expGrammar.Stacked (roomAbove below) 4 [token] e := by
    rw [room]
    exact .atom found
  obtain ⟨_, _, same, states⟩ := here.top
  cases same
  refine ⟨_, place, .done here exp ?_ ?_, lexes, sees⟩
  · fin_cases states <;> decide
  · intro op higher
    exact absurd higher (by cases op <;> decide)

theorem parsed_num (here : Expecting ((state, value) :: below) before) (num : BitVec 32)
    (short : below.length < 9998) (lexes : Lexes source (before ++ [.num num]) place)
    (sees : look.Sees place input) :
    Parsed source (Parser.step ⟨(10, .num num) :: (state, value) :: below, look, input⟩) := by
  have parsed := parsed_operand here (e := .num num) rfl short lexes sees
  obtain ⟨_, _, same, states⟩ := here.top
  cases same
  refine parsed_default (Nat.succ_lt_succ short) (by decide) ?_
  fin_cases states <;> exact parsed

theorem parsed_var (here : Expecting ((state, value) :: below) before) (name : String)
    (short : below.length < 9998) (lexes : Lexes source (before ++ [.var name]) place)
    (sees : look.Sees place input) :
    Parsed source (Parser.step ⟨(9, .var name) :: (state, value) :: below, look, input⟩) := by
  have parsed := parsed_operand here (e := .var name) rfl short lexes sees
  obtain ⟨_, _, same, states⟩ := here.top
  cases same
  refine parsed_default (Nat.succ_lt_succ short) (by decide) ?_
  fin_cases states <;> exact parsed

theorem parsed_closed (here : Expecting ((state, value) :: below) before) {e : Exp}
    (exp : expGrammar.Stacked (roomAbove ((state, value) :: below)) 0 after e)
    (short : below.length < 9996)
    (lexes : Lexes source (before ++ [.lparen] ++ after ++ [.rparen]) place)
    (sees : look.Sees place input) :
    Parsed source (Parser.step
      ⟨(21, .none) :: (15, .exp e) :: (11, .none) :: (state, value) :: below, look, input⟩) := by
  have room : roomAbove below = 9995 - below.length + 3 := by
    rw [roomAbove]
    omega
  have inner : roomAbove ((state, value) :: below) = 9995 - below.length + 2 := by
    rw [roomAbove, List.length_cons]
    omega
  have exp' : expGrammar.Stacked (roomAbove below) 4 (.lparen :: (after ++ [.rparen])) e := by
    rw [inner] at exp
    rw [room]
    exact .brackets exp
  obtain ⟨_, _, same, states⟩ := here.top
  cases same
  have above : leastAfter state ≤ 4 := by
    fin_cases states <;> decide
  have parsed : Parsed source
      (.goes ⟨(afterExp state, .exp e) :: (state, .none) :: below, look, input⟩) := by
    refine ⟨_, place, .done here exp' above fun op higher => ?_, ?_, sees⟩
    · exact absurd higher (by cases op <;> decide)
    · simpa using lexes
  refine parsed_default (by simp only [List.length_cons]; omega) (by decide) ?_
  fin_cases states <;> exact parsed

theorem sees_token {token : Token} (sees : look.Sees place input)
    (lexed : yylex place = some (some token, rest)) : look = .empty ∨ look = .token token := by
  cases look with
  | empty => exact .inl rfl
  | eof =>
    change yylex place = _ at sees
    cases sees.symm.trans lexed
  | token first =>
    change yylex place = _ at sees
    cases sees.symm.trans lexed
    exact .inr rfl

/-- A statement without a semicolon stands on its own or behind others. -/
theorem shape_simple (here : Outer ((state, value) :: below) before)
    (simple : Simple (roomAbove below) after stm) (settled : Settled stm look) :
    Shape ((afterStm state, .stm stm) :: (state, value) :: below) look (before ++ after) := by
  cases here with
  | start => exact .program (.simple simple) settled
  | seq left => exact .second left simple settled

theorem parsed_printed (here : Outer stack before) {e : Exp}
    (exp : expGrammar.Stacked (roomAbove ((2, .none) :: stack)) 0 after e)
    (lexes : Lexes source (before ++ [.print, .lparen] ++ after ++ [.rparen]) place)
    (sees : look.Sees place input) :
    Parsed source (Parser.step
      ⟨(20, .none) :: (13, .exp e) :: (6, .none) :: (2, .none) :: stack, look, input⟩) := by
  have settled : Settled (.print e) look := by
    intro token operator continues
    obtain rfl : token = .semicolon := beq_iff_eq.mp continues
    cases operator
  have whole : before ++ [.print, .lparen] ++ after ++ [.rparen] =
      before ++ (.print :: .lparen :: (after ++ [.rparen])) := by
    simp
  rw [whole] at lexes
  cases here with
  | start =>
    have simple : Simple (roomAbove []) (.print :: .lparen :: (after ++ [.rparen])) (.print e) :=
      .print exp
    exact ⟨_, place, shape_simple .start simple settled, lexes, sees⟩
  | @seq _ first left =>
    have simple : Simple (roomAbove [(4, .stm first), (0, .none)])
        (.print :: .lparen :: (after ++ [.rparen])) (.print e) := .print exp
    exact ⟨_, place, shape_simple (.seq left) simple settled, lexes, sees⟩

/-- An operator behind an expression is shifted, unless the expression ends with one that
binds less. -/
theorem parsed_operator (here : Expecting ((state, value) :: below) before) {e : Exp}
    (exp : expGrammar.Stacked (roomAbove below) least after e)
    (settled : ∀ op : BinType, least < op.level → look ≠ .empty ∧ look ≠ .token op.token)
    (lexes : Lexes source (before ++ after) place) (sees : look.Sees place input) (op : BinType)
    (above : leastAfter state ≤ op.level) (lexed : yylex place = some (some op.token, rest)) :
    Parsed source (.goes ⟨(op.state, .none) :: (afterExp state, .exp e) :: (state, value) :: below,
      .empty, rest⟩) := by
  have level : op.level ≤ least := by
    by_contra higher
    obtain ⟨known, other⟩ := settled op (by omega)
    rcases sees_token sees lexed with same | same
    · exact known same
    · exact other same
  exact parsed_shift lexes lexed (.exp (.operator here op above (exp.lower level)))

/-- Two expressions with an operator between them become one, if no operator is next that
binds more. -/
theorem shape_node (here : Expecting ((state, value) :: below) before) (op : BinType)
    (above : leastAfter state ≤ op.level) {first second : Exp}
    (left : expGrammar.Stacked (roomAbove below) op.level front first)
    (right : expGrammar.Stacked
      (roomAbove ((afterExp state, .exp first) :: (state, value) :: below))
      (op.level + 1) after second) (short : below.length < 9997)
    (settled : ∀ higher : BinType, op.level < higher.level →
      look ≠ .empty ∧ look ≠ .token higher.token) :
    Shape ((afterExp state, .exp (.bin op first second)) :: (state, value) :: below) look
      (before ++ (front ++ op.token :: after)) := by
  have room : roomAbove below =
      roomAbove ((afterExp state, .exp first) :: (state, value) :: below) + 2 := by
    rw [roomAbove, roomAbove, List.length_cons, List.length_cons]
    omega
  refine .done here ?_ above settled
  rw [room] at left ⊢
  exact .node (Nat.le_refl _) left right

/-- What is next decides whether an assignment is at its end. -/
theorem parsed_assigned (here : Outer stack before) (name : String) {e : Exp}
    (exp : expGrammar.Stacked (roomAbove ((1, .var name) :: stack)) 0 after e)
    (short : stack.length < 9997) {next : Option Token}
    (lexes : Lexes source (before ++ [.var name, .equals] ++ after) place)
    (lexed : yylex place = some (next, rest))
    (other : ∀ op : BinType, next ≠ some op.token) :
    Parsed source (Parser.yyreduce 3
      ⟨(12, .exp e) :: (5, .none) :: (1, .var name) :: stack, .of next, rest⟩) := by
  have settled : Settled (.assign name e) (.of next) := by
    intro token operator _
    refine ⟨Lookahead.of_ne_empty next, fun same => ?_⟩
    have found : next = some token := by
      cases next with
      | none => cases same
      | some first =>
        cases same
        rfl
    cases token with
    | plus => exact other .add found
    | minus => exact other .sub found
    | times => exact other .times found
    | slash => exact other .div found
    | _ => cases operator
  rw [List.append_assoc] at lexes
  cases here with
  | start =>
    have simple : Simple (roomAbove []) (.var name :: .equals :: after) (.assign name e) :=
      .assign name exp
    exact parsed_reduce lexes lexed (shape_simple .start simple settled)
  | @seq _ first left =>
    have simple : Simple (roomAbove [(4, .stm first), (0, .none)])
        (.var name :: .equals :: after) (.assign name e) := .assign name exp
    exact parsed_reduce lexes lexed (shape_simple (.seq left) simple settled)

/-- After the right side of an operator of the lowest level one of a higher level may come;
otherwise the rule of the operator is applied. -/
theorem parsed_right (here : Expecting ((state, value) :: below) before) {op : BinType}
    (above : leastAfter state ≤ op.level) {first second : Exp}
    (left : expGrammar.Stacked (roomAbove below) op.level front first)
    (right : expGrammar.Stacked
      (roomAbove ((afterExp state, .exp first) :: (state, value) :: below)) least after second)
    (higher : op.level + 1 ≤ least)
    (settled : ∀ op : BinType, least < op.level → look ≠ .empty ∧ look ≠ .token op.token)
    (short : below.length < 9996)
    (lexes : Lexes source (before ++ front ++ [op.token] ++ after) place)
    (sees : look.Sees place input) :
    Parsed source (Parser.step ⟨(afterExp op.state, .exp second) :: (op.state, .none) ::
      (afterExp state, .exp first) :: (state, value) :: below, look, input⟩) := by
  have short' : ((op.state, .none) :: (afterExp state, Value.exp first) ::
      (state, value) :: below).length < 9999 := by
    simp only [List.length_cons]
    omega
  have whole : before ++ front ++ [op.token] ++ after =
      before ++ (front ++ op.token :: after) := by
    simp
  have reduced (look' : Lookahead) (input' : List Char) (sees' : look'.Sees place input')
      (settled' : ∀ higher : BinType, op.level < higher.level →
        look' ≠ .empty ∧ look' ≠ .token higher.token) :
      Parsed source (.goes ⟨(afterExp state, .exp (.bin op first second)) :: (state, value) ::
        below, look', input'⟩) := by
    refine ⟨_, place, shape_node here op above left (right.lower higher) (by omega) settled', ?_,
      sees'⟩
    rw [← whole]
    exact lexes
  have shift (op' : BinType) (rest : List Char) (above' : leastAfter op.state ≤ op'.level)
      (lexed : yylex place = some (some op'.token, rest)) :
      Parsed source (.goes ⟨(op'.state, .none) :: (afterExp op.state, .exp second) ::
        (op.state, .none) :: (afterExp state, .exp first) :: (state, value) :: below, .empty,
        rest⟩) :=
    parsed_operator (.operator here op above left) right settled
      (by simpa using lexes) sees op' above' lexed
  have low (level : op.level = 2) (next : Option Token) (rest : List Char)
      (lexed : yylex place = some (next, rest)) (one : next ≠ some .times)
      (two : next ≠ some .slash) :
      Parsed source (.goes ⟨(afterExp state, .exp (.bin op first second)) :: (state, value) ::
        below, .of next, rest⟩) := by
    refine reduced _ rest (Lookahead.sees_of lexed) fun higher' more => ?_
    refine ⟨Lookahead.of_ne_empty next, fun same => ?_⟩
    have found : next = some higher'.token := by
      cases next with
      | none => cases same
      | some token =>
        cases same
        rfl
    cases higher' with
    | times => exact one found
    | div => exact two found
    | _ => exact absurd more (by rw [level]; decide)
  have top (level : op.level = 3) :
      Parsed source (.goes ⟨(afterExp state, .exp (.bin op first second)) :: (state, value) ::
        below, look, input⟩) := by
    refine reduced look input sees fun higher' more => ?_
    exact absurd more (by rw [level]; cases higher' <;> decide)
  obtain ⟨_, _, same, states⟩ := here.top
  cases same
  cases op with
  | add =>
    refine parsed_reads short' (by decide) sees fun next rest lexed => ?_
    have low := low rfl next rest lexed
    rcases next with _ | token
    · fin_cases states <;> exact low nofun nofun
    · cases token with
      | times => exact shift .times rest (by decide) lexed
      | slash => exact shift .div rest (by decide) lexed
      | _ => fin_cases states <;> exact low nofun nofun
  | sub =>
    refine parsed_reads short' (by decide) sees fun next rest lexed => ?_
    have low := low rfl next rest lexed
    rcases next with _ | token
    · fin_cases states <;> exact low nofun nofun
    · cases token with
      | times => exact shift .times rest (by decide) lexed
      | slash => exact shift .div rest (by decide) lexed
      | _ => fin_cases states <;> exact low nofun nofun
  | times =>
    refine parsed_default short' (by decide) ?_
    fin_cases states <;> exact top rfl
  | div =>
    refine parsed_default short' (by decide) ?_
    fin_cases states <;> exact top rfl

theorem parsed_done (here : Expecting ((state, value) :: below) before) {e : Exp}
    (exp : expGrammar.Stacked (roomAbove below) least after e) (higher : leastAfter state ≤ least)
    (settled : ∀ op : BinType, least < op.level → look ≠ .empty ∧ look ≠ .token op.token)
    (short : below.length < 9998) (lexes : Lexes source (before ++ after) place)
    (sees : look.Sees place input) :
    Parsed source (Parser.step
      ⟨(afterExp state, .exp e) :: (state, value) :: below, look, input⟩) := by
  have shift (op : BinType) (rest : List Char) (above : leastAfter state ≤ op.level)
      (lexed : yylex place = some (some op.token, rest)) :=
    parsed_operator here exp settled lexes sees op above lexed
  have short' : ((state, value) :: below).length < 9999 := Nat.succ_lt_succ short
  cases here with
  | assign outer name =>
    refine parsed_reads short' (by decide) sees fun next rest lexed => ?_
    have ended := parsed_assigned outer name (exp.lower higher)
      (by simp only [List.length_cons] at short; omega) lexes lexed
    rcases next with _ | token
    · exact ended nofun
    · cases token with
      | plus => exact shift .add rest (by decide) lexed
      | minus => exact shift .sub rest (by decide) lexed
      | times => exact shift .times rest (by decide) lexed
      | slash => exact shift .div rest (by decide) lexed
      | _ => exact ended fun op => by cases op <;> nofun
  | print outer =>
    refine parsed_reads short' (by decide) sees fun next rest lexed => ?_
    rcases next with _ | token
    · trivial
    · cases token with
      | plus => exact shift .add rest (by decide) lexed
      | minus => exact shift .sub rest (by decide) lexed
      | times => exact shift .times rest (by decide) lexed
      | slash => exact shift .div rest (by decide) lexed
      | rparen => exact parsed_shift lexes lexed (.printed outer (exp.lower higher))
      | _ => trivial
  | brackets here =>
    refine parsed_reads short' (by decide) sees fun next rest lexed => ?_
    rcases next with _ | token
    · trivial
    · cases token with
      | plus => exact shift .add rest (by decide) lexed
      | minus => exact shift .sub rest (by decide) lexed
      | times => exact shift .times rest (by decide) lexed
      | slash => exact shift .div rest (by decide) lexed
      | rparen => exact parsed_shift lexes lexed (.closed here (exp.lower higher))
      | _ => trivial
  | operator here op above left =>
    have level : op.level + 1 ≤ least := by
      cases op <;> exact higher
    exact parsed_right here above left exp level settled
      (by simp only [List.length_cons] at short; omega) lexes sees

/-- Behind a whole program comes a semicolon, or what the parser does not look at. -/
theorem parsed_program {stm : Stm} (program : Program 9998 before stm) (settled : Settled stm look)
    (lexes : Lexes source before place) (sees : look.Sees place input) :
    Parsed source (Parser.step ⟨[(4, .stm stm), (0, .none)], look, input⟩) := by
  refine parsed_reads (by simp) (by decide) sees fun next rest lexed => ?_
  have ended (other : next ≠ some .semicolon) : Parses source stm := by
    refine ⟨before, place, next, rest, lexes, program, lexed, fun token found => ?_⟩
    cases found
    by_contra continues
    have continues := Bool.of_not_eq_false continues
    have operator := stm.isOperator_of_continues (fun same => other (congrArg some same)) continues
    obtain ⟨known, differs⟩ := settled token operator continues
    rcases sees_token sees lexed with same | same
    · exact known same
    · exact differs same
  rcases next with _ | token
  · exact ended nofun
  · cases token with
    | semicolon => exact parsed_shift lexes lexed (.stm (.seq program))
    | _ => exact ended nofun

theorem parsed_of_short
    (parsed : stack.length < 10000 → Parsed source (Parser.step ⟨stack, look, input⟩)) :
    Parsed source (Parser.step ⟨stack, look, input⟩) := by
  by_cases short : stack.length < 10000
  · exact parsed short
  · cases stack with
    | nil => trivial
    | cons top below =>
      rw [Parser.step]
      simp only [if_pos (Nat.le_of_not_lt short)]
      trivial

theorem Shape.step (shape : Shape stack look before) (lexes : Lexes source before place)
    (sees : look.Sees place input) : Parsed source (Parser.step ⟨stack, look, input⟩) := by
  refine parsed_of_short fun short => ?_
  cases shape with
  | stm here => exact parsed_stm here lexes sees
  | name here name => exact parsed_name here name (Nat.lt_of_succ_lt_succ short) lexes sees
  | keyword here => exact parsed_keyword here (Nat.lt_of_succ_lt_succ short) lexes sees
  | exp here =>
    obtain ⟨state, below, rfl, -⟩ := here.top
    exact parsed_exp here (Nat.lt_of_succ_lt_succ short) lexes sees
  | num here num =>
    obtain ⟨state, below, rfl, -⟩ := here.top
    exact parsed_num here num (Nat.lt_of_succ_lt_succ (Nat.lt_of_succ_lt_succ short)) lexes sees
  | var here name =>
    obtain ⟨state, below, rfl, -⟩ := here.top
    exact parsed_var here name (Nat.lt_of_succ_lt_succ (Nat.lt_of_succ_lt_succ short)) lexes sees
  | done here exp higher settled =>
    exact parsed_done here exp higher settled
      (Nat.lt_of_succ_lt_succ (Nat.lt_of_succ_lt_succ short)) lexes sees
  | closed here exp =>
    obtain ⟨state, below, rfl, -⟩ := here.top
    simp only [List.length_cons] at short
    exact parsed_closed here exp (by omega) lexes sees
  | printed here exp => exact parsed_printed here exp lexes sees
  | second left right settled =>
    have program := Program.seq left right
    refine ⟨_, place, .program program settled, ?_, sees⟩
    simpa using lexes
  | program program settled => exact parsed_program program settled lexes sees

end Steps

theorem Parsed.run (fuel : Nat) {parser : Parser} (parsed : Parsed source (.goes parser)) :
    Parsed source (parser.run fuel) := by
  induction fuel generalizing parser with
  | zero => exact parsed
  | succ fuel ih =>
    obtain ⟨before, place, shape, lexes, sees⟩ := parsed
    have stepped := shape.step lexes sees
    rw [Parser.run]
    cases outcome : parser.step with
    | goes next =>
      rw [outcome] at stepped
      exact ih stepped
    | accepted root => rwa [outcome] at stepped
    | error => trivial

theorem parsed_start (source : List Char) : Parsed source (.goes (.start source)) :=
  ⟨[], source, .stm .start, .nil, rfl⟩

theorem parses_of_accepts (accepts : Accepts source root) : Parses source root := by
  obtain ⟨fuel, ends⟩ := accepts
  have parsed := (parsed_start source).run fuel
  rwa [ends] at parsed

end CssLab.Mcc
