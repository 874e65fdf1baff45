import CssLab.Lib.ShiftReduce
import CssLab.Mcc.Scanner
import CssLab.Mcc.Print

/-! The programs of the rules of parser.y, and how far `yyparse` reads a text for one. -/

namespace CssLab.Mcc

/-- A statement without a semicolon, with room for so many symbols on the stack. -/
inductive Simple : Nat → List Token → Stm → Prop
  | assign (name : String) (exp : expGrammar.Stacked room 0 tokens e) :
      Simple (room + 2) (.var name :: .equals :: tokens) (.assign name e)
  | print (exp : expGrammar.Stacked (room + 2) 0 tokens e) :
      Simple (room + 4) (.print :: .lparen :: (tokens ++ [.rparen])) (.print e)

/-- Statements group to the left. -/
inductive Program : Nat → List Token → Stm → Prop
  | simple (simple : Simple room tokens stm) : Program room tokens stm
  | seq (left : Program (room + 2) before first) (right : Simple room after second) :
      Program (room + 2) (before ++ .semicolon :: after) (.seq first second)

theorem Simple.ne_nil (simple : Simple room tokens stm) : tokens ≠ [] := by
  cases simple with
  | assign name exp => exact List.cons_ne_nil _ _
  | print exp => exact List.cons_ne_nil _ _

/-- The first tokens of a text, and what stands behind them. -/
inductive Lexes : List Char → List Token → List Char → Prop
  | nil : Lexes input [] input
  | cons (first : yylex input = some (some token, rest)) (more : Lexes rest tokens after) :
      Lexes input (token :: tokens) after

theorem Lexes.append (front : Lexes input before middle) (back : Lexes middle after rest) :
    Lexes input (before ++ after) rest := by
  induction front with
  | nil => exact back
  | cons first more ih => exact .cons first (ih back)

theorem Lexes.split {before after : List Token} (lexes : Lexes input (before ++ after) rest) :
    ∃ middle, Lexes input before middle ∧ Lexes middle after rest := by
  induction before generalizing input with
  | nil => exact ⟨input, .nil, lexes⟩
  | cons token before ih =>
    cases lexes with
    | cons first more =>
      obtain ⟨middle, front, back⟩ := ih more
      exact ⟨middle, .cons first front, back⟩

theorem Lexes.single (first : yylex input = some (some token, rest)) : Lexes input [token] rest :=
  .cons first .nil

def Token.isOperator : Token → Bool
  | .plus | .minus | .times | .slash => true
  | _ => false

/-- The tokens behind a statement that the parser takes for a part of it. -/
def Stm.continues : Stm → Token → Bool
  | .assign _ _, token => token.isOperator || token == .semicolon
  | .print _, token => token == .semicolon
  | .seq _ right, token => right.continues token

theorem Stm.continues_semicolon (stm : Stm) : stm.continues .semicolon = true := by
  induction stm with
  | assign name e => rfl
  | print e => rfl
  | seq left right first second => exact second

theorem Stm.isOperator_of_continues (stm : Stm) {token : Token} (other : token ≠ .semicolon)
    (continues : stm.continues token = true) : token.isOperator = true := by
  induction stm with
  | assign name e =>
    exact (Bool.or_eq_true_iff.mp continues).resolve_right fun same => other (beq_iff_eq.mp same)
  | print e => exact absurd (beq_iff_eq.mp continues) other
  | seq left right first second => exact second continues

/-- A text starts with the tokens of a program for which the stack of `yyparse` has room; the
next token is no part of it, and may be anything else. -/
def Parses (source : List Char) (root : Stm) : Prop :=
  ∃ tokens rest next after, Lexes source tokens rest ∧ Program 9998 tokens root ∧
    yylex rest = some (next, after) ∧ ∀ token ∈ next, root.continues token = false

/-- `yyparse` leaves with an error, of its own or of the scanner. -/
def Rejects (source : List Char) : Prop := ∃ fuel, (Parser.start source).run fuel = .error

/-- The place in the input that a lookahead stands for. -/
def Lookahead.Sees : Lookahead → List Char → List Char → Prop
  | .empty, place, input => place = input
  | .eof, place, input => yylex place = some (none, input)
  | .token first, place, input => yylex place = some (some first, input)

/-- What is read there. -/
def Lookahead.of : Option Token → Lookahead
  | none => .eof
  | some first => .token first

theorem Lookahead.of_ne_empty (next : Option Token) : Lookahead.of next ≠ .empty := by
  cases next <;> nofun

theorem Lookahead.sees_of (lexed : yylex place = some (next, rest)) :
    (Lookahead.of next).Sees place rest := by
  cases next with
  | none => exact lexed
  | some token => exact lexed

theorem read_of_sees {look : Lookahead} (stack : List (Nat × Value))
    (sees : look.Sees place input) :
    Parser.read ⟨stack, look, input⟩ =
      (yylex place).map fun next => ⟨stack, .of next.1, next.2⟩ := by
  cases look with
  | empty =>
    cases sees
    rw [Parser.read]
    cases found : yylex place with
    | none => rfl
    | some next =>
      obtain ⟨token, rest⟩ := next
      cases token <;> rfl
  | eof =>
    change yylex place = _ at sees
    rw [sees]
    rfl
  | token token =>
    change yylex place = _ at sees
    rw [sees]
    rfl

section Steps

variable {state : Nat} {value : Value} {below : List (Nat × Value)} {look : Lookahead}
  {place input : List Char}

/-- A step of a state in which the next token decides. -/
theorem step_of_sees (short : below.length < 9999) (reads : yypact.getD state 0 ≠ -8)
    (sees : look.Sees place input) :
    Parser.step ⟨(state, value) :: below, look, input⟩ =
      match yylex place with
      | none => .error
      | some (next, rest) => Parser.decide state ⟨(state, value) :: below, .of next, rest⟩ := by
  have room : ¬10000 ≤ ((state, value) :: below).length := by
    rw [List.length_cons]
    omega
  rw [Parser.step]
  simp only [room, if_false]
  rw [Parser.yybackup, if_neg reads, read_of_sees _ sees]
  cases yylex place with
  | none => rfl
  | some next => rfl

theorem step_of_lexed (short : below.length < 9999) (reads : yypact.getD state 0 ≠ -8)
    (sees : look.Sees place input) (lexed : yylex place = some (next, rest)) :
    Parser.step ⟨(state, value) :: below, look, input⟩ =
      Parser.decide state ⟨(state, value) :: below, .of next, rest⟩ := by
  rw [step_of_sees short reads sees, lexed]

/-- A step of a state that has nothing to decide. -/
theorem step_of_default (short : below.length < 9999) (reduces : yypact.getD state 0 = -8) :
    Parser.step ⟨(state, value) :: below, look, input⟩ =
      Parser.yydefault state ⟨(state, value) :: below, look, input⟩ := by
  have room : ¬10000 ≤ ((state, value) :: below).length := by
    rw [List.length_cons]
    omega
  rw [Parser.step]
  simp only [room, if_false]
  rw [Parser.yybackup, if_pos reduces]

end Steps

/-- The state after an expression that stands after a state. -/
def afterExp : Nat → Nat
  | 5 => 12
  | 6 => 13
  | 11 => 15
  | 16 => 22
  | 17 => 23
  | 18 => 24
  | _ => 25

/-- The state after an operator. -/
def BinType.state : BinType → Nat
  | .add => 16
  | .sub => 17
  | .times => 18
  | .div => 19

/-- The operators of an expression after a state are of this level at least. -/
def leastAfter : Nat → Nat
  | 16 | 17 => 3
  | 18 | 19 => 4
  | _ => 0

/-- The states after which an expression is next. -/
def beforeExp : List Nat := [5, 6, 11, 16, 17, 18, 19]

/-- The state after a statement that stands after a state. -/
def afterStm : Nat → Nat
  | 0 => 4
  | _ => 14

end CssLab.Mcc
