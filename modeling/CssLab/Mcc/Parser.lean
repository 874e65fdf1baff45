import CssLab.Mcc.Ast
import Mathlib.Algebra.Group.Nat.Defs
import Mathlib.Data.List.Basic

/-! The front end of mcc: `yylex` of scanner.l, and `yyparse` with the tables that
bison made of parser.y. -/

namespace CssLab.Mcc

/-- What `yylex` returns, other than the end of its input. -/
inductive Token where
  | var (name : String)
  | num (num : BitVec 32)
  | print
  | semicolon
  | plus
  | minus
  | times
  | slash
  | equals
  | lparen
  | rparen
  deriving DecidableEq, Repr

def isDigit (char : Char) : Bool := '0' ≤ char && char ≤ '9'

def isAlpha (char : Char) : Bool :=
  ('a' ≤ char && char ≤ 'z') || ('A' ≤ char && char ≤ 'Z') || char == '_'

def isBlank (char : Char) : Bool := char == ' ' || char == '\t' || char == '\r' || char == '\n'

/-- `atoi` of a string of digits: the `long` of `strtol`, cut to an `int`. -/
def atoi (digits : List Char) : BitVec 32 :=
  let value := digits.foldl (fun value digit => 10 * value + (digit.toNat - 48)) 0
  BitVec.ofNat 32 (min value (2 ^ 63 - 1))

/-- The tokens of one character. -/
def punctuation : Char → Option Token
  | '+' => some .plus
  | '-' => some .minus
  | '*' => some .times
  | '/' => some .slash
  | '=' => some .equals
  | '(' => some .lparen
  | ')' => some .rparen
  | ';' => some .semicolon
  | _ => none

/-- `yylex`: the next token, or none at the end, and the input after it. It exits at a
character that starts no token. `print` is the keyword only as a whole word. -/
def yylex (input : List Char) : Option (Option Token × List Char) :=
  match input.dropWhile isBlank with
  | [] => some (none, [])
  | char :: rest =>
    if isAlpha char then
      let word := char :: rest.takeWhile fun next => isAlpha next || isDigit next
      let after := rest.dropWhile fun next => isAlpha next || isDigit next
      let token := if word = ['p', 'r', 'i', 'n', 't'] then .print else .var (String.ofList word)
      some (some token, after)
    else if isDigit char then
      some (some (.num (atoi (char :: rest.takeWhile isDigit))), rest.dropWhile isDigit)
    else (punctuation char).map fun token => (some token, rest)

/-- The lookahead, `yychar`. -/
inductive Lookahead where
  | empty
  | eof
  | token (token : Token)
  deriving DecidableEq, Repr

/-- `YYTRANSLATE(yychar)`. -/
def Lookahead.yytoken : Lookahead → Int
  | .empty => -2
  | .eof => 0
  | .token (.var _) => 3
  | .token (.num _) => 4
  | .token .print => 5
  | .token .semicolon => 7
  | .token .plus => 8
  | .token .minus => 9
  | .token .times => 10
  | .token .slash => 11
  | .token .equals => 12
  | .token .lparen => 13
  | .token .rparen => 14

def yypact : List Int :=
  [26, 2, 8, 15, 21, 3, 3, -8, 26, -8, -8, 3, -7, 9, -8, 16, 3, 3, 3, 3, -8, -8, -2, -2, -8, -8]

def yydefact : List Nat :=
  [0, 0, 0, 0, 2, 0, 0, 1, 0, 7, 6, 0, 3, 0, 5, 0, 0, 0, 0, 0, 4, 12, 8, 9, 10, 11]

def yypgoto : List Int := [-8, -8, 14, -6]

def yydefgoto : List Int := [-1, 3, 4, 12]

def yytable : List Nat :=
  [13, 16, 17, 18, 19, 15, 9, 10, 18, 19, 22, 23, 24, 25, 5, 7, 11, 16, 17, 18, 19, 6, 14, 20,
    16, 17, 18, 19, 8, 1, 21, 2]

def yycheck : List Int :=
  [6, 8, 9, 10, 11, 11, 3, 4, 10, 11, 16, 17, 18, 19, 12, 0, 13, 8, 9, 10, 11, 13, 8, 14,
    8, 9, 10, 11, 7, 3, 14, 5]

def yyr1 : List Nat := [0, 15, 16, 17, 17, 17, 18, 18, 18, 18, 18, 18, 18]

def yyr2 : List Nat := [0, 2, 1, 3, 4, 3, 1, 1, 3, 3, 3, 3, 3]

/-- A semantic value; tokens without one leave the last in `yylval`, which no rule reads. -/
inductive Value where
  | none
  | num (num : BitVec 32)
  | var (name : String)
  | stm (stm : Stm)
  | exp (exp : Exp)
  deriving DecidableEq, Repr

/-- The action of a rule on the values of its right side, the last one first. -/
def ruleAction : Nat → List Value → Option Value
  | 3, [.exp exp, _, .var name] => some (.stm (.assign name exp))
  | 4, [_, .exp exp, _, _] => some (.stm (.print exp))
  | 5, [.stm right, _, .stm left] => some (.stm (.seq left right))
  | 6, [.num num] => some (.exp (.num num))
  | 7, [.var name] => some (.exp (.var name))
  | 8, [.exp right, _, .exp left] => some (.exp (.bin .add left right))
  | 9, [.exp right, _, .exp left] => some (.exp (.bin .sub left right))
  | 10, [.exp right, _, .exp left] => some (.exp (.bin .times left right))
  | 11, [.exp right, _, .exp left] => some (.exp (.bin .div left right))
  | 12, [_, .exp exp, _] => some (.exp exp)
  | _, _ => none

/-- The states and values on the stack, the top first, the lookahead and the input. -/
structure Parser where
  stack : List (Nat × Value)
  look : Lookahead
  input : List Char
  deriving DecidableEq, Repr

/-- What a step comes to; an accepted program is in `root`. An error, of the scanner or
of the parser, exits. -/
inductive Outcome where
  | goes (parser : Parser)
  | accepted (root : Stm)
  | error
  deriving DecidableEq, Repr

def Parser.start (source : List Char) : Parser := ⟨[(0, .none)], .empty, source⟩

/-- A lookahead token is read if there is none. -/
def Parser.read (parser : Parser) : Option Parser :=
  match parser.look with
  | .empty =>
    match yylex parser.input with
    | none => none
    | some (none, input) => some { parser with look := .eof, input }
    | some (some token, input) => some { parser with look := .token token, input }
  | _ => some parser

/-- `yyreduce`; the action of the rule for a program returns. -/
def Parser.yyreduce (rule : Nat) (parser : Parser) : Outcome :=
  match rule, parser.stack with
  | 2, (_, .stm root) :: _ => .accepted root
  | _, _ =>
    let yylen := yyr2.getD rule 0
    match ruleAction rule ((parser.stack.take yylen).map Prod.snd), parser.stack.drop yylen with
    | some yyval, (state, value) :: below =>
      let yylhs := yyr1.getD rule 0 - 15
      let yyi := yypgoto.getD yylhs 0 + state
      let next :=
        if 0 ≤ yyi ∧ yyi ≤ 31 ∧ yycheck.getD yyi.toNat 0 = state then yytable.getD yyi.toNat 0
        else (yydefgoto.getD yylhs 0).toNat
      .goes { parser with stack := (next, yyval) :: (state, value) :: below }
    | _, _ => .error

def Parser.yydefault (state : Nat) (parser : Parser) : Outcome :=
  match yydefact.getD state 0 with
  | 0 => .error
  | rule => parser.yyreduce rule

/-- The value that `yylex` leaves in `yylval`. -/
def Lookahead.yylval : Lookahead → Value
  | .token (.var name) => .var name
  | .token (.num num) => .num num
  | _ => .none

/-- What the lookahead decides. No entry of `yytable` is a reduction. -/
def Parser.decide (state : Nat) (parser : Parser) : Outcome :=
  let yyn := yypact.getD state 0 + parser.look.yytoken
  if yyn < 0 ∨ 31 < yyn ∨ yycheck.getD yyn.toNat 0 ≠ parser.look.yytoken then
    parser.yydefault state
  else
    .goes { parser with
      stack := (yytable.getD yyn.toNat 0, parser.look.yylval) :: parser.stack
      look := .empty }

def Parser.yybackup (state : Nat) (parser : Parser) : Outcome :=
  if yypact.getD state 0 = -8 then parser.yydefault state
  else
    match parser.read with
    | none => .error
    | some parser => parser.decide state

/-- From `yysetstate` to the next push of a state. -/
def Parser.step (parser : Parser) : Outcome :=
  match parser.stack with
  | [] => .error
  | (state, _) :: _ =>
    -- `YYMAXDEPTH`
    if 10000 ≤ parser.stack.length then .error else parser.yybackup state

/-- The outcome of a number of steps at most. -/
def Parser.run : Nat → Parser → Outcome
  | 0, parser => .goes parser
  | fuel + 1, parser =>
    match parser.step with
    | .goes next => next.run fuel
    | outcome => outcome

/-- `yyparse` returns 0 on this text and leaves this program in `root`. -/
def Accepts (source : List Char) (root : Stm) : Prop :=
  ∃ fuel, (Parser.start source).run fuel = .accepted root

end CssLab.Mcc
