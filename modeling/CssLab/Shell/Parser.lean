import CssLab.Shell.Ast
import Mathlib.Data.List.Basic

/-! `yyparse` of the shell, with the tables that bison made for its grammar. -/

namespace CssLab.Shell

/-- What `yylex` returns, other than the end of its input. -/
inductive Token
  | arg (word : String)
  | bar
  | semicolon
  | greater
  | less
  | ampersand
  | newline
  deriving DecidableEq, Repr

/-- The lookahead, `yychar`. -/
inductive Lookahead
  | empty
  | eof
  | token (token : Token)
  deriving DecidableEq, Repr

/-- `YYTRANSLATE(yychar)`. -/
def Lookahead.yytoken : Lookahead → Int
  | .empty => -2
  | .eof => 0
  | .token (.arg _) => 3
  | .token .bar => 4
  | .token .semicolon => 5
  | .token .greater => 6
  | .token .less => 7
  | .token .ampersand => 8
  | .token .newline => 9

def yypact : List Int :=
  [-3, 2, -9, 16, 3, -9, 2, -9, -9, 14, 14, 14, 14, -9, -9, -9, 7, 7, 10, 10]

def yydefact : List Nat := [0, 12, 3, 0, 0, 4, 12, 10, 1, 0, 0, 0, 0, 6, 2, 11, 7, 5, 8, 9]

def yypgoto : List Int := [-9, -9, -8, -9, 13]

def yydefgoto : List Int := [-1, 3, 4, 5, 7]

def yytable : List Nat := [1, 16, 17, 18, 19, 6, 2, 9, 10, 11, 12, 13, 14, 11, 12, 13, 8, 1, 13, 15]

def yycheck : List Int := [3, 9, 10, 11, 12, 3, 9, 4, 5, 6, 7, 8, 9, 6, 7, 8, 0, 3, 8, 6]

def yyr1 : List Nat := [0, 10, 11, 11, 12, 12, 12, 12, 12, 12, 13, 14, 14]

def yyr2 : List Nat := [0, 2, 2, 1, 1, 3, 2, 3, 3, 3, 2, 2, 0]

/-- A semantic value; tokens other than words have none. -/
inductive Value
  | none
  | id (word : String)
  | node (words : List String)
  | cmd (cmd : Cmd)
  deriving DecidableEq, Repr

/-- The action of a rule on the values of its right side, the last one first. -/
def ruleAction : Nat → List Value → Option Value
  | 4, [.cmd command] => some (.cmd command)
  | 5, [.cmd right, _, .cmd left] => some (.cmd (.seq left right))
  | 6, [_, .cmd command] => some (.cmd (.back command))
  | 7, [.cmd right, _, .cmd left] => some (.cmd (.pipe left right))
  | 8, [.cmd right, _, .cmd left] => some (.cmd (.redir left right .output))
  | 9, [.cmd right, _, .cmd left] => some (.cmd (.redir left right .input))
  | 10, [.node args, .id word] => some (.cmd (.atom word args))
  | 11, [.node args, .id word] => some (.node (word :: args))
  | 12, [] => some (.node [])
  | _, _ => none

/-- The states and values on the stack, the top first, the lookahead and what
`yylex` will return. -/
structure Parser where
  stack : List (Nat × Value)
  look : Lookahead
  rest : List Token
  deriving DecidableEq, Repr

/-- What a step comes to; an accepted line leaves its command in `root`. -/
inductive Outcome
  | goes (parser : Parser)
  | accepted (root : Option Cmd)
  | error
  deriving DecidableEq, Repr

def Parser.start (tokens : List Token) : Parser := ⟨[(0, .none)], .empty, tokens⟩

/-- A lookahead token is read if there is none. -/
def Parser.read (parser : Parser) : Parser :=
  match parser.look with
  | .empty =>
    match parser.rest with
    | [] => { parser with look := .eof }
    | token :: rest => { parser with look := .token token, rest }
  | _ => parser

/-- `yyreduce`; the actions of the rules for a whole line return. -/
def Parser.yyreduce (rule : Nat) (parser : Parser) : Outcome :=
  match rule, parser.stack with
  | 2, _ :: (_, .cmd command) :: _ => .accepted (some command)
  | 3, _ => .accepted none
  | _, _ =>
    let yylen := yyr2.getD rule 0
    match ruleAction rule ((parser.stack.take yylen).map Prod.snd), parser.stack.drop yylen with
    | some yyval, (state, value) :: below =>
      let yylhs := yyr1.getD rule 0 - 10
      let yyi := yypgoto.getD yylhs 0 + state
      let next :=
        if 0 ≤ yyi ∧ yyi ≤ 19 ∧ yycheck.getD yyi.toNat 0 = state then yytable.getD yyi.toNat 0
        else (yydefgoto.getD yylhs 0).toNat
      .goes { parser with stack := (next, yyval) :: (state, value) :: below }
    | _, _ => .error

def Parser.yydefault (state : Nat) (parser : Parser) : Outcome :=
  match yydefact.getD state 0 with
  | 0 => .error
  | rule => parser.yyreduce rule

/-- The value that `yylex` leaves in `yylval`. -/
def Lookahead.yylval : Lookahead → Value
  | .token (.arg word) => .id word
  | _ => .none

/-- What the lookahead decides. No entry of `yytable` is a reduction. -/
def Parser.decide (state : Nat) (parser : Parser) : Outcome :=
  let yyn := yypact.getD state 0 + parser.look.yytoken
  if yyn < 0 ∨ 19 < yyn ∨ yycheck.getD yyn.toNat 0 ≠ parser.look.yytoken then
    parser.yydefault state
  else
    .goes { parser with
      stack := (yytable.getD yyn.toNat 0, parser.look.yylval) :: parser.stack
      look := .empty }

def Parser.yybackup (state : Nat) (parser : Parser) : Outcome :=
  if yypact.getD state 0 = -9 then parser.yydefault state else parser.read.decide state

/-- From `yysetstate` to the next push of a state. -/
def Parser.step (parser : Parser) : Outcome :=
  match parser.stack with
  | [] => .error
  | (state, _) :: _ =>
    -- `YYMAXDEPTH`
    if 10000 ≤ parser.stack.length then .error else parser.yybackup state

/-- The outcome of a number of steps at most. -/
def Parser.run : Nat → Parser → Outcome
  | 0, parser => .goes parser
  | fuel + 1, parser =>
    match parser.step with
    | .goes next => next.run fuel
    | outcome => outcome

/-- `yyparse` accepts a line and leaves this in `root`. -/
def Accepts (tokens : List Token) (root : Option Cmd) : Prop :=
  ∃ fuel, (Parser.start tokens).run fuel = .accepted root

end CssLab.Shell
