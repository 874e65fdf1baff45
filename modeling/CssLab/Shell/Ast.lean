namespace CssLab.Shell

/-- The `flag` of a redirection, 1 for `'>'` and 2 for `'<'`. -/
inductive Flag
  | output
  | input
  deriving DecidableEq, Repr

/-- `Cmd_t`; the list of words of an atom, its `node`, is not empty. -/
inductive Cmd
  | atom (word : String) (args : List String)
  | back (back : Cmd)
  | pipe (left right : Cmd)
  | redir (left right : Cmd) (flag : Flag)
  | seq (left right : Cmd)
  deriving DecidableEq, Repr

def Cmd.isAtom : Cmd → Bool
  | .atom _ _ => true
  | _ => false

/-- Every redirection has an atom on its right, which `Cmd_run` casts it to. -/
def Cmd.castable : Cmd → Bool
  | .atom _ _ => true
  | .back command => command.castable
  | .pipe left right => left.castable && right.castable
  | .redir left right _ => left.castable && right.isAtom
  | .seq left right => left.castable && right.castable

end CssLab.Shell
