import Mathlib.Data.List.Perm.Basic

namespace CssLab.Lifo

inductive Commit (Value : Type*)
  | push (value : Value)
  | pop

/-- The stack after one more operation. A pop of the empty stack does nothing. -/
def Commit.apply (stack : List Value) : Commit Value → List Value
  | .push value => value :: stack
  | .pop => stack.tail

/-- The stack that operations, in this order, make of the empty one. -/
def replay (commits : List (Commit Value)) : List Value := commits.foldl Commit.apply []

def pushed (commits : List (Commit Value)) : List Value :=
  commits.filterMap fun
    | .push value => some value
    | .pop => none

/-- What the pops among the operations return, the first one first. -/
def popped (stack : List Value) : List (Commit Value) → List Value
  | [] => []
  | .push value :: rest => popped (value :: stack) rest
  | .pop :: rest => stack.head?.toList ++ popped stack.tail rest

@[simp] theorem replay_push (commits : List (Commit Value)) (value : Value) :
    replay (commits ++ [.push value]) = value :: replay commits := by
  simp [replay, Commit.apply]

@[simp] theorem replay_pop (commits : List (Commit Value)) :
    replay (commits ++ [.pop]) = (replay commits).tail := by
  simp [replay, Commit.apply]

private theorem conserved_from (commits : List (Commit Value)) (stack : List Value) :
    (pushed commits ++ stack).Perm (popped stack commits ++ commits.foldl Commit.apply stack) := by
  induction commits generalizing stack with
  | nil => exact .refl _
  | cons commit rest ih =>
    cases commit with
    | push value =>
      exact List.perm_middle.symm.trans (ih (value :: stack))
    | pop =>
      cases stack with
      | nil => exact ih []
      | cons value stack => exact List.perm_middle.trans ((ih stack).cons value)

/-- What was pushed has been popped or is still there, as often as it was pushed. -/
theorem conserved (commits : List (Commit Value)) :
    (pushed commits).Perm (popped [] commits ++ replay commits) := by
  simpa [replay] using conserved_from commits []

end CssLab.Lifo
