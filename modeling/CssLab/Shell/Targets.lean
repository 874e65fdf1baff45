import CssLab.Shell.Grammar

namespace CssLab.Shell

/-- Words, if any, and then `'&'`. -/
def wordsThenBackground : List Token → Bool
  | .arg _ :: rest => wordsThenBackground rest
  | .ampersand :: _ => true
  | _ => false

/-- A redirection has a target that is followed by `'&'`. -/
def backgroundTarget : List Token → Bool
  | [] => false
  | .greater :: rest => wordsThenBackground rest || backgroundTarget rest
  | .less :: rest => wordsThenBackground rest || backgroundTarget rest
  | _ :: rest => backgroundTarget rest

theorem wordsThenBackground_words (words : List String) (rest : List Token) :
    wordsThenBackground (words.map .arg ++ rest) = wordsThenBackground rest := by
  induction words with
  | nil => rfl
  | cons word words ih => exact ih

theorem backgroundTarget_words (words : List String) (rest : List Token) :
    backgroundTarget (words.map .arg ++ rest) = backgroundTarget rest := by
  induction words with
  | nil => rfl
  | cons word words ih => exact ih

theorem Basic.wordsThenBackground {line : List Token} {cmd : Cmd} (basic : Basic line cmd)
    (rest : List Token) :
    wordsThenBackground (line ++ rest) = (!cmd.isAtom || wordsThenBackground rest) := by
  induction basic generalizing rest with
  | atom word args => exact wordsThenBackground_words args rest
  | back basic ih =>
    rw [List.append_assoc, ih]
    exact Bool.or_true _

theorem Basic.backgroundTarget {line : List Token} {cmd : Cmd} (basic : Basic line cmd)
    (rest : List Token) : backgroundTarget (line ++ rest) = backgroundTarget rest := by
  induction basic generalizing rest with
  | atom word args => exact backgroundTarget_words args rest
  | back basic ih =>
    rw [List.append_assoc, ih]
    rfl

theorem Basic.castable {line : List Token} {cmd : Cmd} (basic : Basic line cmd) :
    cmd.castable := by
  induction basic with
  | atom word args => rfl
  | back basic ih => exact ih

theorem Redirected.castable {line : List Token} {cmd : Cmd} (redirected : Redirected line cmd)
    {rest : List Token} (ends : wordsThenBackground rest = false) :
    Shell.backgroundTarget (line ++ rest) = (!cmd.castable || Shell.backgroundTarget rest) := by
  induction redirected generalizing rest with
  | basic basic => rw [basic.backgroundTarget, basic.castable, Bool.not_true, Bool.false_or]
  | @redir before cmd target cmd' left flag right ih =>
    have last : Shell.backgroundTarget (flag.token :: target ++ rest) =
        (!cmd'.isAtom || Shell.backgroundTarget rest) := by
      have scan : Shell.backgroundTarget (flag.token :: target ++ rest) =
          (Shell.wordsThenBackground (target ++ rest) ||
            Shell.backgroundTarget (target ++ rest)) := by
        cases flag <;> rfl
      rw [scan, right.wordsThenBackground, right.backgroundTarget, ends, Bool.or_false]
    rw [List.append_assoc, ih (by cases flag <;> rfl), last, Cmd.castable, Bool.not_and,
      Bool.or_assoc]

theorem Joined.castable {line : List Token} {cmd : Cmd} (joined : Joined line cmd)
    {rest : List Token} (ends : wordsThenBackground rest = false) :
    backgroundTarget (line ++ rest) = (!cmd.castable || backgroundTarget rest) := by
  induction joined generalizing rest with
  | redirected redirected => exact redirected.castable ends
  | @join before cmd after cmd' left joint right ih =>
    have last : backgroundTarget (joint.token :: after ++ rest) =
        (!cmd'.castable || backgroundTarget rest) := by
      have scan : backgroundTarget (joint.token :: after ++ rest) =
          backgroundTarget (after ++ rest) := by
        cases joint <;> rfl
      rw [scan, right.castable ends]
    have both : (joint.cmd cmd cmd').castable = (cmd.castable && cmd'.castable) := by
      cases joint <;> rfl
    rw [List.append_assoc, ih (by cases joint <;> rfl), last, both, Bool.not_and, Bool.or_assoc]

/-- The targets of a line are atoms exactly if none of them is followed by `'&'`. -/
theorem castable_iff (tokens : List Token) (cmd : Cmd) (accepts : Accepts tokens (some cmd)) :
    cmd.castable ↔ backgroundTarget (tokens.takeWhile (· ≠ .newline)) = false := by
  obtain ⟨line, after, joined, rfl⟩ := joined_of_accepts accepts
  have scanned : backgroundTarget (line ++ []) = (!cmd.castable || false) := joined.castable rfl
  rw [List.append_nil, Bool.or_false] at scanned
  rw [takeWhile_newline joined.no_newline, scanned, Bool.not_eq_false']

theorem castable_iff_background :
    Cmd.castable (.seq (.redir (.atom "a" []) (.atom "b" []) .output) (.back (.atom "c" []))) ↔
      backgroundTarget [.arg "a", .greater, .arg "b", .semicolon, .arg "c", .ampersand] = false :=
  castable_iff [.arg "a", .greater, .arg "b", .semicolon, .arg "c", .ampersand, .newline] _
    ⟨30, rfl⟩

/-- In `a > b &` the `'&'` belongs to the target. -/
theorem target_in_background :
    ¬∀ tokens cmd, Accepts tokens (some cmd) → cmd.castable := by
  intro always
  have accepts : Accepts [.arg "a", .greater, .arg "b", .ampersand, .newline]
      (some (.redir (.atom "a" []) (.back (.atom "b" [])) .output)) := ⟨30, rfl⟩
  cases always _ _ accepts

end CssLab.Shell
