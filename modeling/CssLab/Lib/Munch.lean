import Mathlib.Data.List.Basic

/-! Scanners that are given by rules: of all rules the one with the longest match is taken,
of several with that match the first. -/

namespace CssLab.Munch

/-- What is done with a match. -/
inductive Act (Token : Type)
  | token (token : Token)
  | skip
  | fail

/-- The words that a rule accepts, and what it does with them. -/
structure Rule (Symbol Token : Type) where
  accepts : List Symbol → Bool
  act : List Symbol → Act Token

variable {Symbol Token : Type} (rules : List (Rule Symbol Token))

/-- The first rule that accepts a word. -/
def first (word : List Symbol) : Option (Rule Symbol Token) :=
  rules.find? fun rule => rule.accepts word

/-- The longest match of an input with so many symbols at most, and one at least. -/
def longest (input : List Symbol) : Nat → Option (Nat × Rule Symbol Token)
  | 0 => none
  | length + 1 =>
    match first rules (input.take (length + 1)) with
    | some rule => some (length + 1, rule)
    | none => longest input length

/-- The tokens of an input; each round takes at least one symbol of it. -/
def scanWith : Nat → List Symbol → Option (List Token)
  | 0, _ => none
  | fuel + 1, input =>
    if input.isEmpty then some []
    else
      match longest rules input input.length with
      | none => none
      | some (length, rule) =>
        match rule.act (input.take length) with
        | .token token => (scanWith fuel (input.drop length)).map (token :: ·)
        | .skip => scanWith fuel (input.drop length)
        | .fail => none

def scan (input : List Symbol) : Option (List Token) := scanWith rules (input.length + 1) input

/-- A rule takes a word from before the rest of an input. -/
structure Takes (word rest : List Symbol) (rule : Rule Symbol Token) : Prop where
  nonempty : word ≠ []
  chosen : first rules word = some rule
  maximal : ∀ more, more ≠ [] → more <+: rest → first rules (word ++ more) = none

variable {rules}

theorem Takes.longest_eq (takes : Takes rules word rest rule) (more : Nat)
    (within : more ≤ rest.length) :
    longest rules (word ++ rest) (word.length + more) = some (word.length, rule) := by
  induction more with
  | zero =>
    obtain ⟨length, size⟩ := Nat.exists_eq_add_one_of_ne_zero
      (mt List.length_eq_zero_iff.mp takes.nonempty)
    rw [Nat.add_zero, size, longest, ← size, List.take_left, takes.chosen]
  | succ more ih =>
    have some : rest.take (more + 1) ≠ [] := by
      intro none
      have length := congrArg List.length none
      rw [List.length_take, List.length_nil] at length
      omega
    have none := takes.maximal _ some (List.take_prefix _ _)
    rw [← Nat.add_assoc, longest, Nat.add_assoc, List.take_length_add_append, none]
    exact ih (Nat.le_of_succ_le within)

theorem Takes.scanWith_eq (takes : Takes rules word rest rule) (fuel : Nat) :
    scanWith rules (fuel + 1) (word ++ rest) =
      match rule.act word with
      | .token token => (scanWith rules fuel rest).map (token :: ·)
      | .skip => scanWith rules fuel rest
      | .fail => none := by
  have some : (word ++ rest).isEmpty = false := by
    simp [takes.nonempty]
  rw [scanWith, some, List.length_append, takes.longest_eq _ (Nat.le_refl _)]
  simp only [List.take_left, List.drop_left]
  rfl

theorem longest_pos {input : List Symbol} {size length : Nat}
    (found : longest rules input size = some (length, rule)) : 0 < length := by
  induction size with
  | zero => cases found
  | succ size ih =>
    rw [longest] at found
    split at found
    · cases found
      exact Nat.succ_pos size
    · exact ih found

theorem scanWith_congr (enough : input.length < fuel) (enough' : input.length < fuel') :
    scanWith rules fuel input = scanWith rules fuel' input := by
  induction fuel generalizing input fuel' with
  | zero => exact absurd enough (Nat.not_lt_zero _)
  | succ fuel ih =>
    obtain ⟨fuel', rfl⟩ := Nat.exists_eq_add_one_of_ne_zero (Nat.ne_zero_of_lt enough')
    rw [scanWith, scanWith]
    cases some : input.isEmpty with
    | true => rfl
    | false =>
      cases found : longest rules input input.length with
      | none => rfl
      | some found' =>
        obtain ⟨length, rule⟩ := found'
        have positive := longest_pos found
        have nonempty : input ≠ [] := by
          rintro rfl
          cases some
        have size := List.length_pos_iff.mpr nonempty
        have fewer : scanWith rules fuel (input.drop length) =
            scanWith rules fuel' (input.drop length) := by
          apply ih <;> rw [List.length_drop] <;> omega
        simp only [fewer]

theorem scan_nil : scan rules [] = some [] := rfl

theorem Takes.scan_eq (takes : Takes rules word rest rule) :
    scan rules (word ++ rest) =
      match rule.act word with
      | .token token => (scan rules rest).map (token :: ·)
      | .skip => scan rules rest
      | .fail => none := by
  have size : 0 < word.length := List.length_pos_iff.mpr takes.nonempty
  have fewer : scanWith rules (word ++ rest).length rest = scan rules rest := by
    apply scanWith_congr
    · rw [List.length_append]
      omega
    · exact Nat.lt_succ_self _
  rw [scan, takes.scanWith_eq, fewer]

end CssLab.Munch
