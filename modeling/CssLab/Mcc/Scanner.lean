import CssLab.Lib.Munch
import CssLab.Mcc.Parser

/-! The rules of scanner.l, in their order, for a scanner that takes the longest match. -/

namespace CssLab.Mcc

open Munch (Act Rule Takes first scan)

/-- `{ID}` -/
def isId : List Char → Bool
  | [] => false
  | char :: rest => isAlpha char && rest.all fun next => isAlpha next || isDigit next

/-- The rule of a token that is one character. -/
def sign (char : Char) (token : Token) : Rule Char Token := ⟨(· == [char]), fun _ => .token token⟩

def blanks : Rule Char Token := ⟨fun word => !word.isEmpty && word.all isBlank, fun _ => .skip⟩

def keyword : Rule Char Token := ⟨(· == ['p', 'r', 'i', 'n', 't']), fun _ => .token .print⟩

def identifier : Rule Char Token := ⟨isId, fun word => .token (.var (String.ofList word))⟩

def number : Rule Char Token :=
  ⟨fun word => !word.isEmpty && word.all isDigit, fun word => .token (.num (atoi word))⟩

/-- `.`, whose action exits; it is not a newline. -/
def unexpected : Rule Char Token := ⟨fun word => word.length == 1 && word != ['\n'], fun _ => .fail⟩

def scannerRules : List (Rule Char Token) :=
  [sign '+' .plus, sign '-' .minus, sign '*' .times, sign '/' .slash, sign '=' .equals,
    sign '(' .lparen, sign ')' .rparen, sign ';' .semicolon, blanks, keyword, identifier, number,
    unexpected]

theorem isDigit_iff (char : Char) : isDigit char = true ↔ 48 ≤ char.toNat ∧ char.toNat ≤ 57 := by
  simp [isDigit, Char.le_def, UInt32.le_iff_toNat_le]

theorem isAlpha_iff (char : Char) : isAlpha char = true ↔
    (97 ≤ char.toNat ∧ char.toNat ≤ 122 ∨ 65 ≤ char.toNat ∧ char.toNat ≤ 90) ∨
      char.toNat = 95 := by
  simp [isAlpha, Char.le_def, UInt32.le_iff_toNat_le, ← Char.toNat_inj]

theorem isBlank_iff (char : Char) : isBlank char = true ↔
    ((char.toNat = 32 ∨ char.toNat = 9) ∨ char.toNat = 13) ∨ char.toNat = 10 := by
  simp [isBlank, ← Char.toNat_inj]

theorem isAlpha_other {char : Char} (alpha : isAlpha char = true) :
    isBlank char = false ∧ isDigit char = false := by
  rw [isAlpha_iff] at alpha
  rw [← Bool.not_eq_true, ← Bool.not_eq_true, isBlank_iff, isDigit_iff]
  omega

theorem isDigit_other {char : Char} (digit : isDigit char = true) :
    isBlank char = false ∧ isAlpha char = false := by
  rw [isDigit_iff] at digit
  rw [← Bool.not_eq_true, ← Bool.not_eq_true, isBlank_iff, isAlpha_iff]
  omega

theorem isBlank_other {char : Char} (blank : isBlank char = true) :
    isAlpha char = false ∧ isDigit char = false := by
  rw [isBlank_iff] at blank
  rw [← Bool.not_eq_true, ← Bool.not_eq_true, isAlpha_iff, isDigit_iff]
  omega

/-- What no rule accepts: at least two characters that neither are all of one kind nor make
an identifier. -/
theorem first_eq_none {char : Char} {more : List Char} (some : more ≠ [])
    (blank : (char :: more).all isBlank = false) (id : isId (char :: more) = false)
    (digit : (char :: more).all isDigit = false) : first scannerRules (char :: more) = none := by
  have two (other : Char) : (char :: more == [other]) = false := by
    simp [some]
  have keyword : (char :: more == ['p', 'r', 'i', 'n', 't']) = false := by
    rw [beq_eq_false_iff_ne]
    intro same
    rw [same] at id
    exact absurd id (by decide)
  have one : ((char :: more).length == 1) = false := by
    simp [some]
  simp only [first, scannerRules, sign, blanks, Mcc.keyword, identifier, number, unexpected,
    List.find?_cons, two, keyword, blank, id, digit, one, Bool.and_false, Bool.false_and,
    List.find?_nil]

theorem punctuation_rule {char : Char} {token : Token} (known : punctuation char = some token) :
    first scannerRules [char] = some (sign char token) ∧ isBlank char = false ∧
      isAlpha char = false ∧ isDigit char = false := by
  unfold punctuation at known
  split at known
  case h_9 => cases known
  all_goals
    cases known
    exact ⟨rfl, rfl, rfl, rfl⟩

theorem takes_sign {char : Char} {token : Token} (known : punctuation char = some token)
    (rest : List Char) : Takes scannerRules [char] rest (sign char token) := by
  obtain ⟨chosen, blank, alpha, digit⟩ := punctuation_rule known
  refine ⟨List.cons_ne_nil _ _, chosen, fun more some _ => first_eq_none some ?_ ?_ ?_⟩
  · rw [List.all_cons, blank, Bool.false_and]
  · rw [isId, alpha, Bool.false_and]
  · rw [List.all_cons, digit, Bool.false_and]

/-- What is next is no blank. -/
def Solid (rest : List Char) : Prop := ∀ char ∈ rest.head?, isBlank char = false

/-- What is next ends a word or a number. -/
def Stops (rest : List Char) : Prop :=
  ∀ char ∈ rest.head?, isAlpha char = false ∧ isDigit char = false

theorem head_of_prefix {rest more : List Char} (some : more ≠ []) (front : more <+: rest) :
    ∃ char later, more = char :: later ∧ char ∈ rest.head? := by
  obtain ⟨after, rfl⟩ := front
  cases more with
  | nil => exact absurd rfl some
  | cons char later => exact ⟨char, later, rfl, rfl⟩

/-- A word that starts with no such character is none of those tokens. -/
theorem first_of_unknown {char : Char} (unknown : ∀ token, punctuation char ≠ some token)
    (letters : List Char) : first scannerRules (char :: letters) =
      first [blanks, keyword, identifier, number, unexpected] (char :: letters) := by
  have refused (other : Char) {token : Token} (known : punctuation other = some token) :
      (char :: letters == [other]) = false := by
    rw [beq_eq_false_iff_ne]
    intro same
    obtain ⟨rfl, -⟩ := List.cons_eq_cons.mp same
    exact unknown token known
  have plus := refused '+' rfl
  have minus := refused '-' rfl
  have times := refused '*' rfl
  have slash := refused '/' rfl
  have equals := refused '=' rfl
  have lparen := refused '(' rfl
  have rparen := refused ')' rfl
  have semicolon := refused ';' rfl
  simp only [first, scannerRules, sign, List.find?_cons, plus, minus, times, slash, equals,
    lparen, rparen, semicolon]

theorem takes_blanks {word rest : List Char} (nonempty : word ≠ [])
    (blank : word.all isBlank = true) (solid : Solid rest) :
    Takes scannerRules word rest blanks := by
  cases word with
  | nil => exact absurd rfl nonempty
  | cons char letters =>
    have blank' := (Bool.and_eq_true_iff.mp blank).1
    obtain ⟨alpha, digit⟩ := isBlank_other blank'
    refine ⟨nonempty, ?_, fun more some front => ?_⟩
    · rw [first_of_unknown fun token known => by
        rw [(punctuation_rule known).2.1] at blank'
        cases blank']
      have all : (!(char :: letters).isEmpty && (char :: letters).all isBlank) = true := blank
      simp only [first, blanks, List.find?_cons, all]
    · obtain ⟨next, later, rfl, head⟩ := head_of_prefix some front
      refine first_eq_none (by simp) ?_ ?_ ?_
      · change (isBlank char && (letters ++ next :: later).all isBlank) = false
        rw [List.all_append, List.all_cons, solid next head]
        simp only [Bool.false_and, Bool.and_false]
      · change (isAlpha char && _) = false
        rw [alpha, Bool.false_and]
      · change (isDigit char && _) = false
        rw [digit, Bool.false_and]

theorem id_maximal {word rest : List Char} (id : isId word = true) (stops : Stops rest)
    (more : List Char) (some : more ≠ []) (front : more <+: rest) :
    first scannerRules (word ++ more) = none := by
  cases word with
  | nil => cases id
  | cons char letters =>
    obtain ⟨alpha, -⟩ := Bool.and_eq_true_iff.mp id
    obtain ⟨blank, digit⟩ := isAlpha_other alpha
    obtain ⟨next, later, rfl, head⟩ := head_of_prefix some front
    refine first_eq_none (by simp) ?_ ?_ ?_
    · rw [List.all_cons, blank, Bool.false_and]
    · change (isAlpha char && (letters ++ next :: later).all _) = false
      rw [List.all_append, List.all_cons, (stops next head).1, (stops next head).2]
      simp only [Bool.or_self, Bool.false_and, Bool.and_false]
    · rw [List.all_cons, digit, Bool.false_and]

theorem takes_keyword {rest : List Char} (stops : Stops rest) :
    Takes scannerRules ['p', 'r', 'i', 'n', 't'] rest keyword :=
  ⟨List.cons_ne_nil _ _, rfl, id_maximal rfl stops⟩

theorem takes_identifier {word rest : List Char} (id : isId word = true)
    (other : word ≠ ['p', 'r', 'i', 'n', 't']) (stops : Stops rest) :
    Takes scannerRules word rest identifier := by
  cases word with
  | nil => cases id
  | cons char letters =>
    obtain ⟨alpha, all⟩ := Bool.and_eq_true_iff.mp id
    obtain ⟨blank, digit⟩ := isAlpha_other alpha
    refine ⟨List.cons_ne_nil _ _, ?_, id_maximal id stops⟩
    rw [first_of_unknown fun token known => by
      rw [(punctuation_rule known).2.2.1] at alpha
      cases alpha]
    have apart : (char :: letters == ['p', 'r', 'i', 'n', 't']) = false :=
      beq_eq_false_iff_ne.mpr other
    simp only [first, blanks, keyword, identifier, List.find?_cons, List.all_cons, blank, apart,
      id, Bool.false_and, Bool.and_false]

theorem takes_number {word rest : List Char} (nonempty : word ≠ [])
    (digits : word.all isDigit = true) (ends : ∀ char ∈ rest.head?, isDigit char = false) :
    Takes scannerRules word rest number := by
  cases word with
  | nil => exact absurd rfl nonempty
  | cons char more =>
    have digit := (Bool.and_eq_true_iff.mp digits).1
    obtain ⟨blank, alpha⟩ := isDigit_other digit
    have id (letters : List Char) : isId (char :: letters) = false := by
      rw [isId, alpha, Bool.false_and]
    refine ⟨nonempty, ?_, fun more' some front => ?_⟩
    · rw [first_of_unknown fun token known => by
        rw [(punctuation_rule known).2.2.2] at digit
        cases digit]
      have apart : (char :: more == ['p', 'r', 'i', 'n', 't']) = false := by
        rw [beq_eq_false_iff_ne]
        intro same
        obtain ⟨rfl, -⟩ := List.cons_eq_cons.mp same
        exact absurd digit (by decide)
      have all : (!(char :: more).isEmpty && (char :: more).all isDigit) = true := digits
      simp only [first, blanks, keyword, identifier, number, List.find?_cons, apart, id, all]
      rw [List.all_cons, blank, Bool.false_and, Bool.and_false]
    · obtain ⟨next, later, rfl, head⟩ := head_of_prefix some front
      refine first_eq_none (by simp) ?_ (id _) ?_
      · rw [List.all_cons, blank, Bool.false_and]
      · change (isDigit char && (more ++ next :: later).all isDigit) = false
        rw [List.all_append, List.all_cons, ends next head]
        simp only [Bool.false_and, Bool.and_false]

theorem takes_unexpected {char : Char} (blank : isBlank char = false)
    (alpha : isAlpha char = false) (digit : isDigit char = false)
    (known : punctuation char = none) (rest : List Char) :
    Takes scannerRules [char] rest unexpected := by
  have line : ([char] != ['\n']) = true := by
    rw [bne_iff_ne]
    rintro ⟨⟩
    cases blank
  have apart : ([char] == ['p', 'r', 'i', 'n', 't']) = false := by
    simp
  refine ⟨List.cons_ne_nil _ _, ?_, fun more some front => first_eq_none some ?_ ?_ ?_⟩
  · rw [first_of_unknown fun token known' => by
      rw [known] at known'
      cases known']
    simp only [first, blanks, keyword, identifier, number, unexpected, List.find?_cons, apart,
      isId, List.all_cons, blank, alpha, digit, line, Bool.false_and, Bool.and_false,
      List.length_singleton, BEq.rfl, Bool.and_self]
  · change (isBlank char && _) = false
    rw [blank, Bool.false_and]
  · change (isAlpha char && _) = false
    rw [alpha, Bool.false_and]
  · change (isDigit char && _) = false
    rw [digit, Bool.false_and]

theorem solid_dropWhile (input : List Char) : Solid (input.dropWhile isBlank) := by
  intro char head
  have other := List.head?_dropWhile_not isBlank input
  rw [head] at other
  simpa using other

theorem stops_dropWhile (rest : List Char) :
    Stops (rest.dropWhile fun next => isAlpha next || isDigit next) := by
  intro char head
  have other := List.head?_dropWhile_not (fun next => isAlpha next || isDigit next) rest
  rw [head] at other
  simpa using other

theorem ends_dropWhile (rest : List Char) :
    ∀ char ∈ (rest.dropWhile isDigit).head?, isDigit char = false := by
  intro char head
  have other := List.head?_dropWhile_not isDigit rest
  rw [head] at other
  exact other

theorem scan_dropWhile (input : List Char) :
    scan scannerRules (input.dropWhile isBlank) = scan scannerRules input := by
  have parts : input.takeWhile isBlank ++ input.dropWhile isBlank = input :=
    List.takeWhile_append_dropWhile
  by_cases none : input.takeWhile isBlank = []
  · rw [none, List.nil_append] at parts
    rw [parts]
  · have takes := takes_blanks none List.all_takeWhile (solid_dropWhile input)
    have skipped := takes.scan_eq
    rw [parts] at skipped
    exact skipped.symm

/-- `yylex` is the scanner of the rules up to its next token. -/
theorem scan_yylex (input : List Char) :
    scan scannerRules input =
      match yylex input with
      | none => none
      | some (none, _) => some []
      | some (some token, rest) => (scan scannerRules rest).map (token :: ·) := by
  rw [← scan_dropWhile, yylex]
  have solid := solid_dropWhile input
  generalize input.dropWhile isBlank = input at solid
  cases input with
  | nil => rfl
  | cons char rest =>
    have blank : isBlank char = false := solid char rfl
    by_cases alpha : isAlpha char = true
    · simp only [alpha, if_true]
      have id : isId (char :: rest.takeWhile fun next => isAlpha next || isDigit next) = true := by
        rw [isId, alpha, Bool.true_and, List.all_takeWhile]
      have parts : (char :: rest.takeWhile fun next => isAlpha next || isDigit next) ++
          (rest.dropWhile fun next => isAlpha next || isDigit next) = char :: rest := by
        rw [List.cons_append, List.takeWhile_append_dropWhile]
      by_cases print : (char :: rest.takeWhile fun next => isAlpha next || isDigit next) =
          ['p', 'r', 'i', 'n', 't']
      · have takes := takes_keyword (stops_dropWhile rest)
        have scanned := takes.scan_eq
        rw [← print, parts] at scanned
        rw [if_pos print]
        exact scanned
      · have scanned := (takes_identifier id print (stops_dropWhile rest)).scan_eq
        rw [parts] at scanned
        rw [if_neg print]
        exact scanned
    · by_cases digit : isDigit char = true
      · simp only [alpha, digit, if_true]
        have digits : (char :: rest.takeWhile isDigit).all isDigit = true := by
          rw [List.all_cons, digit, Bool.true_and, List.all_takeWhile]
        have takes := takes_number (List.cons_ne_nil _ _) digits (ends_dropWhile rest)
        have scanned := takes.scan_eq
        rw [List.cons_append, List.takeWhile_append_dropWhile] at scanned
        exact scanned
      · simp only [alpha, digit]
        cases known : punctuation char with
        | none =>
          exact (takes_unexpected blank (eq_false_of_ne_true alpha) (eq_false_of_ne_true digit)
            known rest).scan_eq
        | some token => exact (takes_sign known rest).scan_eq

end CssLab.Mcc
