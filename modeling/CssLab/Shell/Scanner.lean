import CssLab.Shell.Parser

/-! `yylex` of the shell, by the rules of scanner.l, and what a line of its input is to it. -/

namespace CssLab.Shell

/-- What a word is of, `[a-zA-Z0-9._-]`. -/
def isWord (char : Char) : Bool :=
  ('a' ≤ char && char ≤ 'z') || ('A' ≤ char && char ≤ 'Z') || ('0' ≤ char && char ≤ '9') ||
    char == '.' || char == '_' || char == '-'

/-- The tokens of one character. -/
def operator : Char → Option Token
  | '&' => some .ampersand
  | ';' => some .semicolon
  | '|' => some .bar
  | '>' => some .greater
  | '<' => some .less
  | '\n' => some .newline
  | _ => none

/-- `yylex`: the next token, and the input after it. It returns 0 at the end, and where a character
starts no token. -/
def yylex (input : List Char) : Option Token × List Char :=
  match input.dropWhile (· == ' ') with
  | [] => (none, [])
  | char :: rest =>
    if isWord char then
      (some (.arg (String.ofList (char :: rest.takeWhile isWord))), rest.dropWhile isWord)
    else (operator char, rest)

/-- What `yylex` returns until it returns 0, in so many calls at most. -/
def scanWith : Nat → List Char → List Token
  | 0, _ => []
  | fuel + 1, input =>
    match yylex input with
    | (none, _) => []
    | (some token, rest) => token :: scanWith fuel rest

/-- The tokens that `yyparse` gets; it does not call `yylex` again after a 0. -/
def scan (input : List Char) : List Token := scanWith (input.length + 1) input

theorem yylex_shorter (lexed : yylex input = (some token, rest)) : rest.length < input.length := by
  have fewer := (List.dropWhile_suffix (· == ' ') (l := input)).length_le
  rw [yylex] at lexed
  split at lexed
  · cases lexed
  · rename_i char more found
    rw [found, List.length_cons] at fewer
    have within : (more.dropWhile isWord).length ≤ more.length :=
      (List.dropWhile_suffix isWord).length_le
    split at lexed
    · cases lexed
      exact Nat.lt_of_lt_of_le (Nat.lt_succ_of_le within) fewer
    · obtain ⟨-, rfl⟩ := Prod.mk.inj lexed
      omega

/-- More calls than characters make no difference. -/
theorem scanWith_congr (enough : input.length < fuel) (enough' : input.length < fuel') :
    scanWith fuel input = scanWith fuel' input := by
  induction fuel generalizing input fuel' with
  | zero => exact absurd enough (Nat.not_lt_zero _)
  | succ fuel ih =>
    obtain ⟨fuel', rfl⟩ := Nat.exists_eq_add_one_of_ne_zero (Nat.ne_zero_of_lt enough')
    rw [scanWith, scanWith]
    cases lexed : yylex input with
    | mk token rest =>
    cases token with
    | none => rfl
    | some token =>
      have shorter := yylex_shorter lexed
      exact congrArg _ (ih (by omega) (by omega))

theorem scan_eq (input : List Char) :
    scan input = match yylex input with
      | (none, _) => []
      | (some token, rest) => token :: scan rest := by
  rw [scan, scanWith]
  cases lexed : yylex input with
  | mk token rest =>
  cases token with
  | none => rfl
  | some token =>
    exact congrArg _ (scanWith_congr (yylex_shorter lexed) (Nat.lt_succ_self _))

@[simp] theorem scan_nil : scan [] = [] := rfl

@[simp] theorem scan_space (rest : List Char) : scan (' ' :: rest) = scan rest := by
  rw [scan_eq, scan_eq rest]
  rfl

theorem operator_other (known : operator char = some token) :
    isWord char = false ∧ (char == ' ') = false := by
  unfold operator at known
  split at known
  case h_7 => cases known
  all_goals exact ⟨rfl, rfl⟩

theorem isWord_other (word : isWord char = true) :
    operator char = none ∧ (char == ' ') = false := by
  constructor
  · cases known : operator char with
    | none => rfl
    | some token =>
      rw [(operator_other known).1] at word
      cases word
  · rw [beq_eq_false_iff_ne]
    rintro rfl
    cases word

theorem scan_operator (known : operator char = some token) (rest : List Char) :
    scan (char :: rest) = token :: scan rest := by
  obtain ⟨word, space⟩ := operator_other known
  rw [scan_eq, yylex, List.dropWhile_cons_of_neg (by simp [space])]
  simp only [word, known]
  rfl

/-- What ends a word. -/
def Ends (rest : List Char) : Prop := ∀ char ∈ rest.head?, isWord char = false

theorem scan_word {word rest : List Char} (some : word ≠ []) (letters : word.all isWord = true)
    (ends : Ends rest) : scan (word ++ rest) = .arg (String.ofList word) :: scan rest := by
  cases word with
  | nil => exact absurd rfl some
  | cons char word =>
    rw [List.all_cons, Bool.and_eq_true] at letters
    obtain ⟨first, letters⟩ := letters
    have all := List.all_eq_true.mp letters
    have taken : (word ++ rest).takeWhile isWord = word := by
      rw [List.takeWhile_append_of_pos all]
      cases rest with
      | nil => exact List.append_nil word
      | cons next rest =>
        rw [List.takeWhile_cons_of_neg (by simp [ends next rfl]), List.append_nil]
    have left : (word ++ rest).dropWhile isWord = rest := by
      rw [List.dropWhile_append_of_pos all]
      cases rest with
      | nil => rfl
      | cons next rest => rw [List.dropWhile_cons_of_neg (by simp [ends next rfl])]
    rw [scan_eq, yylex, List.cons_append,
      List.dropWhile_cons_of_neg (by simp [(isWord_other first).2])]
    simp only [first, if_true, taken, left]

theorem scan_unknown (word : isWord char = false) (space : char ≠ ' ') (none : operator char = none)
    (rest : List Char) : scan (char :: rest) = [] := by
  rw [scan_eq, yylex, List.dropWhile_cons_of_neg (by simp [space])]
  simp only [word, none]
  rfl

/-- What an input starts with. -/
inductive Opening : List Char → Prop
  | nil : Opening []
  | space (rest : List Char) : Opening (' ' :: rest)
  | operator (known : operator char = some token) (rest : List Char) : Opening (char :: rest)
  | word (some : word ≠ []) (letters : word.all isWord = true) (ends : Ends rest) :
      Opening (word ++ rest)
  | unknown (word : isWord char = false) (space : char ≠ ' ') (none : operator char = none)
      (rest : List Char) : Opening (char :: rest)

theorem opening (input : List Char) : Opening input := by
  cases input with
  | nil => exact .nil
  | cons char rest =>
    by_cases space : char = ' '
    · subst space
      exact .space rest
    cases known : operator char with
    | some token => exact .operator known rest
    | none =>
      cases word : isWord char with
      | false => exact .unknown word space known rest
      | true =>
        have whole : char :: rest = (char :: rest.takeWhile isWord) ++ rest.dropWhile isWord := by
          rw [List.cons_append, List.takeWhile_append_dropWhile]
        rw [whole]
        refine .word (List.cons_ne_nil _ _) ?_ fun next head => ?_
        · rw [List.all_cons, word, Bool.true_and]
          exact List.all_takeWhile
        · have stops := List.head?_dropWhile_not isWord rest
          rw [Option.mem_def.mp head] at stops
          exact stops

/-- A line without a character that starts no token. -/
def Clean (line : List Char) : Prop :=
  ∀ char ∈ line, char ≠ '\n' ∧ (isWord char || char == ' ' || (operator char).isSome)

instance (line : List Char) : Decidable (Clean line) := List.decidableBAll _ line

theorem Ends.append (ends : Ends line) (rest : List Char) : Ends (line ++ '\n' :: rest) := by
  cases line with
  | nil =>
    rintro _ ⟨⟩
    rfl
  | cons char line => exact ends

theorem Ends.of_append (ends : Ends (line ++ '\n' :: rest)) : Ends line := by
  cases line with
  | nil => rintro _ ⟨⟩
  | cons char line => exact ends

/-- Nothing is scanned across the end of a line. -/
theorem scan_line (clean : Clean line) (after : List Char) :
    scan (line ++ '\n' :: after) = scan line ++ .newline :: scan after ∧
      .newline ∉ scan line := by
  induction size : line.length using Nat.strongRecOn generalizing line with
  | ind length ih =>
    cases opening line with
    | nil => exact ⟨scan_operator rfl after, List.not_mem_nil⟩
    | space rest =>
      rw [List.cons_append, scan_space, scan_space]
      refine ih rest.length ?_ (fun char inside => clean char (.tail _ inside)) rfl
      rw [← size]
      exact Nat.lt_succ_self _
    | @operator char token known rest =>
      have shorter : rest.length < length := by
        rw [← size]
        exact Nat.lt_succ_self _
      obtain ⟨whole, none⟩ :=
        ih rest.length shorter (fun char inside => clean char (.tail _ inside)) rfl
      have other : token ≠ .newline := by
        rintro rfl
        have not := (clean char (.head _)).1
        unfold operator at known
        split at known <;> simp_all
      rw [List.cons_append, scan_operator known, scan_operator known, whole]
      refine ⟨rfl, fun inside => ?_⟩
      rcases List.mem_cons.mp inside with same | inside
      · exact other same.symm
      · exact none inside
    | @word word rest some letters ends =>
      have shorter : rest.length < length := by
        rw [← size, List.length_append]
        exact Nat.lt_add_of_pos_left (List.length_pos_iff.mpr some)
      obtain ⟨whole, none⟩ :=
        ih rest.length shorter (fun char inside => clean char (List.mem_append_right _ inside)) rfl
      rw [List.append_assoc, scan_word some letters (ends.append after),
        scan_word some letters ends, whole]
      refine ⟨rfl, fun inside => ?_⟩
      rcases List.mem_cons.mp inside with same | inside
      · cases same
      · exact none inside
    | unknown word space none rest =>
      have known := (clean _ (.head _)).2
      rw [word, none] at known
      simp [space] at known

/-- Up to its first newline, what is scanned is a line. -/
theorem scan_newline (found : scan text = front ++ .newline :: rest) (first : .newline ∉ front) :
    ∃ line after, text = line ++ '\n' :: after ∧ Clean line ∧ scan line = front ∧
      scan after = rest := by
  induction size : text.length using Nat.strongRecOn generalizing text front with
  | ind length ih =>
    cases opening text with
    | nil => cases front <;> cases found
    | space more =>
      rw [scan_space] at found
      have shorter : more.length < length := by
        rw [← size]
        exact Nat.lt_succ_self _
      obtain ⟨line, after, rfl, clean, same, left⟩ := ih more.length shorter found first rfl
      refine ⟨' ' :: line, after, rfl, ?_, (scan_space line).trans same, left⟩
      rintro char (_ | ⟨_, inside⟩)
      · exact ⟨by decide, by decide⟩
      · exact clean char inside
    | @operator char token known more =>
      rw [scan_operator known] at found
      cases front with
      | nil =>
        obtain ⟨rfl, same⟩ := List.cons.inj found
        have newline : char = '\n' := by
          unfold operator at known
          split at known <;> simp_all
        subst newline
        exact ⟨[], more, rfl, nofun, rfl, same⟩
      | cons other front =>
        obtain ⟨rfl, later⟩ := List.cons.inj found
        have shorter : more.length < length := by
          rw [← size]
          exact Nat.lt_succ_self _
        obtain ⟨line, after, rfl, clean, same, left⟩ :=
          ih more.length shorter later (fun inside => first (.tail _ inside)) rfl
        refine ⟨char :: line, after, rfl, ?_, ?_, left⟩
        · rintro other (_ | ⟨_, inside⟩)
          · refine ⟨?_, by simp [known]⟩
            rintro rfl
            cases known
            exact first (.head _)
          · exact clean other inside
        · rw [scan_operator known, same]
    | @word word more some letters ends =>
      rw [scan_word some letters ends] at found
      cases front with
      | nil => cases (List.cons.inj found).1
      | cons other front =>
        obtain ⟨rfl, later⟩ := List.cons.inj found
        have shorter : more.length < length := by
          rw [← size, List.length_append]
          exact Nat.lt_add_of_pos_left (List.length_pos_iff.mpr some)
        obtain ⟨line, after, rfl, clean, same, left⟩ :=
          ih more.length shorter later (fun inside => first (.tail _ inside)) rfl
        refine ⟨word ++ line, after, (List.append_assoc _ _ _).symm, ?_, ?_, left⟩
        · intro char inside
          rcases List.mem_append.mp inside with inside | inside
          · have letter := List.all_eq_true.mp letters char inside
            refine ⟨?_, by simp [letter]⟩
            rintro rfl
            cases letter
          · exact clean char inside
        · rw [scan_word some letters ends.of_append, same]
    | unknown word space none more =>
      rw [scan_unknown word space none] at found
      cases front <;> cases found

end CssLab.Shell
