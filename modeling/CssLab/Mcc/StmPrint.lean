import CssLab.Mcc.History
import CssLab.Mcc.ParserEnds

/-! `Stm_print` of ast.c, and what the parser and the back ends make of its text. -/

namespace CssLab.Mcc

/-- `Stm_print` -/
def stmPrint : Stm → List Char
  | .assign x exp => x.toList ++ ' ' :: '=' :: ' ' :: (exp.print ++ [';', '\n'])
  | .print exp => 'p' :: 'r' :: 'i' :: 'n' :: 't' :: '(' :: (exp.print ++ [')', ';', '\n'])
  | .seq left right => stmPrint left ++ stmPrint right

/-- It up to its last semicolon. -/
def Stm.body : Stm → List Char
  | .assign x exp => x.toList ++ ' ' :: '=' :: ' ' :: exp.print
  | .print exp => 'p' :: 'r' :: 'i' :: 'n' :: 't' :: '(' :: (exp.print ++ [')'])
  | .seq left right => left.body ++ ';' :: '\n' :: right.body

theorem stmPrint_eq (stm : Stm) : stmPrint stm = stm.body ++ [';', '\n'] := by
  induction stm with
  | assign x exp => simp [stmPrint, Stm.body]
  | print exp => simp [stmPrint, Stm.body]
  | seq left right first second => simp [stmPrint, Stm.body, first, second]

/-- The numbers and names that the scanner can make. -/
def Stm.Printable : Stm → Prop
  | .assign x exp => (isId x.toList ∧ x ≠ "print") ∧ exp.Printable
  | .print exp => exp.Printable
  | .seq left right => left.Printable ∧ right.Printable

/-- The symbols that the stack has to hold at once for a printed expression. -/
def Exp.room : Exp → Nat
  | .num _ | .var _ => 1
  | .bin _ left right => max left.room (right.room + 2) + 1

/-- The same for each statement of a program. -/
def Stm.room : Stm → Nat
  | .assign _ exp => exp.room + 2
  | .print exp => max exp.room 2 + 2
  | .seq left right => max left.room right.room

/-- A statement behind others, which all group to the left. -/
def Stm.behind (first : Stm) : Stm → Stm
  | .seq left right => (first.behind left).behind right
  | stm => .seq first stm

/-- The same statements in the same order, grouped to the left. -/
def Stm.leaning : Stm → Stm
  | .seq left right => left.leaning.behind right
  | stm => stm

theorem stacked_tokens (exp : Exp) (least : Nat) :
    expGrammar.Stacked exp.room least exp.tokens exp := by
  induction exp generalizing least with
  | num value => exact .atom rfl
  | var name => exact .atom rfl
  | bin type left right first second =>
    obtain ⟨room, enough⟩ := Nat.exists_eq_add_of_le' (Nat.le_trans (Nat.le_add_left 2 right.room)
      (Nat.le_max_right left.room (right.room + 2)))
    have whole : (Exp.bin type left right).room = room + 3 := congrArg Nat.succ enough
    have left' : expGrammar.Stacked (room + 2) type.level left.tokens left := by
      refine (first type.level).mono ?_
      rw [← enough]
      exact Nat.le_max_left _ _
    have right' : expGrammar.Stacked room (type.level + 1) right.tokens right :=
      (second (type.level + 1)).mono (by omega)
    rw [whole]
    exact .brackets (.node (Nat.zero_le _) left' right')

section Lexing

variable {rest : List Char}

theorem yylex_blank {char : Char} (blank : isBlank char = true) (rest : List Char) :
    yylex (char :: rest) = yylex rest := by
  rw [yylex, List.dropWhile_cons_of_pos blank, ← yylex]

/-- What is read of a word and what is left behind it. -/
theorem span_word {inside : Char → Bool} {word : List Char} (each : word.all inside = true)
    (ends : ∀ char ∈ rest.head?, inside char = false) :
    (word ++ rest).takeWhile inside = word ∧ (word ++ rest).dropWhile inside = rest := by
  have all := List.all_eq_true.mp each
  rw [List.takeWhile_append_of_pos all, List.dropWhile_append_of_pos all]
  cases rest with
  | nil => exact ⟨List.append_nil word, rfl⟩
  | cons char rest =>
    have other : ¬inside char = true := by
      rw [ends char rfl]
      nofun
    rw [List.takeWhile_cons_of_neg other, List.dropWhile_cons_of_neg other]
    exact ⟨List.append_nil word, rfl⟩

theorem yylex_letters {first : Char} {others : List Char} (id : isId (first :: others) = true)
    (stops : Stops rest) :
    yylex (first :: (others ++ rest)) =
      some (some (if first :: others = ['p', 'r', 'i', 'n', 't'] then .print
        else .var (String.ofList (first :: others))), rest) := by
  obtain ⟨alpha, inside⟩ := Bool.and_eq_true_iff.mp id
  have solid : ¬isBlank first = true := by simp [isAlpha_other alpha]
  have ends : ∀ char ∈ rest.head?, (isAlpha char || isDigit char) = false := by
    intro char head
    rw [(stops char head).1, (stops char head).2]
    rfl
  obtain ⟨word, after⟩ := span_word inside ends
  rw [yylex, List.dropWhile_cons_of_neg solid]
  simp only [alpha, if_true, word, after]

theorem yylex_identifier {word : List Char} (id : isId word = true)
    (other : word ≠ ['p', 'r', 'i', 'n', 't']) (stops : Stops rest) :
    yylex (word ++ rest) = some (some (.var (String.ofList word)), rest) := by
  match word with
  | [] => cases id
  | first :: others =>
    rw [List.cons_append, yylex_letters id stops, if_neg other]

theorem yylex_number {digits : List Char} (nonempty : digits ≠ [])
    (each : digits.all isDigit = true) (stops : Stops rest) :
    yylex (digits ++ rest) = some (some (.num (atoi digits)), rest) := by
  match digits with
  | [] => exact absurd rfl nonempty
  | first :: others =>
    obtain ⟨digit, inside⟩ := Bool.and_eq_true_iff.mp each
    obtain ⟨blank, alpha⟩ := isDigit_other digit
    have solid : ¬isBlank first = true := by simp [blank]
    obtain ⟨word, after⟩ := span_word inside fun char head => (stops char head).2
    rw [yylex, List.cons_append, List.dropWhile_cons_of_neg solid]
    simp only [alpha, digit, if_true, word, after]
    rfl

theorem yylex_punctuation {char : Char} {token : Token} (known : punctuation char = some token)
    (rest : List Char) : yylex (char :: rest) = some (some token, rest) := by
  obtain ⟨-, blank, alpha, digit⟩ := punctuation_rule known
  have solid : ¬isBlank char = true := by simp [blank]
  rw [yylex, List.dropWhile_cons_of_neg solid]
  simp only [alpha, digit, known]
  rfl

theorem Lexes.blank {char : Char} {tokens : List Token} (blank : isBlank char = true)
    (some : tokens ≠ []) (lexes : Lexes input tokens rest) : Lexes (char :: input) tokens rest := by
  cases lexes with
  | nil => exact absurd rfl some
  | cons first more => exact .cons ((yylex_blank blank _).trans first) more

theorem lexes_exp {exp : Exp} (printable : exp.Printable) (stops : Stops rest) :
    Lexes (exp.print ++ rest) exp.tokens rest := by
  induction exp generalizing rest with
  | num value =>
    have lexed := yylex_number Nat.toDigits_ne_nil (toDigits_digits value.toNat) stops
    rw [atoi_toDigits] at lexed
    rw [print_num printable]
    exact .single lexed
  | var name =>
    have other : name.toList ≠ ['p', 'r', 'i', 'n', 't'] := fun same =>
      printable.2 (String.toList_inj.mp same)
    have lexed := yylex_identifier printable.1 other stops
    rw [String.ofList_toList] at lexed
    exact .single lexed
  | bin type left right first second =>
    have text : (Exp.bin type left right).print ++ rest =
        '(' :: (left.print ++ ' ' :: type.sign :: ' ' :: (right.print ++ ')' :: rest)) := by
      simp [Exp.print]
    have tokens : (Exp.bin type left right).tokens =
        .lparen :: (left.tokens ++ type.token :: (right.tokens ++ [.rparen])) := by
      simp [Exp.tokens]
    have back : Lexes (right.print ++ ')' :: rest) (right.tokens ++ [.rparen]) rest :=
      (second printable.2 (stops_cons ⟨rfl, rfl⟩ _)).append
        (.single (yylex_punctuation rfl rest))
    have spaced : Lexes (' ' :: (right.print ++ ')' :: rest)) (right.tokens ++ [.rparen]) rest :=
      .blank rfl (by simp) back
    have sign : Lexes (' ' :: type.sign :: ' ' :: (right.print ++ ')' :: rest))
        (type.token :: (right.tokens ++ [.rparen])) rest :=
      .blank rfl (List.cons_ne_nil _ _) (.cons (yylex_punctuation type.punctuation_sign _) spaced)
    rw [text, tokens]
    exact .cons (yylex_punctuation rfl _)
      ((first printable.1 (stops_cons ⟨rfl, rfl⟩ _)).append sign)

/-- What stands behind a printed statement: nothing, or its semicolon. -/
def Closes (rest : List Char) : Prop := rest = [] ∨ ∃ more, rest = ';' :: more

theorem Closes.stops (closes : Closes rest) : Stops rest := by
  rcases closes with rfl | ⟨more, rfl⟩
  · rintro _ ⟨⟩
  · exact stops_cons ⟨rfl, rfl⟩ _

theorem Closes.ahead (closes : Closes rest) :
    ∃ next after, yylex rest = some (next, after) ∧ ∀ token ∈ next, token.isOperator = false := by
  rcases closes with rfl | ⟨more, rfl⟩
  · exact ⟨none, [], rfl, nofun⟩
  · refine ⟨some .semicolon, more, yylex_punctuation rfl more, ?_⟩
    rintro _ ⟨⟩
    rfl

end Lexing

/-- The text of a statement without a semicolon is scanned as one of the grammar. -/
def Stm.Reads (stm : Stm) : Prop :=
  ∃ tokens, Simple stm.room tokens stm ∧ ∀ rest, Closes rest → Lexes (stm.body ++ rest) tokens rest

theorem reads_assign {x : String} {exp : Exp} (printable : (Stm.assign x exp).Printable) :
    (Stm.assign x exp).Reads := by
  obtain ⟨⟨id, other⟩, printable⟩ := printable
  refine ⟨.var x :: .equals :: exp.tokens, .assign x (stacked_tokens exp 0), fun rest closes => ?_⟩
  have other' : x.toList ≠ ['p', 'r', 'i', 'n', 't'] := fun same =>
    other (String.toList_inj.mp same)
  have text : (Stm.assign x exp).body ++ rest =
      x.toList ++ ' ' :: '=' :: ' ' :: (exp.print ++ rest) := by
    simp [Stm.body]
  have stops : Stops (' ' :: '=' :: ' ' :: (exp.print ++ rest)) := stops_cons ⟨rfl, rfl⟩ _
  have name := yylex_identifier id other' stops
  rw [String.ofList_toList] at name
  have exp' := lexes_exp printable closes.stops
  have some : exp.tokens ≠ [] := by
    cases exp <;> exact List.cons_ne_nil _ _
  rw [text]
  exact .cons name (.blank rfl (List.cons_ne_nil _ _)
    (.cons (yylex_punctuation rfl _) (.blank rfl some exp')))

theorem reads_print {exp : Exp} (printable : (Stm.print exp).Printable) :
    (Stm.print exp).Reads := by
  obtain ⟨room, enough⟩ := Nat.exists_eq_add_of_le' (Nat.le_max_right exp.room 2)
  have whole : (Stm.print exp).room = room + 4 := congrArg (· + 2) enough
  have stacked : expGrammar.Stacked (room + 2) 0 exp.tokens exp := by
    refine (stacked_tokens exp 0).mono ?_
    rw [← enough]
    exact Nat.le_max_left _ _
  refine ⟨.print :: .lparen :: (exp.tokens ++ [.rparen]), whole ▸ .print stacked, ?_⟩
  intro rest closes
  have text : (Stm.print exp).body ++ rest =
      'p' :: (['r', 'i', 'n', 't'] ++ '(' :: (exp.print ++ ')' :: rest)) := by
    simp [Stm.body]
  have stops : Stops ('(' :: (exp.print ++ ')' :: rest)) := stops_cons ⟨rfl, rfl⟩ _
  have keyword : yylex ('p' :: (['r', 'i', 'n', 't'] ++ '(' :: (exp.print ++ ')' :: rest))) =
      some (some .print, '(' :: (exp.print ++ ')' :: rest)) := yylex_letters rfl stops
  have stops' : Stops (')' :: rest) := stops_cons ⟨rfl, rfl⟩ rest
  have inside := lexes_exp printable stops'
  rw [text]
  exact .cons keyword (.cons (yylex_punctuation rfl _)
    (inside.append (.single (yylex_punctuation rfl rest))))

section Reading

variable {input rest : List Char} {look : Lookahead} {outcome : Outcome} {first stm : Stm}

theorem leads_first (reads : stm.Reads) (small : stm.room ≤ 9996) (closes : Closes rest)
    (sees : look.Sees (stm.body ++ rest) input)
    (leads : ∀ look input, look.Sees rest input →
      Parser.Leads ⟨[(4, .stm stm), (0, .none)], look, input⟩ outcome) :
    Parser.Leads ⟨[(0, .none)], look, input⟩ outcome := by
  obtain ⟨tokens, simple, lexes⟩ := reads
  obtain ⟨next, after, ahead, follow⟩ := closes.ahead
  refine leads_simple simple (.inl rfl) ?_ sees (lexes rest closes) ahead ?_ leads
  · rw [List.length_nil]
    omega
  · intro token found operator
    rw [follow token found] at operator
    cases operator

theorem leads_next (reads : stm.Reads) (small : stm.room ≤ 9996) (closes : Closes rest)
    (sees : look.Sees (';' :: '\n' :: (stm.body ++ rest)) input)
    (leads : ∀ look input, look.Sees rest input →
      Parser.Leads ⟨[(4, .stm (.seq first stm)), (0, .none)], look, input⟩ outcome) :
    Parser.Leads ⟨[(4, .stm first), (0, .none)], look, input⟩ outcome := by
  obtain ⟨tokens, simple, lexes⟩ := reads
  obtain ⟨next, after, ahead, follow⟩ := closes.ahead
  have semicolon : yylex (';' :: '\n' :: (stm.body ++ rest)) =
      some (some .semicolon, '\n' :: (stm.body ++ rest)) := yylex_punctuation rfl _
  have sequence (look : Lookahead) (input : List Char) (sees : look.Sees rest input) :
      Parser.Leads ⟨[(14, .stm stm), (8, .none), (4, .stm first), (0, .none)], look, input⟩
        outcome :=
    leads_default (by simp) (by decide) rfl (leads look input sees)
  have later : Parser.Leads ⟨[(8, .none), (4, .stm first), (0, .none)], .empty,
      '\n' :: (stm.body ++ rest)⟩ outcome := by
    have lexes := lexes rest closes
    refine leads_simple simple (.inr rfl) ?_ rfl (.blank rfl simple.ne_nil lexes) ahead ?_ sequence
    · simp only [List.length_cons, List.length_nil]
      omega
    · intro token found operator
      rw [follow token found] at operator
      cases operator
  exact leads_reads (by simp) (by decide) sees semicolon rfl later

/-- The statements of a printed program are read one behind the other. -/
theorem leads_behind (printable : stm.Printable) (small : stm.room ≤ 9996) (closes : Closes rest)
    (sees : look.Sees (';' :: '\n' :: (stm.body ++ rest)) input)
    (leads : ∀ look input, look.Sees rest input →
      Parser.Leads ⟨[(4, .stm (first.behind stm)), (0, .none)], look, input⟩ outcome) :
    Parser.Leads ⟨[(4, .stm first), (0, .none)], look, input⟩ outcome := by
  induction stm generalizing first rest look input with
  | assign x exp => exact leads_next (reads_assign printable) small closes sees leads
  | print exp => exact leads_next (reads_print printable) small closes sees leads
  | seq left right ihl ihr =>
    rw [Stm.body, List.append_assoc] at sees
    refine ihl printable.1 ((Nat.le_max_left _ _).trans small) (.inr ⟨_, rfl⟩) sees ?_
    intro look input sees
    exact ihr printable.2 ((Nat.le_max_right _ _).trans small) closes sees leads

theorem leads_leaning (printable : stm.Printable) (small : stm.room ≤ 9996) (closes : Closes rest)
    (sees : look.Sees (stm.body ++ rest) input)
    (leads : ∀ look input, look.Sees rest input →
      Parser.Leads ⟨[(4, .stm stm.leaning), (0, .none)], look, input⟩ outcome) :
    Parser.Leads ⟨[(0, .none)], look, input⟩ outcome := by
  induction stm generalizing rest look input with
  | assign x exp => exact leads_first (reads_assign printable) small closes sees leads
  | print exp => exact leads_first (reads_print printable) small closes sees leads
  | seq left right ihl ihr =>
    rw [Stm.body, List.append_assoc] at sees
    refine ihl printable.1 ((Nat.le_max_left _ _).trans small) (.inr ⟨_, rfl⟩) sees ?_
    intro look input sees
    exact leads_behind printable.2 ((Nat.le_max_right _ _).trans small) closes sees leads

end Reading

theorem accepts_body {prog : Stm} (printable : prog.Printable) (shallow : prog.room ≤ 9996) :
    Accepts prog.body prog.leaning := by
  have accepted : Parser.Leads (.start prog.body) (.accepted prog.leaning) := by
    refine leads_leaning printable shallow (.inl rfl) (List.append_nil _) ?_
    intro look input sees
    refine ⟨1, ?_⟩
    rw [Parser.run, step_of_lexed (by simp) (by decide) sees rfl]
    rfl
  exact accepted

section Fold

variable {Result : Type} {run : Stm → Result}

/-- What is put together of the parts of a program by an associative operation. -/
theorem fold_behind (both : Result → Result → Result)
    (assoc : ∀ one two three, both (both one two) three = both one (both two three))
    (seq : ∀ left right, run (.seq left right) = both (run left) (run right)) (first stm : Stm) :
    run (first.behind stm) = both (run first) (run stm) := by
  induction stm generalizing first with
  | assign x exp => exact seq _ _
  | print exp => exact seq _ _
  | seq left right ihl ihr => rw [Stm.behind, ihr, ihl, assoc, seq]

theorem fold_leaning (both : Result → Result → Result)
    (assoc : ∀ one two three, both (both one two) three = both one (both two three))
    (seq : ∀ left right, run (.seq left right) = both (run left) (run right)) (stm : Stm) :
    run stm.leaning = run stm := by
  induction stm with
  | assign x exp => rfl
  | print exp => rfl
  | seq left right ihl ihr => rw [Stm.leaning, fold_behind both assoc seq, ihl, seq]

end Fold

theorem X64.compileStm_leaning (stm : Stm) : compileStm stm.leaning = compileStm stm :=
  fold_leaning (fun left right => do left; right) (fun _ _ _ => bind_assoc ..)
    (fun _ _ => rfl) stm

theorem Riscv.compileStm_leaning (stm : Stm) : compileStm stm.leaning = compileStm stm :=
  fold_leaning (fun left right => do left; right) (fun _ _ _ => bind_assoc ..)
    (fun _ _ => rfl) stm

theorem Riscv.deepStm_leaning (stm : Stm) : deepStm stm.leaning = deepStm stm :=
  fold_leaning max Nat.max_assoc (fun _ _ => rfl) stm

/-- The parser refuses what `Stm_print` writes, because of the semicolon at its end. Without
this it reads the same statements, grouped to the left, for which both back ends write the
same text as for the program itself. -/
theorem print_reads_back (prog : Stm) (printable : prog.Printable) (shallow : prog.room ≤ 9996) :
    Rejects (stmPrint prog) ∧
    ∃ text, stmPrint prog = text ++ [';', '\n'] ∧ Accepts text prog.leaning ∧
      ∀ statics, (Compilation.compile prog.leaning).text statics =
          (Compilation.compile prog).text statics ∧
        (Compilation.riscvCompile prog.leaning).text statics =
          (Compilation.riscvCompile prog).text statics := by
  refine ⟨?_, prog.body, stmPrint_eq prog, accepts_body printable shallow,
    fun statics => ⟨?_, ?_⟩⟩
  · have refused : Parser.Leads (.start (stmPrint prog)) .error := by
      refine leads_leaning printable shallow (.inr ⟨['\n'], rfl⟩) (stmPrint_eq prog).symm ?_
      intro look input sees
      refine leads_reads (by simp) (by decide) sees (yylex_punctuation rfl _) rfl ⟨1, rfl⟩
    exact refused
  · rw [Compilation.text, Compilation.text, X64.compile, X64.compileStm_leaning, X64.compile]
  · rw [Compilation.text, Compilation.text, Riscv.riscvCompile, Riscv.compileStm_leaning,
      Riscv.stacksize, Riscv.deepStm_leaning, Riscv.riscvCompile, Riscv.stacksize]

theorem print_reads_back_two :
    let prog : Stm := .seq (.assign "x" (.num 1)) (.print (.var "x"))
    prog.Printable ∧ prog.room ≤ 9996 ∧ Rejects (stmPrint prog) := by
  have printable : (Stm.seq (.assign "x" (.num 1)) (.print (.var "x"))).Printable :=
    ⟨⟨by decide, (by decide : (1 : BitVec 32).toNat < 2147483648)⟩, by decide, by decide⟩
  exact ⟨printable, by decide, (print_reads_back _ printable (by decide)).1⟩

end CssLab.Mcc
