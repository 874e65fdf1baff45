import CssLab.Lib.Precedence
import CssLab.Mcc.Scanner

/-! `Exp_print` of ast.c, and what the rules of scanner.l and the grammar of parser.y make of
its text. -/

namespace CssLab.Mcc

open Munch (scan)

/-- `%d` -/
def percentD (number : Int) : List Char :=
  if number < 0 then '-' :: Nat.toDigits 10 number.natAbs else Nat.toDigits 10 number.natAbs

def BinType.sign : BinType → Char
  | .add => '+'
  | .sub => '-'
  | .times => '*'
  | .div => '/'

/-- `Exp_print` -/
def Exp.print : Exp → List Char
  | .num value => percentD value.toInt
  | .var name => name.toList
  | .bin type left right => '(' :: (left.print ++ ' ' :: type.sign :: ' ' :: (right.print ++ [')']))

/-- The numbers and names that the scanner can make. -/
def Exp.Printable : Exp → Prop
  | .num value => value.toNat < 2147483648
  | .var name => isId name.toList ∧ name ≠ "print"
  | .bin _ left right => left.Printable ∧ right.Printable

def BinType.token : BinType → Token
  | .add => .plus
  | .sub => .minus
  | .times => .times
  | .div => .slash

/-- The line of `%left` that an operator stands in. -/
def BinType.level : BinType → Nat
  | .add => 2
  | .sub => 2
  | .times => 3
  | .div => 3

/-- The rules of `exp`, resolved by `%left`. -/
def expGrammar : Precedence Token BinType Exp where
  atom
    | .num value => some (.num value)
    | .var name => some (.var name)
    | _ => none
  operator := BinType.token
  level := BinType.level
  opening := .lparen
  closing := .rparen
  node := .bin
  operator_injective {first second} same := by
    cases first <;> cases second <;> first | rfl | cases same
  atom_operator op := by cases op <;> rfl
  atom_opening := rfl
  atom_closing := rfl
  operator_ne_opening op := by cases op <;> decide
  operator_ne_closing op := by cases op <;> decide
  opening_ne_closing := by decide

/-- The tokens of a printed expression. -/
def Exp.tokens : Exp → List Token
  | .num value => [.num value]
  | .var name => [.var name]
  | .bin type left right =>
    .lparen :: (left.tokens ++ type.token :: right.tokens ++ [.rparen])

theorem derives_tokens (exp : Exp) (least : Nat) : expGrammar.Derives least exp.tokens exp := by
  induction exp generalizing least with
  | num value => exact .atom rfl
  | var name => exact .atom rfl
  | bin type left right ihl ihr =>
    exact .brackets (.node (Nat.zero_le _) (ihl _) (ihr _))

theorem stops_cons {char : Char} (other : isAlpha char = false ∧ isDigit char = false)
    (rest : List Char) : Stops (char :: rest) := by
  rintro _ ⟨⟩
  exact other

theorem solid_cons {char : Char} (other : isBlank char = false) (rest : List Char) :
    Solid (char :: rest) := by
  rintro _ ⟨⟩
  exact other

theorem toDigits_digits (number : Nat) : (Nat.toDigits 10 number).all isDigit = true := by
  rw [List.all_eq_true]
  intro char member
  have digit := Nat.isDigit_of_mem_toDigits (by decide) (by decide) member
  rw [isDigit_iff]
  simpa [Char.isDigit, UInt32.le_iff_toNat_le] using digit

theorem atoi_toDigits (value : BitVec 32) : atoi (Nat.toDigits 10 value.toNat) = value := by
  have bound := value.isLt
  have digits : (Nat.toDigits 10 value.toNat).foldl
      (fun value digit => 10 * value + (digit.toNat - 48)) 0 = value.toNat :=
    Nat.ofDigitChars_ten_toDigits
  have small : min value.toNat (2 ^ 63 - 1) = value.toNat := Nat.min_eq_left (by omega)
  rw [atoi, digits]
  simp only [small, BitVec.ofNat_toNat, BitVec.setWidth_eq]

theorem print_num {value : BitVec 32} (printable : (Exp.num value).Printable) :
    (Exp.num value).print = Nat.toDigits 10 value.toNat := by
  have small : 2 * value.toNat < 2 ^ 32 := by
    have bound : value.toNat < 2147483648 := printable
    omega
  rw [Exp.print, BitVec.toInt_eq_toNat_of_lt small, percentD, if_neg (by omega), Int.natAbs_natCast]

theorem print_solid {exp : Exp} (printable : exp.Printable) (rest : List Char) :
    Solid (exp.print ++ rest) := by
  cases exp with
  | num value =>
    rw [print_num printable]
    have digits := toDigits_digits value.toNat
    cases shape : Nat.toDigits 10 value.toNat with
    | nil => exact absurd shape Nat.toDigits_ne_nil
    | cons char more =>
      rw [shape] at digits
      exact solid_cons (isDigit_other (Bool.and_eq_true_iff.mp digits).1).1 _
  | var name =>
    have id := printable.1
    rw [Exp.print]
    cases shape : name.toList with
    | nil =>
      rw [shape] at id
      cases id
    | cons char more =>
      rw [shape] at id
      exact solid_cons (isAlpha_other (Bool.and_eq_true_iff.mp id).1).1 _
  | bin type left right => exact solid_cons rfl _

theorem BinType.punctuation_sign (type : BinType) : punctuation type.sign = some type.token := by
  cases type <;> rfl

theorem scan_sign {char : Char} {token : Token} (known : punctuation char = some token)
    (rest : List Char) :
    scan scannerRules (char :: rest) = (scan scannerRules rest).map (token :: ·) :=
  (takes_sign known rest).scan_eq

theorem scan_blank {rest : List Char} (solid : Solid rest) :
    scan scannerRules (' ' :: rest) = scan scannerRules rest :=
  (takes_blanks (List.cons_ne_nil ' ' []) rfl solid).scan_eq

/-- The text of an expression is scanned as its tokens, whatever stands behind it. -/
theorem scan_print_append {exp : Exp} (printable : exp.Printable) {rest : List Char}
    (stops : Stops rest) :
    scan scannerRules (exp.print ++ rest) = (scan scannerRules rest).map (exp.tokens ++ ·) := by
  induction exp generalizing rest with
  | num value =>
    have ends : ∀ char ∈ rest.head?, isDigit char = false := fun char head => (stops char head).2
    have takes := takes_number Nat.toDigits_ne_nil (toDigits_digits value.toNat) ends
    rw [print_num printable, takes.scan_eq]
    simp only [number, atoi_toDigits]
    rfl
  | var name =>
    have other : name.toList ≠ ['p', 'r', 'i', 'n', 't'] := by
      intro same
      exact printable.2 (String.toList_inj.mp same)
    rw [Exp.print, (takes_identifier printable.1 other stops).scan_eq]
    simp only [identifier, String.ofList_toList]
    rfl
  | bin type left right ihl ihr =>
    obtain ⟨printable, printable'⟩ := printable
    have solid : Solid (type.sign :: ' ' :: (right.print ++ ')' :: rest)) :=
      solid_cons (by cases type <;> rfl) _
    have text : (Exp.bin type left right).print ++ rest =
        '(' :: (left.print ++ ' ' :: type.sign :: ' ' :: (right.print ++ ')' :: rest)) := by
      simp [Exp.print]
    calc scan scannerRules ((Exp.bin type left right).print ++ rest)
      _ = (scan scannerRules (left.print ++ ' ' :: type.sign :: ' ' ::
            (right.print ++ ')' :: rest))).map (Token.lparen :: ·) := by
        rw [text, scan_sign rfl]
      _ = ((scan scannerRules (right.print ++ ')' :: rest)).map
            (left.tokens ++ type.token :: ·)).map (Token.lparen :: ·) := by
        rw [ihl printable (stops_cons ⟨rfl, rfl⟩ _), scan_blank solid,
          scan_sign type.punctuation_sign, scan_blank (print_solid printable' _)]
        simp only [Option.map_map, Function.comp_def]
      _ = (scan scannerRules rest).map ((Exp.bin type left right).tokens ++ ·) := by
        rw [ihr printable' (stops_cons ⟨rfl, rfl⟩ _), scan_sign rfl]
        simp [Function.comp_def, Exp.tokens]

/-- The text of an expression is scanned, and the tokens are those of this expression alone;
so no two expressions have one text. -/
theorem scan_print (exp : Exp) (printable : exp.Printable) :
    (∃ tokens, Munch.scan scannerRules exp.print = some tokens ∧
      ∀ other, expGrammar.Derives 0 tokens other ↔ other = exp) ∧
    ∀ other : Exp, other.Printable → other.print = exp.print → other = exp := by
  have scanned {exp : Exp} (printable : exp.Printable) :
      Munch.scan scannerRules exp.print = some exp.tokens := by
    have stops : Stops [] := by rintro _ ⟨⟩
    have scanned := scan_print_append printable stops
    rw [List.append_nil, Munch.scan_nil, Option.map_some, List.append_nil] at scanned
    exact scanned
  have parsed (exp other : Exp) : expGrammar.Derives 0 exp.tokens other ↔ other = exp := by
    constructor
    · intro derives
      exact derives.unique (derives_tokens exp 0) rfl
    · rintro rfl
      exact derives_tokens other 0
  refine ⟨⟨exp.tokens, scanned printable, parsed exp⟩, fun other printable' same => ?_⟩
  have tokens : other.tokens = exp.tokens := by
    rw [← Option.some_inj, ← scanned printable', ← scanned printable, same]
  exact (parsed exp other).mp (tokens ▸ derives_tokens other 0)

theorem scan_print_sum :
    let exp : Exp := .bin .add (.num 1) (.var "x")
    exp.Printable ∧
      (∃ tokens, Munch.scan scannerRules exp.print = some tokens ∧
        ∀ other, expGrammar.Derives 0 tokens other ↔ other = exp) ∧
      ∀ other : Exp, other.Printable → other.print = exp.print → other = exp := by
  have printable : (Exp.bin .add (.num 1) (.var "x")).Printable :=
    ⟨(by decide : (1 : BitVec 32).toNat < 2147483648), by decide, by decide⟩
  exact ⟨printable, scan_print _ printable⟩

end CssLab.Mcc
