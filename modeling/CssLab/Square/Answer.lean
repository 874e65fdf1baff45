import CssLab.Lib.Printf
import CssLab.Web.Server

namespace CssLab.Square

open Block Http
open Web (isspace)

/-- `BUF_SIZE` -/
abbrev bufSize : Nat := 1024

def isDigit (byte : UInt8) : Bool := 48 ≤ byte ∧ byte ≤ 57

/-- The sign of a number and what follows it. -/
def sign : List UInt8 → Bool × List UInt8
  | 45 :: rest => (true, rest)
  | 43 :: rest => (false, rest)
  | bytes => (false, bytes)

/-- The digits at the front of a text. -/
def magnitude (bytes : List UInt8) : Nat :=
  (bytes.takeWhile isDigit).foldl (fun number digit => 10 * number + (digit.toNat - 48)) 0

/-- The first letter of what asks for a square. -/
def isLetter (byte : UInt8) : Bool := byte = 105 ∨ byte = 102

/-- `strtol` in base ten: none if nothing stops it. -/
def strtol (bytes : List UInt8) : Option Int :=
  let signed := sign (bytes.dropWhile isspace)
  let digits := signed.2.takeWhile isDigit
  if digits.length = signed.2.length then none
  else
    let value : Int := magnitude signed.2
    some (max (-9223372036854775808)
      (min (if signed.1 then -value else value) 9223372036854775807))

/-- `atoi` -/
def atoi (bytes : List UInt8) : Option (BitVec 32) := (strtol bytes).map (BitVec.ofInt 32)

/-- What `atof`, the square of the `float` and then `%f` make of the bytes from a pointer
on. A string is read, and the text is a number of at most 39 digits before the point,
or it says that it is none. -/
structure Floats where
  square : List UInt8 → Option (List UInt8)
  square_isSome : ∀ bytes, 0 ∈ bytes → (square bytes).isSome
  length_square : ∀ bytes text, square bytes = some text → text.length ≤ 46
  printed : ∀ bytes text, square bytes = some text → 0 ∉ text ∧ 32 ∉ text

/-- Floats as far as they are whole and their squares exact. -/
def wholeFloats : Floats where
  square bytes :=
    if 0 ∈ bytes then
      some (if magnitude bytes < 4096 then
        decimal (magnitude bytes * magnitude bytes) ++ text ".000000" else text "inf")
    else none
  square_isSome := by
    intro bytes zero
    rw [if_pos zero]
    rfl
  length_square := by
    intro bytes printed squared
    split at squared
    · cases squared
      have point : (text ".000000").length = 7 := rfl
      split
      · rename_i small
        have digits : (decimal (magnitude bytes * magnitude bytes)).length ≤ 8 := by
          rw [decimal_eq, List.length_map]
          refine (Nat.length_toDigits_le_iff (by decide) (by decide)).mpr ?_
          exact Nat.lt_trans (Nat.mul_self_lt_mul_self small) (by decide)
        rw [List.length_append, point]
        omega
      · decide
    · cases squared
  printed := by
    intro bytes printed squared
    split at squared
    · cases squared
      split
      · have digits := decimal_digits (magnitude bytes * magnitude bytes)
        constructor
        · rw [List.mem_append, not_or]
          exact ⟨fun zero => absurd (digits 0 zero) (by decide), by decide⟩
        · rw [List.mem_append, not_or]
          exact ⟨fun blank => absurd (digits 32 blank) (by decide), by decide⟩
      · decide
    · cases squared

def falseFormat : List UInt8 := text "flase format"

variable (floats : Floats)

/-- The text that `sprintf` puts into the buffer; an overflow of the square wraps. -/
def answer (buffer : Block bufSize) : Option (List UInt8) := do
  let first ← buffer.bytes[0]?
  if first = 105 then
    let n ← atoi (buffer.pointer 2)
    some (Printf.signed (n * n).toInt)
  else if first = 102 then floats.square (buffer.pointer 2)
  else some falseFormat

/-- `sprintf` -/
def sprintf (buffer : Block bufSize) (string : List UInt8) : Option (Block bufSize) :=
  buffer.write 0 (string ++ [0])

theorem mem_sign {bytes : List UInt8} (zero : 0 ∈ bytes) : 0 ∈ (sign bytes).2 := by
  unfold sign
  split
  · simpa using zero
  · simpa using zero
  · exact zero

theorem atoi_isSome {bytes : List UInt8} (zero : 0 ∈ bytes) : (atoi bytes).isSome := by
  have kept : 0 ∈ bytes.dropWhile isspace := by
    have parts := List.takeWhile_append_dropWhile (p := isspace) (l := bytes)
    rw [← parts, List.mem_append] at zero
    refine zero.resolve_left fun member => ?_
    exact absurd (List.mem_takeWhile_imp member) (by decide)
  have signed := mem_sign kept
  have stops : ((sign (bytes.dropWhile isspace)).2.takeWhile isDigit).length ≠
      (sign (bytes.dropWhile isspace)).2.length := by
    intro same
    rw [← List.IsPrefix.eq_of_length (List.takeWhile_prefix _) same] at signed
    exact absurd (List.mem_takeWhile_imp signed) (by decide)
  rw [atoi, Option.isSome_map, strtol]
  simp only [if_neg stops, Option.isSome_some]

theorem answer_isSome {buffer : Block bufSize} (zero : 0 ∈ buffer.pointer 2) :
    ∃ text, answer floats buffer = some text := by
  obtain ⟨n, read⟩ := Option.isSome_iff_exists.mp (atoi_isSome zero)
  obtain ⟨text, squared⟩ := Option.isSome_iff_exists.mp (floats.square_isSome _ zero)
  have some : 0 < buffer.bytes.length := by
    rw [buffer.length_bytes]
    decide
  have first : buffer.bytes[0]? = .some buffer.bytes[0] := List.getElem?_eq_getElem some
  simp only [answer, first, Option.bind_eq_bind, Option.bind_some, read, squared]
  split
  · exact ⟨_, rfl⟩
  · split
    · exact ⟨_, rfl⟩
    · exact ⟨_, rfl⟩

theorem length_signed_le (number : BitVec 32) :
    (Printf.signed number.toInt).length ≤ 11 := by
  have low := number.le_toInt
  have high := number.toInt_lt
  have digits : (decimal number.toInt.natAbs).length ≤ 10 := by
    rw [decimal_eq, List.length_map]
    refine (Nat.length_toDigits_le_iff (by decide) (by decide)).mpr ?_
    simp only [Nat.reduceSub, Int.reducePow] at low high
    omega
  unfold Printf.signed
  split
  · have minus : (text "-").length = 1 := rfl
    rw [List.length_append, minus]
    omega
  · omega

theorem length_answer_le {sent : List UInt8} (answered : answer floats buffer = some sent) :
    sent.length ≤ 46 := by
  obtain ⟨first, -, answered⟩ := Option.bind_eq_some_iff.mp answered
  split at answered
  · obtain ⟨n, -, same⟩ := Option.bind_eq_some_iff.mp answered
    cases same
    exact Nat.le_trans (length_signed_le _) (by decide)
  · split at answered
    · exact floats.length_square _ _ answered
    · cases answered
      decide

/-- Only the answer to what is no request has a blank in it. -/
theorem answer_clear (answered : answer floats buffer = some sent) :
    0 ∉ sent ∧ (32 ∉ sent ↔ ∃ first, buffer.bytes[0]? = some first ∧ isLetter first) := by
  obtain ⟨first, starts, answered⟩ := Option.bind_eq_some_iff.mp answered
  rw [starts]
  by_cases int : first = 105
  · rw [if_pos int] at answered
    obtain ⟨n, -, same⟩ := Option.bind_eq_some_iff.mp answered
    cases same
    have digits := Printf.signed_digits (n * n).toInt
    refine ⟨fun zero => absurd (digits 0 zero) (by decide), ?_⟩
    exact iff_of_true (fun blank => absurd (digits 32 blank) (by decide))
      ⟨first, rfl, by simp [isLetter, int]⟩
  · rw [if_neg int] at answered
    by_cases float : first = 102
    · rw [if_pos float] at answered
      have printed := floats.printed _ _ answered
      exact ⟨printed.1, iff_of_true printed.2 ⟨first, rfl, by simp [isLetter, float]⟩⟩
    · rw [if_neg float] at answered
      cases answered
      refine ⟨by decide, iff_of_false (by decide) ?_⟩
      rintro ⟨first', same, letter⟩
      cases same
      simp [isLetter, int, float] at letter

theorem sprintf_answer (answered : answer floats buffer = some sent) :
    ∃ after, sprintf buffer sent = some after ∧ cstring after.bytes = some sent := by
  have short := length_answer_le floats answered
  exact write_word buffer (answer_clear floats answered).1 (Nat.lt_of_le_of_lt short (by decide))

end CssLab.Square
