import CssLab.Lib.Http

namespace CssLab.Printf

open Http

/-- `%d` -/
def signed (number : Int) : List UInt8 :=
  if number < 0 then text "-" ++ decimal number.natAbs else decimal number.natAbs

/-- Digits with as many zeros before them as the precision asks for. -/
def padded (precision : Nat) (digits : List UInt8) : List UInt8 :=
  List.replicate (precision - digits.length) 48 ++ digits

/-- `%.<precision>x` -/
def hexLower (precision number : Nat) : List UInt8 :=
  padded precision ((Nat.toDigits 16 number).map fun digit => UInt8.ofNat digit.toNat)

/-- `%.<precision>X` -/
def hexUpper (precision number : Nat) : List UInt8 :=
  padded precision ((Nat.toDigits 16 number).map fun digit => UInt8.ofNat digit.toUpper.toNat)

/-- The bytes of a hexadecimal digit. -/
def lowerDigit (digit : Nat) : UInt8 := UInt8.ofNat digit.digitChar.toNat

def upperDigit (digit : Nat) : UInt8 := UInt8.ofNat digit.digitChar.toUpper.toNat

theorem padded_two {number : Nat} (small : number < 256) (byte : Char → UInt8)
    (zero : byte '0' = 48) : padded 2 ((Nat.toDigits 16 number).map byte) =
      [byte (number / 16).digitChar, byte (number % 16).digitChar] := by
  rcases Nat.lt_or_ge number 16 with one | two
  · rw [Nat.toDigits_of_lt_base one, Nat.div_eq_of_lt one, Nat.mod_eq_of_lt one]
    change [48, byte number.digitChar] = [byte '0', byte number.digitChar]
    rw [zero]
  · have high : 0 < number / 16 := Nat.div_pos two (by decide)
    have digits := Nat.toDigits_append_toDigits (b := 16) (n := number / 16) (d := number % 16)
      (by decide) high (Nat.mod_lt _ (by decide))
    rw [Nat.div_add_mod, Nat.toDigits_of_lt_base (n := number / 16) (by omega),
      Nat.toDigits_of_lt_base (n := number % 16) (Nat.mod_lt _ (by decide))] at digits
    rw [← digits]
    rfl

theorem hexLower_two {number : Nat} (small : number < 256) :
    hexLower 2 number = [lowerDigit (number / 16), lowerDigit (number % 16)] :=
  padded_two small (fun digit => UInt8.ofNat digit.toNat) rfl

theorem hexUpper_two {number : Nat} (small : number < 256) :
    hexUpper 2 number = [upperDigit (number / 16), upperDigit (number % 16)] :=
  padded_two small (fun digit => UInt8.ofNat digit.toUpper.toNat) rfl

/-- The digits of a number are read back from their bytes. -/
theorem map_decimal (number : Nat) :
    (decimal number).map (fun byte => Char.ofNat byte.toNat) = Nat.toDigits 10 number := by
  rw [decimal_eq, List.map_map]
  refine (List.map_congr_left fun digit member => ?_).trans (List.map_id _)
  have isDigit := Nat.isDigit_of_mem_toDigits (by decide) (by decide) member
  have bounds : 48 ≤ digit.toNat ∧ digit.toNat ≤ 57 := by
    simpa [Char.isDigit, UInt32.le_iff_toNat_le] using isDigit
  have small : digit.toNat % 256 = digit.toNat := Nat.mod_eq_of_lt (by omega)
  simp only [Function.comp, UInt8.toNat_ofNat', id]
  change Char.ofNat (digit.toNat % 256) = digit
  rw [small, Char.ofNat_toNat]

theorem decimal_injective {first second : Nat} (same : decimal first = decimal second) :
    first = second := by
  have digits : Nat.toDigits 10 first = Nat.toDigits 10 second := by
    rw [← map_decimal, same, map_decimal]
  rw [← Nat.ofDigitChars_ten_toDigits (n := first), digits, Nat.ofDigitChars_ten_toDigits]

/-- What comes before the first stop is what a text starts with up to there. -/
theorem takeWhile_stop {stop : UInt8} {bytes : List UInt8} (clear : stop ∉ bytes)
    (rest : List UInt8) : (bytes ++ stop :: rest).takeWhile (· ≠ stop) = bytes := by
  rw [List.takeWhile_append_of_pos, List.takeWhile_cons_of_neg (by simp), List.append_nil]
  intro byte member
  simpa using ne_of_mem_of_not_mem member clear

/-- Two numbers before the end of a line are equal when the texts from there on are. -/
theorem decimal_line_injective {first second : Nat} {rest rest' : List UInt8}
    (same : decimal first ++ 10 :: rest = decimal second ++ 10 :: rest') : first = second := by
  apply decimal_injective
  rw [← takeWhile_stop (isLine_decimal first).2 rest, same,
    takeWhile_stop (isLine_decimal second).2 rest']

theorem signed_digits (number : Int) : ∀ byte ∈ signed number, byte = 45 ∨ 48 ≤ byte := by
  intro byte member
  unfold signed at member
  split at member
  · rcases List.mem_append.mp member with sign | digit
    · exact .inl (List.mem_singleton.mp sign)
    · exact .inr (decimal_digits _ _ digit)
  · exact .inr (decimal_digits _ _ member)

end CssLab.Printf
