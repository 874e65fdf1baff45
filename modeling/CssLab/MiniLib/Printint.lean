import CssLab.Lib.Printf

/-! `printint` of `mini-lib.c`. -/

namespace CssLab.MiniLib

open Http Block

/-- `-val`, which overflows for the least value. -/
def negate (val : BitVec 32) : Option Int :=
  if val = BitVec.intMin 32 then none else some (-val.toInt)

/-- The loop that stores the digits of `x` from an index of `buf` on, and the index behind
the last one. -/
def storeDigits (buf : Block 100) (i : Nat) (x : Int) : Option (Block 100 × Nat) :=
  if x = 0 then some (buf, i)
  else do
    let bit := x.tmod 10
    let buf ← buf.write i [UInt8.ofInt (bit + 48)]
    storeDigits buf (i + 1) (x.tdiv 10)
termination_by x.natAbs
decreasing_by
  rw [Int.natAbs_tdiv]
  exact Nat.div_lt_self (Int.natAbs_pos.mpr ‹_›) (by decide)

/-- The loop from the index before this one down to 0. -/
def printBack (buf : Block 100) : Nat → Option (List UInt8)
  | 0 => some []
  | j + 1 => do
    let digit ← buf.bytes[j]?
    let rest ← printBack buf j
    some (digit :: rest)

/-- The characters that `printint` writes, of which `printchar` writes each. -/
def printint (buf : Block 100) (val : BitVec 32) : Option (List UInt8) := do
  let x ← if val.toInt < 0 then negate val else some val.toInt
  let (buf, i) ← storeDigits buf 0 x
  let digits ← printBack buf i
  some ((if val.toInt < 0 then text "-" else []) ++ digits)

/-- The digits that the loop comes to: none for zero. -/
def digitsOf (number : Nat) : List UInt8 := if number = 0 then [] else decimal number

/-- The last digit is the remainder; the others are those of the quotient. -/
theorem digitsOf_eq {number : Nat} (nonzero : number ≠ 0) :
    digitsOf number = digitsOf (number / 10) ++ [UInt8.ofNat (number % 10 + 48)] := by
  have digit (small : Nat) (below : small < 10) :
      UInt8.ofNat small.digitChar.toNat = UInt8.ofNat (small + 48) := by
    rw [Nat.toNat_digitChar_of_lt_ten below, Nat.add_comm]
  rw [digitsOf, if_neg nonzero, decimal_eq]
  rcases Nat.lt_or_ge number 10 with single | more
  · rw [Nat.toDigits_of_lt_base single, digitsOf, if_pos (Nat.div_eq_of_lt single),
      Nat.mod_eq_of_lt single, List.map_singleton, digit number single, List.nil_append]
  · have quotient : number / 10 ≠ 0 := Nat.ne_of_gt (Nat.div_pos more (by decide))
    rw [Nat.toDigits_of_base_le (by decide) more, List.map_append, List.map_singleton,
      digit (number % 10) (Nat.mod_lt _ (by decide)), digitsOf, if_neg quotient, decimal_eq]

theorem length_digitsOf (number : Nat) (small : number < 2147483648) :
    (digitsOf number).length ≤ 10 := by
  rw [digitsOf]
  split
  · exact Nat.zero_le _
  · rw [decimal_eq, List.length_map]
    exact (Nat.length_toDigits_le_iff (by decide) (by decide)).mpr
      (Nat.lt_trans small (by decide))

theorem ofInt_digit {digit : Nat} (below : digit < 10) :
    UInt8.ofInt ((digit : Int) + 48) = UInt8.ofNat (digit + 48) := by
  have whole : ((digit : Int) + 48) % 2 ^ 8 = ((digit + 48 : Nat) : Int) := by omega
  rw [UInt8.ofInt, whole, Int.toNat_natCast]

/-- Behind what is in the array already, the loop stores the digits from the last to the first. -/
theorem storeDigits_eq (buf : Block 100) (i number : Nat)
    (room : i + (digitsOf number).length ≤ 100) :
    ∃ after, storeDigits buf i number = some (after, i + (digitsOf number).length) ∧
      after.bytes.take (i + (digitsOf number).length) =
        buf.bytes.take i ++ (digitsOf number).reverse := by
  induction number using Nat.strongRecOn generalizing buf i with
  | ind number ih =>
    rw [storeDigits]
    by_cases zero : number = 0
    · subst zero
      exact ⟨buf, if_pos rfl, by simp [digitsOf]⟩
    · have goesOn : ¬(number : Int) = 0 := by exact_mod_cast zero
      have bit : UInt8.ofInt ((number : Int).tmod 10 + 48) = UInt8.ofNat (number % 10 + 48) :=
        ofInt_digit (Nat.mod_lt number (by decide))
      have quotient : (number : Int).tdiv 10 = ((number / 10 : Nat) : Int) := rfl
      have digits := digitsOf_eq zero
      rw [digits, List.length_append, List.length_singleton] at room
      obtain ⟨stored, written⟩ := write_some buf i [UInt8.ofNat (number % 10 + 48)] (by
        rw [List.length_singleton]
        omega)
      have front : stored.bytes.take (i + 1) =
          buf.bytes.take i ++ [UInt8.ofNat (number % 10 + 48)] := by
        rw [bytes_write written]
        apply List.take_left'
        rw [List.length_append, List.length_take, buf.length_bytes, List.length_singleton]
        omega
      obtain ⟨after, ran, bytes⟩ := ih (number / 10) (Nat.div_lt_self (Nat.pos_of_ne_zero zero)
        (by decide)) stored (i + 1) (by omega)
      refine ⟨after, ?_, ?_⟩
      · dsimp only
        rw [if_neg goesOn, bit, quotient, written, Option.bind_eq_bind, Option.bind_some, ran,
          digits, List.length_append, List.length_singleton]
        congr 2
        omega
      · rw [digits, List.length_append, List.length_singleton, Nat.add_comm (digitsOf _).length,
          ← Nat.add_assoc, bytes, front, List.reverse_append, List.append_assoc]
        rfl

theorem printBack_eq (buf : Block 100) (count : Nat) (within : count ≤ 100) :
    printBack buf count = some (buf.bytes.take count).reverse := by
  induction count with
  | zero => rfl
  | succ count ih =>
    have below : count < buf.bytes.length := by
      rw [buf.length_bytes]
      exact within
    rw [printBack, ih (Nat.le_of_succ_le within), List.getElem?_eq_getElem below,
      List.take_succ_eq_append_getElem below, List.reverse_append]
    rfl

/-- What the second loop reads are the digits in their order. -/
theorem printBack_storeDigits (buf : Block 100) (x : Int) (positive : 0 ≤ x)
    (small : x.natAbs < 2147483648) :
    ((storeDigits buf 0 x).bind fun stored => printBack stored.1 stored.2) =
      some (digitsOf x.natAbs) := by
  obtain ⟨number, rfl⟩ := Int.eq_ofNat_of_zero_le positive
  have short := length_digitsOf number small
  obtain ⟨after, ran, bytes⟩ := storeDigits_eq buf 0 number (by omega)
  rw [Nat.zero_add] at ran bytes
  rw [ran, Option.bind_some, printBack_eq _ _ (by omega), bytes, List.take_zero,
    List.nil_append, List.reverse_reverse]
  rfl

/-- But for the overflow, what is printed are the sign and the digits. -/
theorem printint_eq (buf : Block 100) (val : BitVec 32) :
    printint buf val = if val = BitVec.intMin 32 then none else
      some ((if val.toInt < 0 then text "-" else []) ++ digitsOf val.toInt.natAbs) := by
  have least : (BitVec.intMin 32).toInt = -2147483648 := by decide
  have low := val.le_toInt
  have high := val.toInt_lt
  have run (x : Int) (positive : 0 ≤ x) (small : x.natAbs < 2147483648) :
      (do
        let (buf, i) ← storeDigits buf 0 x
        let digits ← printBack buf i
        some ((if val.toInt < 0 then text "-" else []) ++ digits)) =
      some ((if val.toInt < 0 then text "-" else []) ++ digitsOf x.natAbs) := by
    have both := printBack_storeDigits buf x positive small
    simp only [Option.bind_eq_bind, ← Option.bind_assoc] at both ⊢
    rw [both, Option.bind_some]
  rw [printint]
  by_cases overflows : val = BitVec.intMin 32
  · have negative : val.toInt < 0 := by
      rw [overflows, least]
      decide
    rw [if_pos negative, negate, if_pos overflows, if_pos overflows]
    rfl
  · have above : val.toInt ≠ -2147483648 := fun same =>
      overflows (BitVec.toInt_inj.mp (same.trans least.symm))
    rw [if_neg overflows]
    by_cases negative : val.toInt < 0
    · rw [if_pos negative, negate, if_neg overflows, Option.bind_eq_bind, Option.bind_some,
        ← Int.natAbs_neg val.toInt]
      exact run (-val.toInt) (by omega) (by omega)
    · rw [if_neg negative, Option.bind_eq_bind, Option.bind_some]
      exact run val.toInt (by omega) (by omega)

theorem signed_eq (number : Int) :
    Printf.signed number = (if number < 0 then text "-" else []) ++ decimal number.natAbs := by
  rw [Printf.signed]
  split
  · rfl
  · rfl

theorem printint_of_ne (buf : Block 100) {val : BitVec 32} (nonzero : val ≠ 0)
    (above : val ≠ BitVec.intMin 32) : printint buf val = some (Printf.signed val.toInt) := by
  have digits : val.toInt.natAbs ≠ 0 := by
    rw [Int.natAbs_ne_zero, ← BitVec.toInt_zero, Ne, BitVec.toInt_inj]
    exact nonzero
  rw [printint_eq, if_neg above, signed_eq, digitsOf, if_neg digits]

/-- The numeral is printed, and nothing else happens, exactly for every `int` but zero and
the least one. -/
theorem printint_numeral_iff (buf : Block 100) (val : BitVec 32) :
    printint buf val = some (Printf.signed val.toInt) ↔ val ≠ 0 ∧ val ≠ BitVec.intMin 32 := by
  refine ⟨fun printed => ⟨?_, ?_⟩, fun both => printint_of_ne buf both.1 both.2⟩
  · rintro rfl
    rw [printint_eq] at printed
    exact absurd printed (by decide)
  · rintro rfl
    rw [printint_eq, if_pos rfl] at printed
    cases printed

/-- Zero is printed as nothing, and the least `int` is negated. -/
theorem zero_unprinted :
    printint (.zero 100) 0 ≠ some (Printf.signed 0) ∧
      printint (.zero 100) (BitVec.intMin 32) = none := by
  rw [printint_eq, printint_eq, if_pos rfl]
  decide

end CssLab.MiniLib
