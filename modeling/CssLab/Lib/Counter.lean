import Mathlib.Data.BitVec

namespace CssLab.Counter

/-- It shows how often it has been incremented until the sign changes. -/
theorem toInt_eq_iff (count : Nat) : (BitVec.ofNat 32 count).toInt = count ↔ count < 2 ^ 31 := by
  constructor
  · intro shown
    have upper := BitVec.toInt_lt (x := BitVec.ofNat 32 count)
    omega
  · intro few
    have low : (BitVec.ofNat 32 count).toNat = count := by
      rw [BitVec.toNat_ofNat, Nat.mod_eq_of_lt (by omega)]
    rw [BitVec.toInt_eq_toNat_of_lt (by omega), low]

theorem toInt_add_one {value : BitVec 32} (room : value.toInt + 1 < 2 ^ 31) :
    (value + 1).toInt = value.toInt + 1 := by
  refine BitVec.toInt_add_of_not_saddOverflow ?_
  have lower := BitVec.le_toInt value
  simp [BitVec.saddOverflow]
  omega

theorem toInt_sub_one {value : BitVec 32} (room : -2 ^ 31 ≤ value.toInt - 1) :
    (value - 1).toInt = value.toInt - 1 := by
  refine BitVec.toInt_sub_of_not_ssubOverflow ?_
  have upper := BitVec.toInt_lt (x := value)
  simp [BitVec.ssubOverflow]
  omega

end CssLab.Counter
