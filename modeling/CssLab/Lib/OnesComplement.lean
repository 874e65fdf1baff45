import Mathlib.Data.Nat.ModEq
import Mathlib.Algebra.BigOperators.Group.List.Basic

/-! Ones' complement sums of words below a radix: what is carried out of a word is added
at its other end. -/

namespace CssLab.OnesComplement

variable {radix : Nat}

/-- A number with what is above the radix added below it. -/
def carry (radix total : Nat) : Nat := total % radix + total / radix

def add (radix left right : Nat) : Nat := carry radix (left + right)

def sum (radix : Nat) (words : List Nat) : Nat := words.foldl (add radix) 0

/-- What carrying comes to: zero only for zero, and else the rest by one less than the
radix, where that rest is not zero. -/
def reduced (radix total : Nat) : Nat :=
  if total = 0 then 0 else (total - 1) % (radix - 1) + 1

theorem carry_lt (wide : 1 < radix) {total : Nat} (large : radix ≤ total) :
    carry radix total < total := by
  have parts := Nat.div_add_mod total radix
  have some : 0 < total / radix := Nat.div_pos large (by omega)
  have less : total / radix < radix * (total / radix) :=
    (Nat.lt_mul_iff_one_lt_left some).mpr wide
  unfold carry
  omega

/-- Carry until nothing is left to carry. -/
def fold (radix total : Nat) : Nat :=
  if 1 < radix ∧ radix ≤ total then fold radix (carry radix total) else total
termination_by total
decreasing_by
  rename_i more
  exact carry_lt more.1 more.2

theorem carry_modEq (wide : 1 < radix) (total : Nat) :
    carry radix total ≡ total [MOD radix - 1] := by
  obtain ⟨less, rfl⟩ := Nat.exists_eq_add_one_of_ne_zero (by omega : radix ≠ 0)
  have parts := Nat.div_add_mod total (less + 1)
  rw [Nat.add_sub_cancel, Nat.ModEq, ← Nat.add_mul_mod_self_left (carry (less + 1) total) less
    (total / (less + 1))]
  congr 1
  rw [Nat.add_mul, Nat.one_mul] at parts
  unfold carry
  omega

theorem carry_eq_zero {total : Nat} : carry radix total = 0 ↔ total = 0 := by
  have parts := Nat.div_add_mod total radix
  constructor
  · intro none
    obtain ⟨rest, quotient⟩ := Nat.add_eq_zero_iff.mp none
    rw [quotient, rest] at parts
    exact parts.symm
  · rintro rfl
    simp [carry]

theorem reduced_congr {left right : Nat} (same : left ≡ right [MOD radix - 1])
    (zero : left = 0 ↔ right = 0) : reduced radix left = reduced radix right := by
  unfold reduced
  by_cases none : left = 0
  · rw [if_pos none, if_pos (zero.mp none)]
  · have some : right ≠ 0 := mt zero.mpr none
    rw [if_neg none, if_neg some]
    obtain ⟨left, rfl⟩ := Nat.exists_eq_add_one_of_ne_zero none
    obtain ⟨right, rfl⟩ := Nat.exists_eq_add_one_of_ne_zero some
    exact congrArg (· + 1) (Nat.ModEq.add_right_cancel' 1 same)

theorem reduced_of_lt {total : Nat} (small : total < radix) : reduced radix total = total := by
  unfold reduced
  split
  · omega
  · rw [Nat.mod_eq_of_lt (by omega)]
    omega

theorem reduced_eq_zero {total : Nat} : reduced radix total = 0 ↔ total = 0 := by
  unfold reduced
  split
  · exact iff_of_true rfl ‹_›
  · exact iff_of_false (Nat.succ_ne_zero _) ‹_›

theorem reduced_lt (wide : 1 < radix) (total : Nat) : reduced radix total < radix := by
  unfold reduced
  split
  · omega
  · have below := Nat.mod_lt (total - 1) (by omega : 0 < radix - 1)
    omega

theorem reduced_modEq (total : Nat) : reduced radix total ≡ total [MOD radix - 1] := by
  unfold reduced
  split
  · subst total
    rfl
  · have rest := (Nat.mod_modEq (total - 1) (radix - 1)).add_right 1
    rwa [Nat.sub_add_cancel (by omega)] at rest

/-- All digits are set for a sum of ones and for its other multiples, but not for zero. -/
theorem reduced_ones (wide : 1 < radix) {total : Nat} :
    reduced radix total = radix - 1 ↔ total ≠ 0 ∧ radix - 1 ∣ total := by
  have same : reduced radix total ≡ total [MOD radix - 1] := reduced_modEq total
  constructor
  · intro ones
    rw [ones] at same
    refine ⟨fun none => ?_, Nat.modEq_zero_iff_dvd.mp (same.symm.trans ?_)⟩
    · rw [reduced_eq_zero.mpr none] at ones
      omega
    · exact Nat.modEq_zero_iff_dvd.mpr (Nat.dvd_refl _)
  · rintro ⟨some, divides⟩
    have ones : reduced radix total = reduced radix (radix - 1) := reduced_congr
      ((Nat.modEq_zero_iff_dvd.mpr divides).trans
        (Nat.modEq_zero_iff_dvd.mpr (Nat.dvd_refl _)).symm)
      (iff_of_false some (by omega))
    rw [ones, reduced_of_lt (by omega)]

theorem reduced_carry_add (wide : 1 < radix) (total more : Nat) :
    reduced radix (carry radix total + more) = reduced radix (total + more) := by
  apply reduced_congr ((carry_modEq wide total).add_right more)
  rw [Nat.add_eq_zero_iff, Nat.add_eq_zero_iff, carry_eq_zero]

theorem fold_eq (wide : 1 < radix) (total : Nat) : fold radix total = reduced radix total := by
  induction total using Nat.strongRecOn with
  | ind total ih =>
    rw [fold]
    by_cases large : radix ≤ total
    · have step := reduced_carry_add wide total 0
      rw [Nat.add_zero, Nat.add_zero] at step
      rw [if_pos ⟨wide, large⟩, ih _ (carry_lt wide large), step]
    · rw [if_neg fun both => large both.2, reduced_of_lt (by omega)]

theorem add_lt {left right : Nat} (small : left < radix)
    (small' : right < radix) : add radix left right < radix := by
  unfold add carry
  rcases Nat.lt_or_ge (left + right) radix with fits | large
  · rw [Nat.mod_eq_of_lt fits, Nat.div_eq_of_lt fits]
    exact fits
  · have one : (left + right) / radix = 1 := Nat.div_eq_of_lt_le (by omega) (by omega)
    have parts := Nat.div_add_mod (left + right) radix
    rw [one] at parts ⊢
    omega

private theorem foldl_add (wide : 1 < radix) {words : List Nat}
    (small : ∀ word ∈ words, word < radix) {start : Nat} (below : start < radix) :
    words.foldl (add radix) start = reduced radix (start + words.sum) := by
  induction words generalizing start with
  | nil => rw [List.foldl_nil, List.sum_nil, Nat.add_zero, reduced_of_lt below]
  | cons word words ih =>
    rw [List.forall_mem_cons] at small
    rw [List.foldl_cons, ih small.2 (add_lt below small.1), add, reduced_carry_add wide,
      List.sum_cons, Nat.add_assoc]

theorem sum_eq (wide : 1 < radix) {words : List Nat} (small : ∀ word ∈ words, word < radix) :
    sum radix words = reduced radix words.sum := by
  rw [sum, foldl_add wide small (by omega), Nat.zero_add]

/-- A sum and its complement make the word that has all its digits set. -/
theorem reduced_complement (wide : 1 < radix) (total : Nat) :
    reduced radix (total + (radix - 1 - reduced radix total)) = radix - 1 := by
  have below := reduced_lt wide total
  have whole : reduced radix total + (radix - 1 - reduced radix total) = radix - 1 := by omega
  have same : total + (radix - 1 - reduced radix total) ≡ radix - 1 [MOD radix - 1] := by
    have moved : total + (radix - 1 - reduced radix total) ≡
        reduced radix total + (radix - 1 - reduced radix total) [MOD radix - 1] :=
      (reduced_modEq total).symm.add_right _
    rwa [whole] at moved
  rw [reduced_congr same, reduced_of_lt (by omega)]
  refine iff_of_false (fun none => ?_) (by omega)
  obtain rfl : total = 0 := by omega
  rw [reduced, if_pos rfl] at none
  omega

/-- In a sum of two words' width, one that wraps around too, a small addend shows. -/
theorem reduced_wrapped (wide : 1 < radix) {total more : Nat} (small : more < radix - 1)
    (same : reduced radix ((total + more) % (radix * radix)) =
      reduced radix (total % (radix * radix))) : more = 0 := by
  have square : 0 < radix * radix := Nat.mul_pos (by omega) (by omega)
  have below := Nat.mod_lt total square
  rw [Nat.add_mod, Nat.mod_eq_of_lt (a := more) (Nat.lt_of_lt_of_le (by omega)
    (Nat.le_mul_self radix))] at same
  generalize total % (radix * radix) = total at same below
  have congruent : (total + more) % (radix * radix) ≡ total [MOD radix - 1] :=
    (reduced_modEq _).symm.trans ((congrArg (· % (radix - 1)) same).trans (reduced_modEq total))
  rcases Nat.lt_or_ge (total + more) (radix * radix) with fits | wraps
  · rw [Nat.mod_eq_of_lt fits] at congruent
    have divides : radix - 1 ∣ more :=
      (Nat.modEq_zero_iff_dvd).mp (Nat.ModEq.add_left_cancel' total congruent)
    exact Nat.eq_zero_of_dvd_of_lt divides small
  · -- What wraps around is a one, so the addend would be one and the sum zero.
    have rest : (total + more) % (radix * radix) = total + more - radix * radix := by
      rw [Nat.mod_eq_sub_mod wraps, Nat.mod_eq_of_lt]
      have product := Nat.le_mul_self radix
      omega
    have one : radix * radix ≡ 1 [MOD radix - 1] := by
      have unit := Nat.add_modEq_left (n := radix - 1) (a := 1)
      rw [Nat.sub_add_cancel (by omega)] at unit
      exact unit.mul unit
    have shifted := congruent.add one
    rw [rest, Nat.sub_add_cancel wraps] at shifted
    have unit : more ≡ 1 [MOD radix - 1] := Nat.ModEq.add_left_cancel' total shifted
    cases more with
    | zero => rfl
    | succ more =>
      have divides : radix - 1 ∣ more :=
        (Nat.modEq_zero_iff_dvd).mp (Nat.ModEq.add_right_cancel' 1 unit)
      obtain rfl : more = 0 := Nat.eq_zero_of_dvd_of_lt divides (by omega)
      have none : (total + (0 + 1)) % (radix * radix) = 0 := by omega
      rw [none, reduced_eq_zero.mpr rfl, eq_comm, reduced_eq_zero] at same
      have product := Nat.le_mul_self radix
      omega

/-- As many rounds of carrying as it takes come to the end. -/
theorem fold_iterate (wide : 1 < radix) (total : Nat) :
    ∃ rounds, (carry radix)^[rounds] total = fold radix total ∧ fold radix total < radix := by
  induction total using Nat.strongRecOn with
  | ind total ih =>
    rw [fold]
    by_cases large : radix ≤ total
    · obtain ⟨rounds, reached, below⟩ := ih _ (carry_lt wide large)
      rw [if_pos ⟨wide, large⟩]
      exact ⟨rounds + 1, reached, below⟩
    · rw [if_neg fun both => large both.2]
      exact ⟨0, rfl, Nat.lt_of_not_le large⟩

/-- A word of two digits, the other one first. -/
def swap (base word : Nat) : Nat := word % base * base + word / base

section Swap

variable {base : Nat}

theorem swap_eq_zero (wide : 1 < base) {word : Nat} : swap base word = 0 ↔ word = 0 := by
  have parts := Nat.div_add_mod word base
  constructor
  · intro none
    obtain ⟨low, high⟩ := Nat.add_eq_zero_iff.mp none
    have rest : word % base = 0 := by
      rcases Nat.mul_eq_zero.mp low with rest | narrow
      · exact rest
      · omega
    rw [high, rest] at parts
    exact parts.symm
  · rintro rfl
    simp [swap]

theorem swap_lt (square : radix = base * base) {word : Nat} (small : word < radix) :
    swap base word < radix := by
  rw [square] at small ⊢
  have some : 0 < base := Nat.pos_of_mul_pos_left (Nat.zero_lt_of_lt small)
  have high : word / base < base := Nat.div_lt_of_lt_mul small
  have low : word % base + 1 ≤ base := Nat.mod_lt word some
  calc word % base * base + word / base
    _ < word % base * base + base := Nat.add_lt_add_left high _
    _ = (word % base + 1) * base := (Nat.succ_mul ..).symm
    _ ≤ base * base := Nat.mul_le_mul_right base low

theorem swap_modEq (wide : 1 < base) (square : radix = base * base) (word : Nat) :
    swap base word ≡ base * word [MOD radix - 1] := by
  have more : 0 < radix := square ▸ Nat.mul_pos (by omega) (by omega)
  have one : radix ≡ 1 [MOD radix - 1] := by
    have rest := Nat.add_modEq_left (n := radix - 1) (a := 1)
    rwa [Nat.sub_add_cancel more] at rest
  have parts : base * word = word % base * base + radix * (word / base) := by
    conv_lhs => rw [← Nat.div_add_mod word base, Nat.mul_add, ← Nat.mul_assoc, ← square]
    rw [Nat.add_comm, Nat.mul_comm base (word % base)]
  rw [parts, swap]
  refine Nat.ModEq.add_left _ ?_
  have scaled := (one.mul_right (word / base)).symm
  rwa [Nat.one_mul] at scaled

theorem sum_swap_modEq (wide : 1 < base) (square : radix = base * base) (words : List Nat) :
    (words.map (swap base)).sum ≡ base * words.sum [MOD radix - 1] := by
  induction words with
  | nil => rfl
  | cons word words ih =>
    rw [List.map_cons, List.sum_cons, List.sum_cons, Nat.mul_add]
    exact (swap_modEq wide square word).add ih

theorem sum_swap_eq_zero (wide : 1 < base) (words : List Nat) :
    (words.map (swap base)).sum = 0 ↔ words.sum = 0 := by
  induction words with
  | nil => rfl
  | cons word words ih =>
    rw [List.map_cons, List.sum_cons, List.sum_cons, Nat.add_eq_zero_iff, Nat.add_eq_zero_iff,
      swap_eq_zero wide, ih]

/-- The sum of words does not depend on the order of the digits but for that of its own. -/
theorem reduced_swap (wide : 1 < base) (square : radix = base * base) (words : List Nat) :
    reduced radix (words.map (swap base)).sum = swap base (reduced radix words.sum) := by
  have large : 1 < radix := square ▸ Nat.lt_of_lt_of_le wide (Nat.le_mul_self base)
  have scaled : base * reduced radix words.sum ≡ base * words.sum [MOD radix - 1] :=
    (reduced_modEq words.sum).mul_left base
  rw [← reduced_of_lt (swap_lt square (reduced_lt large words.sum))]
  apply reduced_congr
  · exact (sum_swap_modEq wide square words).trans
      (scaled.symm.trans (swap_modEq wide square _).symm)
  · rw [sum_swap_eq_zero wide, swap_eq_zero wide, reduced_eq_zero]

end Swap

end CssLab.OnesComplement
