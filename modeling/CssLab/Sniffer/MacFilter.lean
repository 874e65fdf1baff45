import CssLab.Sniffer.Packet
import Mathlib.Tactic.IntervalCases

/-! `filterByMacAddress` of `filter.c`, for addresses as its comment has them and for those
that `mac_header` prints. -/

namespace CssLab.Sniffer

open Http Printf

/-- The value of an upper-case digit; for any other character the last value is kept. -/
def digit (character : UInt8) (temp : Nat) : Nat :=
  if 48 ≤ character ∧ character ≤ 57 then character.toNat - 48
  else if 65 ≤ character ∧ character ≤ 70 then character.toNat - 65 + 10
  else temp

/-- So many rounds of the loop, from this place in the text on. -/
def decodeFrom (macAddr : Pointer) : Nat → Nat → Nat → Nat → List Nat
  | 0, _, _, _ => []
  | rounds + 1, i, lTemp, rTemp =>
    let lTemp := digit (macAddr i) lTemp
    let rTemp := digit (macAddr (i + 1)) rTemp
    (lTemp * 16 + rTemp) :: decodeFrom macAddr rounds (i + 3) lTemp rTemp

/-- The loop over `i` from 0 to 15. -/
def resultArray (macAddr : Pointer) : List Nat := decodeFrom macAddr 6 0 0 0

def filterByMacAddress (buffer macAddr : Pointer) (type : Int) : Bool :=
  if type = 0 then
    (List.range 6).all fun i => (resultArray macAddr).getD i 0 == (buffer.add 6 i).toNat
  else (List.range 6).all fun i => (resultArray macAddr).getD i 0 == (buffer i).toNat

/-- The address of a frame that is compared. -/
def addressAt (buffer : Pointer) (type : Int) : Pointer := if type = 0 then buffer.add 6 else buffer

/-- A pointer to a string. -/
def string (bytes : List UInt8) : Pointer := fun place => bytes.getD place 0

/-- An address as the comment has it, like `AC-23-74-EF-7D-9F`. -/
def documented (address : Pointer) : List UInt8 :=
  (text "-").intercalate ((List.range 6).map fun place => hexUpper 2 (address place).toNat)

/-- The first and the second digit of a byte of an address. -/
def left (address : Pointer) (place : Nat) : Nat := (address place).toNat / 16

def right (address : Pointer) (place : Nat) : Nat := (address place).toNat % 16

section Decode

variable (macAddr : Pointer)

/-- The digit that the loop has after a number of rounds from a place on. -/
def digitAfter (i temp : Nat) : Nat → Nat
  | 0 => digit (macAddr i) temp
  | rounds + 1 => digit (macAddr (i + 3 * (rounds + 1))) (digitAfter i temp rounds)

theorem digitAfter_succ (i temp rounds : Nat) : digitAfter macAddr i temp (rounds + 1) =
    digitAfter macAddr (i + 3) (digit (macAddr i) temp) rounds := by
  induction rounds with
  | zero => rfl
  | succ rounds ih =>
    rw [digitAfter, ih, digitAfter]
    congr 2
    omega

theorem decodeFrom_getD (rounds i lTemp rTemp : Nat) {place : Nat} (inside : place < rounds) :
    (decodeFrom macAddr rounds i lTemp rTemp).getD place 0 =
      digitAfter macAddr i lTemp place * 16 + digitAfter macAddr (i + 1) rTemp place := by
  induction rounds generalizing i lTemp rTemp place with
  | zero => omega
  | succ rounds ih =>
    cases place with
    | zero => rfl
    | succ place =>
      rw [decodeFrom, List.getD_cons_succ, ih _ _ _ (by omega), digitAfter_succ, digitAfter_succ,
        Nat.add_right_comm i 3 1]

/-- Whether what is decoded is an address, by the two digits of each byte. -/
def Decodes (address : Pointer) : Prop :=
  ∀ place < 6, digitAfter macAddr 0 0 place = left address place ∧
    digitAfter macAddr 1 0 place = right address place

end Decode

theorem digit_lt (character : UInt8) {temp : Nat} (small : temp < 16) :
    digit character temp < 16 := by
  unfold digit
  split
  · have bound : character.toNat ≤ 57 := UInt8.le_iff_toNat_le.mp (And.right ‹_›)
    omega
  · split
    · have bound : character.toNat ≤ 70 := UInt8.le_iff_toNat_le.mp (And.right ‹_›)
      omega
    · exact small

theorem digitAfter_lt (macAddr : Pointer) (i rounds : Nat) :
    digitAfter macAddr i 0 rounds < 16 := by
  induction rounds with
  | zero => exact digit_lt _ (by decide)
  | succ rounds ih => exact digit_lt _ ih

/-- The filter returns whether the address it looks at was decoded. -/
theorem filterByMacAddress_iff (buffer macAddr : Pointer) (type : Int) :
    filterByMacAddress buffer macAddr type = true ↔ Decodes macAddr (addressAt buffer type) := by
  have each (address : Pointer) : ((List.range 6).all fun i =>
      (resultArray macAddr).getD i 0 == (address i).toNat) = true ↔ Decodes macAddr address := by
    rw [List.all_eq_true]
    simp only [List.mem_range, beq_iff_eq]
    refine forall₂_congr fun place inside => ?_
    have high := digitAfter_lt macAddr 0 place
    have low := digitAfter_lt macAddr 1 place
    rw [resultArray, decodeFrom_getD _ _ _ _ _ inside, left, right, Nat.zero_add]
    omega
  unfold filterByMacAddress addressAt
  split
  · exact each (buffer.add 6)
  · exact each buffer

/-- An address in hexadecimal, with these bytes for the digits. -/
def spelled (byte : Nat → UInt8) (address : Pointer) : List UInt8 :=
  (text "-").intercalate ((List.range 6).map fun place =>
    [byte (left address place), byte (right address place)])

theorem documented_eq (address : Pointer) :
    documented address = spelled upperDigit address := by
  rw [documented, spelled]
  congr 1
  exact List.map_congr_left fun place _ => hexUpper_two (address place).toNat_lt

theorem macAddress_eq (address : Pointer) : macAddress address = spelled lowerDigit address := by
  rw [macAddress, spelled]
  congr 1
  exact List.map_congr_left fun place _ => hexLower_two (address place).toNat_lt

theorem spelled_left (byte : Nat → UInt8) (address : Pointer) {place : Nat} (inside : place < 6) :
    string (spelled byte address) (0 + 3 * place) = byte (left address place) := by
  interval_cases place <;> rfl

theorem spelled_right (byte : Nat → UInt8) (address : Pointer) {place : Nat}
    (inside : place < 6) :
    string (spelled byte address) (1 + 3 * place) = byte (right address place) := by
  interval_cases place <;> rfl

theorem left_lt (address : Pointer) (place : Nat) : left address place < 16 := by
  have bound := (address place).toNat_lt
  unfold left
  omega

theorem right_lt (address : Pointer) (place : Nat) : right address place < 16 :=
  Nat.mod_lt _ (by decide)

theorem same_digits (first second : Pointer) (place : Nat) :
    (left first place = left second place ∧ right first place = right second place) ↔
      first place = second place := by
  rw [← UInt8.toNat_inj, left, left, right, right]
  omega

theorem digit_upper {value : Nat} (small : value < 16) (temp : Nat) :
    digit (upperDigit value) temp = value := by
  interval_cases value <;> rfl

/-- A letter is a digit that the loop does not know. -/
theorem digit_lower {value : Nat} (small : value < 16) (temp : Nat) :
    digit (lowerDigit value) temp = if value ≤ 9 then value else temp := by
  interval_cases value <;> rfl

theorem digitAfter_upper {macAddr : Pointer} {i : Nat} {digits : Nat → Nat}
    (small : ∀ place, digits place < 16)
    (written : ∀ place < 6, macAddr (i + 3 * place) = upperDigit (digits place))
    {place : Nat} (inside : place < 6) : digitAfter macAddr i 0 place = digits place := by
  cases place with
  | zero => exact (congrArg (digit · 0) (written 0 inside)).trans (digit_upper (small 0) 0)
  | succ place => rw [digitAfter, written _ inside, digit_upper (small _)]

/-- The filter returns true exactly for the address that is given as its comment says. -/
theorem filterByMacAddress_documented (buffer m : Pointer) :
    (filterByMacAddress buffer (string (documented m)) 0 = true ↔
      ∀ place < 6, buffer (6 + place) = m place) ∧
    (filterByMacAddress buffer (string (documented m)) 1 = true ↔
      ∀ place < 6, buffer place = m place) := by
  have each (address : Pointer) : Decodes (string (documented m)) address ↔
      ∀ place < 6, address place = m place := by
    refine forall₂_congr fun place inside => ?_
    rw [documented_eq,
      digitAfter_upper (left_lt m) (fun place => spelled_left upperDigit m) inside,
      digitAfter_upper (right_lt m) (fun place => spelled_right upperDigit m) inside,
      same_digits, eq_comm]
  rw [filterByMacAddress_iff, filterByMacAddress_iff, each, each]
  exact ⟨Iff.rfl, Iff.rfl⟩

/-- Digits of which each letter is read as the digit before it, with a zero before the first. -/
def kept (digits : Nat → Nat) : Nat → Nat
  | 0 => if digits 0 ≤ 9 then digits 0 else 0
  | place + 1 => if digits (place + 1) ≤ 9 then digits (place + 1) else kept digits place

/-- The digit before another, and a zero before the first. -/
def before (digits : Nat → Nat) : Nat → Nat
  | 0 => 0
  | place + 1 => digits place

/-- None of the digits of an address is a letter. -/
def Numeric (address : Pointer) : Prop :=
  ∀ place < 6, left address place ≤ 9 ∧ right address place ≤ 9

/-- Besides, no digit is the same as the one before it on its side. -/
def Legible (address : Pointer) : Prop :=
  Numeric address ∧ ∀ place < 6, left address place ≠ before (left address) place ∧
    right address place ≠ before (right address) place

theorem kept_eq (digits : Nat → Nat) (place : Nat) : kept digits place =
    if digits place ≤ 9 then digits place else before (kept digits) place := by
  cases place with
  | zero => rfl
  | succ place => rfl

theorem kept_le (digits : Nat → Nat) (place : Nat) : kept digits place ≤ 9 := by
  induction place with
  | zero =>
    rw [kept]
    split
    · assumption
    · omega
  | succ place ih =>
    rw [kept]
    split
    · assumption
    · exact ih

/-- A digit in a text stands for one of an address: it is the same, or it is a letter where
the address has the digit before again. -/
def StandsFor (written : Nat) (digits : Nat → Nat) (place : Nat) : Prop :=
  written = digits place ∨ 9 < written ∧ digits place = before digits place

/-- The texts that are read as some digits: their own, and where a digit is the same as the
one before it a letter may stand for it. -/
theorem kept_iff {digits written : Nat → Nat} (numeric : ∀ place < 6, digits place ≤ 9) :
    (∀ place < 6, kept written place = digits place) ↔
      ∀ place < 6, StandsFor (written place) digits place := by
  constructor
  · intro reads place inside
    have reading := reads place inside
    rw [kept_eq] at reading
    split at reading
    · exact .inl reading
    · refine .inr ⟨Nat.lt_of_not_le ‹_›, ?_⟩
      rw [← reading]
      cases place with
      | zero => rfl
      | succ place => exact reads place (by omega)
  · intro stands place inside
    induction place with
    | zero =>
      rw [kept_eq]
      rcases stands 0 inside with same | ⟨letter, repeated⟩
      · rw [same, if_pos (numeric 0 inside)]
      · rw [if_neg (Nat.not_le_of_lt letter), repeated, before, before]
    | succ place ih =>
      rw [kept_eq]
      rcases stands (place + 1) inside with same | ⟨letter, repeated⟩
      · rw [same, if_pos (numeric _ inside)]
      · rw [if_neg (Nat.not_le_of_lt letter), repeated, before, before, ih (by omega)]

theorem digitAfter_lower {macAddr : Pointer} {i : Nat} {digits : Nat → Nat}
    (small : ∀ place, digits place < 16)
    (written : ∀ place < 6, macAddr (i + 3 * place) = lowerDigit (digits place))
    {place : Nat} (inside : place < 6) : digitAfter macAddr i 0 place = kept digits place := by
  induction place with
  | zero => exact (congrArg (digit · 0) (written 0 inside)).trans (digit_lower (small 0) 0)
  | succ place ih =>
    rw [digitAfter, written _ inside, digit_lower (small _), ih (by omega), kept]

theorem decodes_printed (m address : Pointer) : Decodes (string (macAddress m)) address ↔
    (∀ place < 6, kept (left m) place = left address place) ∧
      ∀ place < 6, kept (right m) place = right address place := by
  rw [← forall₂_and]
  refine forall₂_congr fun place inside => ?_
  rw [macAddress_eq,
    digitAfter_lower (left_lt m) (fun place => spelled_left lowerDigit m) inside,
    digitAfter_lower (right_lt m) (fun place => spelled_right lowerDigit m) inside]

/-- Without a letter the text is one that the comment has too. -/
theorem decodes_numeric {m : Pointer} (numeric : Numeric m) (address : Pointer) :
    Decodes (string (macAddress m)) address ↔ ∀ place < 6, address place = m place := by
  rw [decodes_printed, ← forall₂_and]
  refine forall₂_congr fun place inside => ?_
  rw [kept_eq, if_pos (numeric place inside).1, kept_eq, if_pos (numeric place inside).2,
    same_digits, eq_comm]

theorem decodes_own (address : Pointer) :
    Decodes (string (macAddress address)) address ↔ Numeric address := by
  constructor
  · intro decodes place inside
    obtain ⟨lefts, rights⟩ := (decodes_printed address address).mp decodes
    rw [← lefts place inside, ← rights place inside]
    exact ⟨kept_le _ place, kept_le _ place⟩
  · intro numeric
    exact (decodes_numeric numeric address).mpr fun _ _ => rfl

theorem decodes_iff {address : Pointer} (numeric : Numeric address) (m : Pointer) :
    Decodes (string (macAddress m)) address ↔
      (∀ place < 6, StandsFor (left m place) (left address) place) ∧
        ∀ place < 6, StandsFor (right m place) (right address) place := by
  rw [decodes_printed, kept_iff fun place inside => (numeric place inside).1,
    kept_iff fun place inside => (numeric place inside).2]

/-- The address with another byte at a place. -/
def withByte (address : Pointer) (place : Nat) (byte : UInt8) : Pointer :=
  fun other => if other = place then byte else address other

/-- That byte may have letters for digits that are the same as the ones before them. -/
theorem decodes_withByte {address : Pointer} (numeric : Numeric address) {place : Nat}
    {byte : UInt8} (lefts : StandsFor (byte.toNat / 16) (left address) place)
    (rights : StandsFor (byte.toNat % 16) (right address) place) :
    Decodes (string (macAddress (withByte address place byte))) address := by
  refine (decodes_iff numeric _).mpr ⟨fun other _ => ?_, fun other _ => ?_⟩
  · by_cases same : other = place
    · subst other
      rw [StandsFor, left, withByte, if_pos rfl]
      exact lefts
    · rw [StandsFor, left, withByte, if_neg same]
      exact .inl rfl
  · by_cases same : other = place
    · subst other
      rw [StandsFor, right, withByte, if_pos rfl]
      exact rights
    · rw [StandsFor, right, withByte, if_neg same]
      exact .inl rfl

/-- Only its own text is read as an address exactly when the address is legible. -/
theorem decodes_only_own {address : Pointer} (numeric : Numeric address) :
    (∀ m, (¬ ∀ place < 6, address place = m place) →
      ¬ Decodes (string (macAddress m)) address) ↔ Legible address := by
  constructor
  · intro only
    refine ⟨numeric, fun place inside => ?_⟩
    have own {byte : UInt8} (lefts : StandsFor (byte.toNat / 16) (left address) place)
        (rights : StandsFor (byte.toNat % 16) (right address) place) :
        address place = byte := by
      by_contra other
      refine only _ (fun same => other ?_) (decodes_withByte numeric lefts rights)
      have spelled := same place inside
      rwa [withByte, if_pos rfl] at spelled
    obtain ⟨high, low⟩ := numeric place inside
    constructor
    · intro repeated
      have byte : (UInt8.ofNat (160 + right address place)).toNat = 160 + right address place := by
        rw [UInt8.toNat_ofNat', Nat.mod_eq_of_lt (by omega)]
      have same := own (.inr ⟨by rw [byte]; omega, repeated⟩) (.inl (by rw [byte]; omega))
      rw [left, same, byte] at high
      omega
    · intro repeated
      have byte : (UInt8.ofNat (16 * left address place + 10)).toNat =
          16 * left address place + 10 := by
        rw [UInt8.toNat_ofNat', Nat.mod_eq_of_lt (by omega)]
      have same := own (.inl (by rw [byte]; omega)) (.inr ⟨by rw [byte]; omega, repeated⟩)
      rw [right, same, byte] at low
      omega
  · rintro ⟨-, distinct⟩ m other decodes
    obtain ⟨lefts, rights⟩ := (decodes_iff numeric m).mp decodes
    refine other fun place inside => (same_digits address m place).mp ⟨?_, ?_⟩
    · rcases lefts place inside with same | ⟨-, repeated⟩
      · exact same.symm
      · exact absurd repeated (distinct place inside).1
    · rcases rights place inside with same | ⟨-, repeated⟩
      · exact same.symm
      · exact absurd repeated (distinct place inside).2

/-- For the texts that `mac_header` prints: those without a letter match their own address
only; the own text of a frame matches exactly when it has no letter; and it alone matches
exactly when, besides, no digit is the same as the one before it on its side. -/
theorem filterByMacAddress_printed (buffer : Pointer) (type : Int) :
    (∀ m, Numeric m → (filterByMacAddress buffer (string (macAddress m)) type = true ↔
      ∀ place < 6, addressAt buffer type place = m place)) ∧
    (filterByMacAddress buffer (string (macAddress (addressAt buffer type))) type = true ↔
      Numeric (addressAt buffer type)) ∧
    ((filterByMacAddress buffer (string (macAddress (addressAt buffer type))) type = true ∧
      ∀ m, (¬ ∀ place < 6, addressAt buffer type place = m place) →
        filterByMacAddress buffer (string (macAddress m)) type = false) ↔
      Legible (addressAt buffer type)) := by
  simp only [← Bool.not_eq_true, filterByMacAddress_iff]
  refine ⟨fun m numeric => decodes_numeric numeric _, decodes_own _, ?_⟩
  rw [decodes_own]
  constructor
  · rintro ⟨numeric, only⟩
    exact (decodes_only_own numeric).mp only
  · intro legible
    exact ⟨legible.1, (decodes_only_own legible.1).mpr legible⟩

/-- The text of an address with letters does not match it, and one of another address does
match where the letters are left out. -/
theorem printed_mismatch :
    filterByMacAddress (fun _ => 0xAC) (string (macAddress fun _ => 0xAC)) 0 = false ∧
      filterByMacAddress (fun _ => 0) (string (macAddress fun _ => 0xAC)) 0 = true := by
  constructor
  · rw [← Bool.not_eq_true, filterByMacAddress_iff]
    intro decodes
    exact absurd ((decodes_own fun _ => 0xAC).mp decodes 0 (by decide)).1 (by decide)
  · have numeric : Numeric fun _ => 0 := fun _ _ =>
      (by decide : (0 : UInt8).toNat / 16 ≤ 9 ∧ (0 : UInt8).toNat % 16 ≤ 9)
    refine (filterByMacAddress_iff ..).mpr ((decodes_iff numeric _).mpr ⟨?_, ?_⟩)
    · intro place inside
      refine .inr ⟨(by decide : 9 < (0xAC : UInt8).toNat / 16), ?_⟩
      cases place <;> rfl
    · intro place inside
      refine .inr ⟨(by decide : 9 < (0xAC : UInt8).toNat % 16), ?_⟩
      cases place <;> rfl

end CssLab.Sniffer
