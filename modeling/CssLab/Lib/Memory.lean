import Mathlib.Algebra.Ring.Nat

/-! Byte-addressed memory with little-endian accesses of any number of bytes.
An address is a natural number. Whether it fits a machine word is the business
of the processor that computes it. -/

namespace CssLab.Memory

/-- The contents of every byte. -/
abbrev Bytes := Nat → BitVec 8

/-- The unsigned number held by `count` bytes, least significant byte first. -/
def load (memory : Bytes) (address : Nat) : Nat → Nat
  | 0 => 0
  | count + 1 => (memory address).toNat + 256 * load memory (address + 1) count

/-- Write the low `count` bytes of a number, least significant byte first. -/
def store (memory : Bytes) (address count value : Nat) : Bytes := fun place =>
  if address ≤ place ∧ place < address + count then
    BitVec.ofNat 8 (value / 256 ^ (place - address))
  else memory place

theorem store_inside {memory : Bytes} (lower : address ≤ place) (upper : place < address + count) :
    store memory address count value place = BitVec.ofNat 8 (value / 256 ^ (place - address)) :=
  if_pos ⟨lower, upper⟩

theorem store_outside {memory : Bytes} (outside : place < address ∨ address + count ≤ place) :
    store memory address count value place = memory place :=
  if_neg (by omega)

theorem load_congr {memory other : Bytes}
    (same : ∀ place, address ≤ place → place < address + count → other place = memory place) :
    load other address count = load memory address count := by
  induction count generalizing address with
  | zero => rfl
  | succ count ih =>
    have head := same address (Nat.le_refl _) (by omega)
    have tail : load other (address + 1) count = load memory (address + 1) count :=
      ih (fun place lower upper => same place (by omega) (by omega))
    simp only [load, head, tail]

/-- The induction carries a position inside the stored number: reading starts
`skipped` bytes after its first byte. -/
private theorem load_store_from {memory : Bytes} (room : skipped + count ≤ size) :
    load (store memory address size value) (address + skipped) count =
      value / 256 ^ skipped % 256 ^ count := by
  induction count generalizing skipped with
  | zero => simp [load, Nat.mod_one]
  | succ count ih =>
    have head : store memory address size value (address + skipped) =
        BitVec.ofNat 8 (value / 256 ^ skipped) := by
      rw [store_inside (by omega) (by omega), Nat.add_sub_cancel_left]
    have tail : load (store memory address size value) (address + (skipped + 1)) count =
        value / 256 ^ (skipped + 1) % 256 ^ count := ih (by omega)
    rw [load, head, Nat.add_assoc, tail, pow_succ 256 skipped, ← Nat.div_div_eq_div_mul,
      pow_succ' 256 count, Nat.mod_mul]
    simp

/-- What was stored is read back, cut to the bytes that were written. -/
theorem load_store {memory : Bytes} :
    load (store memory address count value) address count = value % 256 ^ count := by
  have whole : 0 + count ≤ count := by omega
  simpa using load_store_from whole

/-- A store does not change what is read from bytes it does not touch. -/
theorem load_store_apart {memory : Bytes}
    (apart : place + width ≤ address ∨ address + count ≤ place) :
    load (store memory address count value) place width = load memory place width :=
  load_congr (fun _ lower upper => store_outside (by omega))

theorem load_zero {memory : Bytes}
    (zeroed : ∀ place, address ≤ place → place < address + count → memory place = 0) :
    load memory address count = 0 := by
  induction count generalizing address with
  | zero => rfl
  | succ count ih =>
    have head := zeroed address (Nat.le_refl _) (by omega)
    have tail : load memory (address + 1) count = 0 :=
      ih (fun place lower upper => zeroed place (by omega) (by omega))
    simp [load, head, tail]

/-- Nothing outside `[low, high)` has changed. -/
def SameOutside (low high : Nat) (before after : Bytes) : Prop :=
  ∀ place, place < low ∨ high ≤ place → after place = before place

theorem SameOutside.refl (low high : Nat) (memory : Bytes) :
    SameOutside low high memory memory := fun _ _ => rfl

theorem SameOutside.trans (first : SameOutside low high before middle)
    (second : SameOutside low high middle after) : SameOutside low high before after :=
  fun place outside => (second place outside).trans (first place outside)

theorem SameOutside.mono (same : SameOutside low high before after)
    (lower : low' ≤ low) (upper : high ≤ high') : SameOutside low' high' before after :=
  fun place outside => same place (by omega)

theorem SameOutside.store {memory : Bytes} (lower : low ≤ address)
    (upper : address + count ≤ high) :
    SameOutside low high memory (Memory.store memory address count value) :=
  fun _ outside => store_outside (by omega)

theorem SameOutside.load (same : SameOutside low high before after)
    (apart : address + count ≤ low ∨ high ≤ address) :
    Memory.load after address count = Memory.load before address count :=
  load_congr (fun place _ _ => same place (by omega))

end CssLab.Memory
