import Mathlib.Data.List.Basic
import Mathlib.Algebra.Order.Ring.Int

namespace CssLab.Ring

/-- The `count` slots from `first` on, in order. -/
def slots (capacity first : Int) : Nat → List Int
  | 0 => []
  | count + 1 => slots capacity first count ++ [(first + count) % capacity]

theorem mem_slots : slot ∈ slots capacity first count ↔
    ∃ offset < count, slot = (first + offset) % capacity := by
  induction count with
  | zero => simp [slots]
  | succ count ih =>
    rw [slots, List.mem_append, ih, List.mem_singleton]
    constructor
    · rintro (⟨offset, inside, rfl⟩ | rfl)
      · exact ⟨offset, by omega, rfl⟩
      · exact ⟨count, by omega, rfl⟩
    · rintro ⟨offset, inside, rfl⟩
      by_cases last : offset = count
      · exact Or.inr (by rw [last])
      · exact Or.inl ⟨offset, by omega, rfl⟩

/-- The slot after a run that does not fill the ring is not in the run. -/
theorem next_notMem_slots {count : Nat} (room : (count : Int) < capacity) :
    (first + count) % capacity ∉ slots capacity first count := by
  intro member
  obtain ⟨offset, inside, same⟩ := mem_slots.mp member
  have multiple := Int.emod_eq_emod_iff_emod_sub_eq_zero.mp same
  have distance : first + (count : Int) - (first + offset) = count - offset := by omega
  rw [distance, Int.emod_eq_of_lt (by omega) (by omega)] at multiple
  omega

theorem slots_emod : slots capacity (first % capacity) count = slots capacity first count := by
  induction count with
  | zero => rfl
  | succ count ih => rw [slots, slots, ih, Int.emod_add_emod]

theorem slots_cons :
    slots capacity first (count + 1) = first % capacity :: slots capacity (first + 1) count := by
  induction count with
  | zero => simp [slots]
  | succ count ih =>
    have last : first + ((count + 1 : Nat) : Int) = first + 1 + count := by omega
    rw [slots, ih, last, slots, List.cons_append]

/-- A run that is not empty is its first slot and the run from the next one on. -/
theorem slots_succ (lower : 0 ≤ first) (upper : first < capacity) :
    slots capacity first (count + 1) =
      first :: slots capacity ((first + 1) % capacity) count := by
  rw [slots_cons, slots_emod, Int.emod_eq_of_lt lower upper]

/-- The entries, each with its slot, lie in the slots from `first` on. -/
structure Holds (capacity first : Int) (data : Int → α) (entries : List (Int × α)) : Prop where
  slots : entries.map Prod.fst = slots capacity first entries.length
  stored : ∀ entry ∈ entries, data entry.1 = entry.2

theorem Holds.next_free {entries : List (Int × α)} (holds : Holds capacity first data entries)
    (room : (entries.length : Int) < capacity) :
    (first + entries.length) % capacity ∉ entries.map Prod.fst := by
  rw [holds.slots]
  exact next_notMem_slots room

theorem Holds.push {entries : List (Int × α)} (holds : Holds capacity first data entries)
    (room : (entries.length : Int) < capacity) (item : α) :
    Holds capacity first (Function.update data ((first + entries.length) % capacity) item)
      (entries ++ [((first + entries.length) % capacity, item)]) where
  slots := by
    rw [List.map_append, holds.slots, List.length_append]
    rfl
  stored := by
    intro entry member
    rcases List.mem_append.mp member with old | new
    · have apart : entry.1 ≠ (first + entries.length) % capacity := by
        intro same
        exact holds.next_free room (same ▸ List.mem_map_of_mem old)
      rw [Function.update_of_ne apart]
      exact holds.stored entry old
    · rw [List.mem_singleton.mp new, Function.update_self]

/-- The oldest entry is in the first slot, and the others come after it. -/
theorem Holds.pop (holds : Holds capacity first data (entry :: rest)) :
    entry.1 = first % capacity ∧ data (first % capacity) = entry.2 ∧
      Holds capacity (first + 1) data rest := by
  have slots := holds.slots
  rw [List.map_cons, List.length_cons, slots_cons] at slots
  obtain ⟨place, others⟩ := List.cons.inj slots
  refine ⟨place, ?_, others, ?_⟩
  · rw [← place]
    exact holds.stored entry List.mem_cons_self
  · intro later member
    exact holds.stored later (List.mem_cons_of_mem entry member)

end CssLab.Ring
