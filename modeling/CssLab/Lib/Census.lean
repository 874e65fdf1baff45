import CssLab.Lib.Transition
import Mathlib.Data.Fintype.Basic
import Mathlib.Algebra.BigOperators.Group.Finset.Piecewise

namespace CssLab.Interleaving

variable {Thread Shared Local Action : Type*} [Fintype Thread]

/-- The sum of what each thread holds. -/
def total (weight : Local → Nat) (locals : Thread → Local) : Nat := ∑ self, weight (locals self)

/-- The number of threads that are `inside`. -/
def census (inside : Local → Bool) (locals : Thread → Local) : Nat :=
  (Finset.univ.filter fun self => inside (locals self)).card

theorem census_eq_total (inside : Local → Bool) (locals : Thread → Local) :
    census inside locals = total (fun own => (inside own).toNat) locals := by
  rw [census, total, Finset.card_filter]
  apply Finset.sum_congr rfl
  intro self _
  cases inside (locals self) <;> rfl

theorem census_eq_zero {inside : Local → Bool} {locals : Thread → Local} :
    census inside locals = 0 ↔ ∀ self, inside (locals self) = false := by
  rw [census, Finset.card_eq_zero, Finset.filter_eq_empty_iff]
  simp

theorem census_pos {inside : Local → Bool} {locals : Thread → Local}
    (here : inside (locals self)) : 0 < census inside locals :=
  Finset.card_pos.mpr ⟨self, Finset.mem_filter.mpr ⟨Finset.mem_univ self, here⟩⟩

/-- At most one thread at some place means that any two there are the same. -/
theorem eq_of_census_le_one {inside : Local → Bool} {locals : Thread → Local}
    (single : census inside locals ≤ 1) (here : inside (locals self))
    (there : inside (locals other)) : self = other :=
  Finset.card_le_one.mp single self (by simpa using here) other (by simpa using there)

/-- Who is at one place is also at another that includes it. -/
theorem census_mono {inside within : Local → Bool} {locals : Thread → Local}
    (sub : ∀ own, inside own → within own) : census inside locals ≤ census within locals := by
  apply Finset.card_le_card
  intro self member
  rw [Finset.mem_filter] at member ⊢
  exact ⟨member.1, sub _ member.2⟩

variable [DecidableEq Thread]

/-- What the thread that moves gains or loses is what all of them do. -/
theorem total_update (weight : Local → Nat) (locals : Thread → Local) (self : Thread)
    (own : Local) :
    total weight (Function.update locals self own) + weight (locals self) =
      total weight locals + weight own := by
  have others : ∑ other ∈ Finset.univ.erase self,
        weight (Function.update locals self own other) =
      ∑ other ∈ Finset.univ.erase self, weight (locals other) := by
    apply Finset.sum_congr rfl
    intro other member
    rw [Function.update_of_ne (Finset.ne_of_mem_erase member)]
  have after := Finset.add_sum_erase Finset.univ
    (fun other => weight (Function.update locals self own other)) (Finset.mem_univ self)
  have before := Finset.add_sum_erase Finset.univ
    (fun other => weight (locals other)) (Finset.mem_univ self)
  simp only [Function.update_self] at after
  rw [total, total, ← after, ← before, others]
  omega

theorem census_update (inside : Local → Bool) (locals : Thread → Local) (self : Thread)
    (own : Local) :
    census inside (Function.update locals self own) + (inside (locals self)).toNat =
      census inside locals + (inside own).toNat := by
  rw [census_eq_total, census_eq_total]
  exact total_update (fun own => (inside own).toNat) locals self own

end CssLab.Interleaving
