import CssLab.Lib.LostUpdate
import Mathlib.Data.Fintype.Basic

/-! The threads of `partB/race_condition.c`, which count up and down without a lock. -/

namespace CssLab.Sync.RaceCondition

open Transition Interleaving LostUpdate

def numThreads : Nat := 10

def numIterations : Nat := 10000

/-- `count++` -/
def incrementCount : Int → Local → Option (Int × Local) := add 1 numIterations

/-- `count--` -/
def decrementCount : Int → Local → Option (Int × Local) := add (-1) numIterations

/-- What `main` has the threads run, the first half of them the one and the others the other. -/
def start (self : Fin numThreads) (count : Int) (own : Local) (_ : Unit) : Option (Int × Local) :=
  if self < numThreads / 2 then incrementCount count own else decrementCount count own

/-- One step of any of the threads. -/
abbrev threads : State (Fin numThreads) Int Local → Fin numThreads × Unit →
    Option (State (Fin numThreads) Int Local) :=
  Interleaving.step start

/-- `count` is 0 at first. -/
def created : State (Fin numThreads) Int Local := ⟨0, fun _ => initial⟩

def upper : Finset (Fin numThreads) := Finset.univ.filter fun self => self < numThreads / 2

theorem start_eq : start = thread (countdown upper) numIterations := by
  funext self count own _
  rw [start, thread, countdown]
  by_cases which : self < numThreads / 2
  · rw [if_pos which, if_pos (by simp [upper, which])]
    rfl
  · rw [if_neg which, if_neg (by simp [upper, which])]
    rfl

theorem upper_card : upper.card = 5 ∧ upperᶜ.card = 5 := by
  decide

/-- The count stays between what all counts down and what all counts up make, so that none of them
overflows, and `main` can print every value between the two. -/
theorem printed_iff :
    (∀ state, Reachable threads created state →
      -50000 ≤ state.shared ∧ state.shared ≤ 50000) ∧
    ∀ value, (∃ state, Reachable threads created state ∧
      (∀ self, (state.locals self).point = .exited) ∧ state.shared = value) ↔
      -50000 ≤ value ∧ value ≤ 50000 := by
  have some : upper.Nonempty := Finset.card_pos.mp (upper_card.1 ▸ Nat.succ_pos 4)
  have some' : upperᶜ.Nonempty := Finset.card_pos.mp (upper_card.2 ▸ Nat.succ_pos 4)
  rw [threads, start_eq]
  refine ⟨fun state reachable => ?_, fun value => ?_⟩
  · have within := shared_within reachable
    rwa [upper_card.1, upper_card.2] at within
  · have final := final_iff some some' (Nat.succ_pos 9999) value
    rwa [upper_card.1, upper_card.2] at final

end CssLab.Sync.RaceCondition
