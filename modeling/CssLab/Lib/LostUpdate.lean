import CssLab.Lib.Transition
import Mathlib.Algebra.BigOperators.Ring.Finset
import Mathlib.Algebra.Order.BigOperators.Group.Finset
import Mathlib.Algebra.Order.Ring.Int
import Mathlib.Tactic.Linarith
import Mathlib.Tactic.Ring

/-! Threads that add to a shared cell a number of times each, with a load and a store each time.
What is added between the load and the store of another thread is lost. -/

namespace CssLab.LostUpdate

open Transition Interleaving

inductive Point
  | loop
  | load
  | store
  | exited
  deriving DecidableEq, Repr

structure Local where
  point : Point
  i : Nat
  seen : Int
  deriving DecidableEq

def initial : Local := ⟨.loop, 0, 0⟩

/-- A test of the loop, or one access to the cell. -/
def add (delta : Int) (rounds : Nat) (cell : Int) (own : Local) : Option (Int × Local) :=
  match own.point with
  | .loop =>
    if own.i < rounds then some (cell, { own with point := .load })
    else some (cell, { own with point := .exited })
  | .load => some (cell, { own with seen := cell, point := .store })
  | .store => some (own.seen + delta, { own with i := own.i + 1, point := .loop })
  | .exited => none

variable {Thread : Type*} [DecidableEq Thread]

/-- Each thread has an addend of its own. -/
def thread (delta : Thread → Int) (rounds : Nat) (self : Thread) (cell : Int) (own : Local)
    (_ : Unit) : Option (Int × Local) :=
  add (delta self) rounds cell own

/-- One step of one of the threads. -/
abbrev threads (delta : Thread → Int) (rounds : Nat) :
    State Thread Int Local → Thread × Unit → Option (State Thread Int Local) :=
  Interleaving.step (thread delta rounds)

variable {delta : Thread → Int} {rounds : Nat} {state : State Thread Int Local}

section Schedules

theorem follow_own (self : Thread) (alone : follow (fun now => thread delta rounds self now.1 now.2)
    (state.shared, state.locals self) actions = some (shared, own)) :
    ∃ events after, follow (threads delta rounds) state events = some after ∧
      after.shared = shared ∧ after.locals self = own ∧
      ∀ other, other ≠ self → after.locals other = state.locals other :=
  ⟨_, _, follow_alone self alone, rfl, Function.update_self _ _ _,
    fun _ which => Function.update_of_ne which _ _⟩

/-- A thread that is about to test its loop goes through a round. -/
theorem follow_round (delta : Thread → Int) {self : Thread}
    (point : (state.locals self).point = .loop)
    (more : (state.locals self).i < rounds) :
    ∃ events after, follow (threads delta rounds) state events = some after ∧
      after.shared = state.shared + delta self ∧
      after.locals self = ⟨.loop, (state.locals self).i + 1, state.shared⟩ ∧
      ∀ other, other ≠ self → after.locals other = state.locals other := by
  have alone : follow (fun now => thread delta rounds self now.1 now.2)
      (state.shared, state.locals self) [(), (), ()] = some (state.shared + delta self,
        ⟨.loop, (state.locals self).i + 1, state.shared⟩) := by
    simp only [follow, thread, add, point, if_pos more, Option.bind_some]
  exact follow_own self alone

/-- It loads, and what the others then do will be lost. -/
theorem follow_load (delta : Thread → Int) {self : Thread}
    (point : (state.locals self).point = .loop)
    (more : (state.locals self).i < rounds) :
    ∃ events after, follow (threads delta rounds) state events = some after ∧
      after.shared = state.shared ∧
      after.locals self = ⟨.store, (state.locals self).i, state.shared⟩ ∧
      ∀ other, other ≠ self → after.locals other = state.locals other := by
  have alone : follow (fun now => thread delta rounds self now.1 now.2)
      (state.shared, state.locals self) [(), ()] =
        some (state.shared, ⟨.store, (state.locals self).i, state.shared⟩) := by
    simp only [follow, thread, add, point, if_pos more, Option.bind_some]
  exact follow_own self alone

theorem follow_store (delta : Thread → Int) (rounds : Nat) {self : Thread}
    (own : state.locals self = ⟨.store, i, seen⟩) :
    ∃ events after, follow (threads delta rounds) state events = some after ∧
      after.shared = seen + delta self ∧ after.locals self = ⟨.loop, i + 1, seen⟩ ∧
      ∀ other, other ≠ self → after.locals other = state.locals other := by
  have alone : follow (fun now => thread delta rounds self now.1 now.2)
      (state.shared, state.locals self) [()] = some (seen + delta self, ⟨.loop, i + 1, seen⟩) := by
    rw [own]
    rfl
  exact follow_own self alone

/-- The rounds that some threads have left. -/
def left (rounds : Nat) (group : Finset Thread) (state : State Thread Int Local) : Nat :=
  ∑ self ∈ group, (rounds - (state.locals self).i)

omit [DecidableEq Thread] in
theorem left_initial (rounds : Nat) (group : Finset Thread) :
    left rounds group ⟨0, fun _ => initial⟩ = group.card * rounds := by
  simp [left, initial]

omit [DecidableEq Thread] in
theorem left_congr {group : Finset Thread} {other : State Thread Int Local} (rounds : Nat)
    (same : ∀ self ∈ group, other.locals self = state.locals self) :
    left rounds group other = left rounds group state :=
  Finset.sum_congr rfl fun self inside => by rw [same self inside]

/-- None of these threads is within a round. -/
def Quiet (group : Finset Thread) (state : State Thread Int Local) : Prop :=
  ∀ self ∈ group, (state.locals self).point = .loop

theorem left_round {group : Finset Thread} {self : Thread} {after : State Thread Int Local}
    (inside : self ∈ group) (more : (state.locals self).i < rounds)
    (once : (after.locals self).i = (state.locals self).i + 1)
    (others : ∀ other ∈ group, other ≠ self → after.locals other = state.locals other) :
    left rounds group after + 1 = left rounds group state := by
  unfold left
  rw [← Finset.add_sum_erase group _ inside, ← Finset.add_sum_erase group _ inside, once]
  have same : ∑ other ∈ group.erase self, (rounds - (after.locals other).i) =
      ∑ other ∈ group.erase self, (rounds - (state.locals other).i) :=
    Finset.sum_congr rfl fun other apart => by
      rw [others other (Finset.mem_of_mem_erase apart) (Finset.ne_of_mem_erase apart)]
  rw [same]
  omega

/-- Threads with one addend can do any number of the rounds they have left, one after another. -/
theorem follow_some {group : Finset Thread} {addend : Int} (same : ∀ self ∈ group,
    delta self = addend) (quiet : Quiet group state) (count : Nat)
    (enough : count ≤ left rounds group state) :
    ∃ actions after, follow (threads delta rounds) state actions = some after ∧
      after.shared = state.shared + count * addend ∧ Quiet group after ∧
      left rounds group after + count = left rounds group state ∧
      ∀ self ∉ group, after.locals self = state.locals self := by
  induction count generalizing state with
  | zero => exact ⟨[], state, rfl, by simp, quiet, rfl, fun _ _ => rfl⟩
  | succ count ih =>
    have some : 0 < left rounds group state := Nat.lt_of_lt_of_le (Nat.succ_pos count) enough
    obtain ⟨self, inside, more⟩ := Finset.exists_ne_zero_of_sum_ne_zero some.ne'
    have more : (state.locals self).i < rounds := by omega
    obtain ⟨first, middle, round, stored, own, others⟩ :=
      follow_round delta (quiet self inside) more
    have fewer : left rounds group middle + 1 = left rounds group state :=
      left_round inside more (by rw [own]) fun other _ => others other
    have quiet' : Quiet group middle := by
      intro other member
      by_cases which : other = self
      · rw [which, own]
      · rw [others other which]
        exact quiet other member
    obtain ⟨rest, after, run, shared, rests, less, kept⟩ := ih quiet' (by omega)
    refine ⟨first ++ rest, after, ?_, ?_, rests, by omega, fun other outside => ?_⟩
    · rw [follow_append, round, Option.bind_some, run]
    · rw [shared, stored, same self inside]
      push_cast
      ring
    · rw [kept other outside]
      refine others other ?_
      rintro rfl
      exact outside inside

theorem follow_all (rounds : Nat) {group : Finset Thread} {addend : Int} (same : ∀ self ∈ group,
    delta self = addend) (quiet : Quiet group state) :
    ∃ actions after, follow (threads delta rounds) state actions = some after ∧
      after.shared = state.shared + left rounds group state * addend ∧ Quiet group after ∧
      left rounds group after = 0 ∧ ∀ self ∉ group, after.locals self = state.locals self := by
  obtain ⟨actions, after, run, shared, rests, fewer, kept⟩ :=
    follow_some same quiet _ (Nat.le_refl (left rounds group state))
  exact ⟨actions, after, run, shared, rests, by omega, kept⟩

theorem follow_exits (group : Finset Thread) (quiet : Quiet group state)
    (none : left rounds group state = 0) :
    ∃ actions after, follow (threads delta rounds) state actions = some after ∧
      after.shared = state.shared ∧ (∀ self ∈ group, (after.locals self).point = .exited) ∧
      ∀ self ∉ group, after.locals self = state.locals self := by
  induction group using Finset.induction_on with
  | empty => exact ⟨[], state, rfl, rfl, nofun, fun _ _ => rfl⟩
  | insert self group outside ih =>
    rw [left, Finset.sum_insert outside] at none
    obtain ⟨actions, after, run, shared, exited, others⟩ :=
      ih (fun other inside => quiet other (Finset.mem_insert_of_mem inside)) (by rw [left]; omega)
    have own := others self outside
    have point := quiet self (Finset.mem_insert_self self group)
    have alone : follow (fun now => thread delta rounds self now.1 now.2)
        (after.shared, after.locals self) [()] =
          some (after.shared, { state.locals self with point := .exited }) := by
      have past : ¬(state.locals self).i < rounds := by omega
      rw [own]
      simp only [follow, thread, add, point, if_neg past, Option.bind_some]
    obtain ⟨last, ended, run', shared', own', others'⟩ := follow_own self alone
    refine ⟨actions ++ last, ended, ?_, shared'.trans shared, fun other inside => ?_,
      fun other apart => ?_⟩
    · rw [follow_append, run, Option.bind_some, run']
    · by_cases which : other = self
      · rw [which, own']
      · rw [others' other which]
        exact exited other (Finset.mem_of_mem_insert_of_ne inside which)
    · rw [Finset.mem_insert, not_or] at apart
      exact (others' other apart.1).trans (others other apart.2)

/-- One thread goes through a round, in which others go through any number of theirs in vain. -/
theorem follow_window {owner : Thread} {other : Finset Thread} {addend : Int}
    (same : ∀ self ∈ other, delta self = addend) (outside : owner ∉ other)
    (point : (state.locals owner).point = .loop) (more : (state.locals owner).i < rounds)
    (quiet : Quiet other state) (lost : Nat) (enough : lost ≤ left rounds other state) :
    ∃ actions after, follow (threads delta rounds) state actions = some after ∧
      after.shared = state.shared + delta owner ∧ Quiet other after ∧
      left rounds other after + lost = left rounds other state ∧
      after.locals owner = ⟨.loop, (state.locals owner).i + 1, state.shared⟩ ∧
      ∀ self ∉ other, self ≠ owner → after.locals self = state.locals self := by
  obtain ⟨first, loaded, load, -, own, others⟩ := follow_load delta point more
  have apart (self : Thread) (member : self ∈ other) : self ≠ owner := by
    rintro rfl
    exact outside member
  have before : left rounds other loaded = left rounds other state :=
    left_congr rounds fun self member => others self (apart self member)
  have quiet' : Quiet other loaded := fun self member => by
    rw [others self (apart self member)]
    exact quiet self member
  obtain ⟨hidden, during, run, -, rests, fewer, kept⟩ :=
    follow_some same quiet' lost (before ▸ enough)
  obtain ⟨last, stored, store, shared, own', others'⟩ :=
    follow_store delta rounds ((kept owner outside).trans own)
  refine ⟨first ++ (hidden ++ last), stored, ?_, shared, fun self member => ?_, ?_, own', ?_⟩
  · rw [follow_append, load, Option.bind_some, follow_append, run, Option.bind_some, store]
  · rw [others' self (apart self member)]
    exact rests self member
  · rw [← before, ← fewer]
    refine congrArg (· + lost) (left_congr rounds fun self member => ?_)
    exact others' self (apart self member)
  · intro self none which
    rw [others' self which, kept self none, others self which]

/-- Of two groups of threads, one in a round of which any number of rounds of the other are lost. -/
theorem reachable_window {group other : Finset Thread} [Fintype Thread] {gain loss : Int}
    (same : ∀ self ∈ group, delta self = gain) (same' : ∀ self ∈ other, delta self = loss)
    (apart : Disjoint group other) (all : group ∪ other = Finset.univ) (some : group.Nonempty)
    (more : 0 < rounds) {lost : Nat} (enough : lost ≤ other.card * rounds) :
    ∃ state, Reachable (threads delta rounds) ⟨0, fun _ => initial⟩ state ∧
      (∀ self, (state.locals self).point = .exited) ∧
      state.shared =
        (group.card * rounds : Nat) * gain + (other.card * rounds - lost : Nat) * loss := by
  obtain ⟨owner, inside⟩ := some
  have outside (self : Thread) (member : self ∈ group) : self ∉ other :=
    Finset.disjoint_left.mp apart member
  have quiet (some : Finset Thread) : Quiet some ⟨0, fun _ => initial⟩ := fun _ _ => rfl
  obtain ⟨first, window, run, shared, rests, fewer, own, kept⟩ :=
    follow_window same' (outside owner inside) rfl more (quiet other) lost
      ((left_initial rounds other).symm ▸ enough)
  obtain ⟨second, visible, run', shared', rests', none', kept'⟩ := follow_all rounds same' rests
  have start (self : Thread) (member : self ∈ group) (which : self ≠ owner) :
      visible.locals self = initial :=
    (kept' self (outside self member)).trans (kept self (outside self member) which)
  have own' : visible.locals owner = ⟨.loop, 1, 0⟩ := (kept' owner (outside owner inside)).trans own
  have quiet' : Quiet group visible := by
    intro self member
    by_cases which : self = owner
    · rw [which, own']
    · rw [start self member which]
      rfl
  have one : left rounds group visible + 1 = group.card * rounds := by
    have others : left rounds (group.erase owner) visible = (group.card - 1) * rounds := by
      rw [← Finset.card_erase_of_mem inside, ← left_initial]
      exact left_congr rounds fun self member =>
        start self (Finset.mem_of_mem_erase member) (Finset.ne_of_mem_erase member)
    have some : 0 < group.card := Finset.card_pos.mpr ⟨owner, inside⟩
    rw [left, ← Finset.add_sum_erase group _ inside, own']
    change rounds - 1 + left rounds (group.erase owner) visible + 1 = _
    rw [others, Nat.sub_mul, Nat.one_mul]
    have least := Nat.le_mul_of_pos_left rounds some
    omega
  obtain ⟨third, done, run'', shared'', rests'', none'', kept''⟩ := follow_all rounds same quiet'
  have quiet'' : Quiet Finset.univ done := by
    intro self _
    have which : self ∈ group ∪ other := all ▸ Finset.mem_univ self
    rcases Finset.mem_union.mp which with member | member
    · exact rests'' self member
    · rw [kept'' self fun inside => outside self inside member]
      exact rests' self member
  have none : left rounds Finset.univ done = 0 := by
    rw [left, ← all, Finset.sum_union apart]
    have others : left rounds other done = 0 := by
      rw [← none']
      exact left_congr rounds fun self member =>
        kept'' self fun inside => outside self inside member
    change left rounds group done + left rounds other done = 0
    rw [none'', others]
  obtain ⟨last, state, finish, unchanged, exited, -⟩ := follow_exits Finset.univ quiet'' none
  refine ⟨state, ⟨first ++ (second ++ (third ++ last)), ?_⟩,
    fun self => exited self (Finset.mem_univ self), ?_⟩
  · rw [follow_append, run, Option.bind_some, follow_append, run', Option.bind_some, follow_append,
      run'', Option.bind_some, finish]
  · have visible : left rounds other window = other.card * rounds - lost := by
      rw [← left_initial rounds other, ← fewer, Nat.add_sub_cancel]
    rw [unchanged, shared'', shared', shared, visible, same owner inside, ← one]
    push_cast
    ring

end Schedules

section Bounds

variable [Fintype Thread]

/-- What the rounds done so far would have made with one part of each addend. -/
def total (part : Int → Int) (delta : Thread → Int) (state : State Thread Int Local) : Int :=
  ∑ self, (state.locals self).i * part (delta self)

/-- Nothing is in the cell or a register but what some of the rounds have made. -/
structure Within (delta : Thread → Int) (rounds : Nat) (state : State Thread Int Local) :
    Prop where
  shared : total (min · 0) delta state ≤ state.shared ∧ state.shared ≤ total (max · 0) delta state
  seen : ∀ self, (state.locals self).point = .store →
    total (min · 0) delta state ≤ (state.locals self).seen ∧
      (state.locals self).seen ≤ total (max · 0) delta state
  rounds : ∀ self, (state.locals self).i ≤ rounds ∧
    ((state.locals self).point = .load ∨ (state.locals self).point = .store →
      (state.locals self).i < rounds) ∧
    ((state.locals self).point = .exited → (state.locals self).i = rounds)

theorem total_update (part : Int → Int) (delta : Thread → Int) (state : State Thread Int Local)
    (self : Thread) (own : Local) (shared : Int) :
    total part delta ⟨shared, Function.update state.locals self own⟩ =
      total part delta state + (own.i - (state.locals self).i) * part (delta self) := by
  unfold total
  rw [← Finset.add_sum_erase _ _ (Finset.mem_univ self),
    ← Finset.add_sum_erase _ (fun other => _ * part (delta other)) (Finset.mem_univ self)]
  dsimp only
  rw [Function.update_self]
  have others : ∑ other ∈ Finset.univ.erase self,
      ((Function.update state.locals self own other).i : Int) * part (delta other) =
      ∑ other ∈ Finset.univ.erase self, ((state.locals other).i : Int) * part (delta other) := by
    refine Finset.sum_congr rfl fun other apart => ?_
    rw [Function.update_of_ne (Finset.ne_of_mem_erase apart)]
  rw [others]
  ring

theorem total_widens (delta : Thread → Int) (state : State Thread Int Local) (self : Thread)
    {own : Local} (grows : (state.locals self).i ≤ own.i) (shared : Int) :
    total (min · 0) delta ⟨shared, Function.update state.locals self own⟩ ≤
        total (min · 0) delta state ∧
      total (max · 0) delta state ≤
        total (max · 0) delta ⟨shared, Function.update state.locals self own⟩ := by
  have forward : (0 : Int) ≤ own.i - (state.locals self).i := by omega
  rw [total_update, total_update]
  constructor
  · have less := mul_nonpos_of_nonneg_of_nonpos forward (min_le_right (delta self) 0)
    omega
  · have more := mul_nonneg forward (le_max_right (delta self) 0)
    omega

theorem Within.update (within : Within delta rounds state) {self : Thread} {own : Local}
    {value : Int}
    (grows : (state.locals self).i ≤ own.i)
    (cell : total (min · 0) delta ⟨value, Function.update state.locals self own⟩ ≤ value ∧
      value ≤ total (max · 0) delta ⟨value, Function.update state.locals self own⟩)
    (seen : own.point = .store → total (min · 0) delta state ≤ own.seen ∧
      own.seen ≤ total (max · 0) delta state)
    (round : own.i ≤ rounds ∧ (own.point = .load ∨ own.point = .store → own.i < rounds) ∧
      (own.point = .exited → own.i = rounds)) :
    Within delta rounds ⟨value, Function.update state.locals self own⟩ := by
  obtain ⟨lower, upper⟩ := total_widens delta state self grows value
  refine ⟨cell, fun other point => ?_, fun other => ?_⟩
  · have bounds : total (min · 0) delta state ≤ (Function.update state.locals self own other).seen ∧
        (Function.update state.locals self own other).seen ≤ total (max · 0) delta state := by
      dsimp only at point
      by_cases which : other = self
      · subst which
        rw [Function.update_self] at point ⊢
        exact seen point
      · rw [Function.update_of_ne which] at point ⊢
        exact within.seen other point
    exact ⟨lower.trans bounds.1, bounds.2.trans upper⟩
  · by_cases which : other = self
    · subst which
      simpa using round
    · simpa [which] using within.rounds other

theorem Within.step (within : Within delta rounds state)
    (stepped : threads delta rounds state (self, action) = some after) :
    Within delta rounds after := by
  obtain ⟨own, moved, locals⟩ := step_eq_some stepped
  obtain ⟨shared, locals'⟩ := after
  cases locals
  obtain ⟨lower, upper⟩ := within.shared
  obtain ⟨most, within', ended⟩ := within.rounds self
  -- a step that stores nothing leaves the bounds of the cell
  have kept (own : Local) (same : own.i = (state.locals self).i) :
      total (min · 0) delta ⟨state.shared, Function.update state.locals self own⟩ ≤ state.shared ∧
      state.shared ≤
        total (max · 0) delta ⟨state.shared, Function.update state.locals self own⟩ := by
    obtain ⟨lower', upper'⟩ := total_widens delta state self same.ge state.shared
    exact ⟨lower'.trans lower, upper.trans upper'⟩
  rw [thread, add] at moved
  dsimp only at moved
  split at moved
  · rename_i point
    split at moved
    · rename_i more
      cases moved
      exact within.update (Nat.le_refl _) (kept _ rfl) (by simp) ⟨most, fun _ => more, by simp⟩
    · rename_i past
      cases moved
      refine within.update (Nat.le_refl _) (kept _ rfl) (by simp) ⟨most, by simp, fun _ => ?_⟩
      exact Nat.le_antisymm most (Nat.le_of_not_lt past)
  · rename_i point
    cases moved
    exact within.update (Nat.le_refl _) (kept _ rfl) (fun _ => within.shared)
      ⟨most, fun _ => within' (.inl point), by simp⟩
  · rename_i point
    cases moved
    obtain ⟨low, high⟩ := within.seen self point
    have more := within' (.inr point)
    refine within.update (Nat.le_succ _) ?_ (by simp) ⟨more, by simp, by simp⟩
    rw [total_update, total_update]
    have small := min_le_left (delta self) 0
    have great := le_max_left (delta self) 0
    push_cast
    constructor <;> linarith
  · cases moved

theorem reachable_within
    (reachable : Reachable (threads delta rounds) ⟨0, fun _ => initial⟩ state) :
    Within delta rounds state := by
  refine reachable.invariant ?_ fun state action after within stepped => within.step stepped
  refine ⟨?_, nofun, fun self => ⟨Nat.zero_le _, nofun, nofun⟩⟩
  simp [total, initial]

end Bounds

/-- Nothing of what the only thread has added is lost. -/
def Kept (delta : Unit → Int) (state : State Unit Int Local) : Prop :=
  state.shared = (state.locals ()).i * delta () ∧
    ((state.locals ()).point = .store → (state.locals ()).seen = state.shared)

theorem Kept.step {delta : Unit → Int} {before after : State Unit Int Local}
    (kept : Kept delta before) (stepped : threads delta rounds before ((), action) = some after) :
    Kept delta after := by
  obtain ⟨own, moved, locals⟩ := step_eq_some stepped
  obtain ⟨shared, locals'⟩ := after
  have here : locals' () = own := (congrFun locals ()).trans (Function.update_self ..)
  obtain ⟨all, seen⟩ := kept
  unfold Kept
  dsimp only
  rw [here]
  rw [thread, add] at moved
  dsimp only at moved
  split at moved
  · split at moved
    · cases moved
      exact ⟨all, nofun⟩
    · cases moved
      exact ⟨all, nofun⟩
  · cases moved
    exact ⟨all, fun _ => rfl⟩
  · rename_i point
    cases moved
    refine ⟨?_, nofun⟩
    rw [seen point, all]
    push_cast
    ring
  · cases moved

theorem reachable_kept {delta : Unit → Int} {state : State Unit Int Local}
    (reachable : Reachable (threads delta rounds) ⟨0, fun _ => initial⟩ state) :
    Kept delta state := by
  refine reachable.invariant ?_ fun before event after kept stepped => kept.step stepped
  simp [Kept, initial]

theorem reachable_exited (delta : Unit → Int) (rounds : Nat) : ∃ state : State Unit Int Local,
    Reachable (threads delta rounds) ⟨0, fun _ => initial⟩ state ∧
      (state.locals ()).point = .exited := by
  have same : ∀ self ∈ Finset.univ, delta self = delta () := fun _ _ => rfl
  have quiet : Quiet Finset.univ (⟨0, fun _ => initial⟩ : State Unit Int Local) := fun _ _ => rfl
  obtain ⟨first, middle, run, -, quiet', none, -⟩ := follow_all rounds same quiet
  obtain ⟨last, state, finish, -, exited, -⟩ := follow_exits Finset.univ quiet' none
  refine ⟨state, ⟨first ++ last, ?_⟩, exited () (Finset.mem_univ ())⟩
  rw [follow_append, run, Option.bind_some, finish]

/-- Some threads count up and the others down. -/
def countdown (up : Finset Thread) (self : Thread) : Int := if self ∈ up then 1 else -1

theorem countdown_up {up : Finset Thread} (self : Thread) (member : self ∈ up) :
    countdown up self = 1 := if_pos member

section Countdown

variable [Fintype Thread] {up : Finset Thread}

omit [DecidableEq Thread] in
/-- What all the rounds would have made bounds what those done so far have. -/
theorem total_bounds (delta : Thread → Int) (done : ∀ self, (state.locals self).i ≤ rounds) :
    rounds * ∑ self, min (delta self) 0 ≤ total (min · 0) delta state ∧
      total (max · 0) delta state ≤ rounds * ∑ self, max (delta self) 0 := by
  have fewer (self : Thread) : ((state.locals self).i : Int) ≤ rounds :=
    Int.ofNat_le.mpr (done self)
  rw [total, total, Finset.mul_sum, Finset.mul_sum]
  constructor
  · refine Finset.sum_le_sum fun self _ => ?_
    exact mul_le_mul_of_nonpos_right (fewer self) (min_le_right (delta self) 0)
  · refine Finset.sum_le_sum fun self _ => ?_
    exact mul_le_mul_of_nonneg_right (fewer self) (le_max_right (delta self) 0)

theorem sum_parts (up : Finset Thread) :
    ∑ self, max (countdown up self) 0 = up.card ∧
      ∑ self, min (countdown up self) 0 = -upᶜ.card := by
  have most (self : Thread) : max (countdown up self) 0 = if self ∈ up then 1 else 0 := by
    unfold countdown
    split <;> rfl
  have least (self : Thread) : min (countdown up self) 0 = -if self ∈ upᶜ then 1 else 0 := by
    simp only [countdown, Finset.mem_compl]
    split <;> simp_all
  constructor
  · simp [most]
  · simp only [least, Finset.sum_neg_distrib, Finset.sum_ite_mem, Finset.univ_inter,
      Finset.sum_const, nsmul_eq_mul, mul_one]

/-- The cell never has more than all counts up make, or less than all counts down. -/
theorem shared_within (reachable : Reachable (threads (countdown up) rounds) ⟨0, fun _ => initial⟩
    state) : -(rounds * upᶜ.card : Int) ≤ state.shared ∧ state.shared ≤ rounds * up.card := by
  have within := reachable_within reachable
  obtain ⟨lower, upper⟩ := within.shared
  obtain ⟨least, most⟩ := total_bounds (countdown up) fun self => (within.rounds self).1
  obtain ⟨ups, downs⟩ := sum_parts up
  rw [downs] at least
  rw [ups] at most
  exact ⟨by linarith, by linarith⟩

theorem seen_within (reachable : Reachable (threads (countdown up) rounds) ⟨0, fun _ => initial⟩
    state) (store : (state.locals self).point = .store) :
    -(rounds * upᶜ.card : Int) ≤ (state.locals self).seen ∧
      (state.locals self).seen ≤ rounds * up.card := by
  have within := reachable_within reachable
  obtain ⟨lower, upper⟩ := within.seen self store
  obtain ⟨least, most⟩ := total_bounds (countdown up) fun self => (within.rounds self).1
  obtain ⟨ups, downs⟩ := sum_parts up
  rw [downs] at least
  rw [ups] at most
  exact ⟨by linarith, by linarith⟩

theorem countdown_down (self : Thread) (member : self ∈ upᶜ) : countdown up self = -1 :=
  if_neg (Finset.mem_compl.mp member)

/-- All values between these two can be what is left in the cell, and no others. -/
theorem final_iff (some : up.Nonempty) (some' : upᶜ.Nonempty) (more : 0 < rounds) (value : Int) :
    (∃ state, Reachable (threads (countdown up) rounds) ⟨0, fun _ => initial⟩ state ∧
      (∀ self, (state.locals self).point = .exited) ∧ state.shared = value) ↔
      -(rounds * upᶜ.card : Int) ≤ value ∧ value ≤ rounds * up.card := by
  constructor
  · rintro ⟨state, reachable, -, rfl⟩
    exact shared_within reachable
  · rintro ⟨lower, upper⟩
    have groups : upᶜ ∪ up = Finset.univ := (Finset.union_comm _ _).trans (Finset.union_compl up)
    by_cases high : (up.card * rounds - upᶜ.card * rounds : Int) ≤ value
    · -- what is lost are counts down, in a round of a thread that counts up
      obtain ⟨lost, fits⟩ := Int.eq_ofNat_of_zero_le (sub_nonneg.mpr high)
      have enough : lost ≤ upᶜ.card * rounds := by
        zify
        linarith
      obtain ⟨state, reachable, exited, shared⟩ := reachable_window countdown_up countdown_down
        disjoint_compl_right (Finset.union_compl up) some more enough
      refine ⟨state, reachable, exited, ?_⟩
      rw [shared]
      push_cast [Nat.cast_sub enough]
      linarith
    · obtain ⟨lost, fits⟩ := Int.eq_ofNat_of_zero_le (sub_nonneg.mpr (not_le.mp high).le)
      have enough : lost ≤ up.card * rounds := by
        zify
        linarith
      obtain ⟨state, reachable, exited, shared⟩ := reachable_window countdown_down countdown_up
        disjoint_compl_left groups some' more enough
      refine ⟨state, reachable, exited, ?_⟩
      rw [shared]
      push_cast [Nat.cast_sub enough]
      linarith

end Countdown

/-- What one of several threads that all count up has done and seen, beside the cell. -/
structure Counts (cell : Int) (own : Local) : Prop where
  shared : 0 < own.i → 1 ≤ cell
  seen : own.point = .store → 0 ≤ own.seen ∧ (0 < own.i → 1 ≤ own.seen)

/-- The cell has 1 only after the first round of a thread, which has done no other since. -/
structure Counted (state : State Thread Int Local) : Prop where
  least : 0 ≤ state.shared
  each : ∀ self, Counts state.shared (state.locals self)
  once : state.shared = 1 → ∃ self, (state.locals self).i = 1

theorem Counted.step (counted : Counted state)
    (stepped : threads (fun _ => 1) rounds state (self, action) = some after) :
    Counted after := by
  obtain ⟨own, moved, locals⟩ := step_eq_some stepped
  obtain ⟨shared, locals'⟩ := after
  cases locals
  obtain ⟨first, seen⟩ := counted.each self
  -- a step that stores nothing
  have kept (own : Local) (same : own.i = (state.locals self).i)
      (loads : own.point = .store → own.seen = state.shared) :
      Counted ⟨state.shared, Function.update state.locals self own⟩ := by
    refine ⟨counted.least, fun other => ?_, fun one => ?_⟩
    · by_cases which : other = self
      · subst which
        simp only [Function.update_self]
        refine ⟨same ▸ first, fun point => ?_⟩
        rw [loads point, same]
        exact ⟨counted.least, first⟩
      · simp only [Function.update_of_ne which]
        exact counted.each other
    · obtain ⟨other, done⟩ := counted.once one
      refine ⟨other, ?_⟩
      by_cases which : other = self
      · subst which
        simpa [same] using done
      · simpa [which] using done
  have stored (point : (state.locals self).point = .store) :
      Counted ⟨(state.locals self).seen + 1, Function.update state.locals self
        { state.locals self with i := (state.locals self).i + 1, point := .loop }⟩ := by
    obtain ⟨least, again⟩ := seen point
    have some : 1 ≤ (state.locals self).seen + 1 := by omega
    refine ⟨Int.le_trans (by decide) some, fun other => ?_, fun one => ⟨self, ?_⟩⟩
    · by_cases which : other = self
      · subst which
        simp only [Function.update_self]
        exact ⟨fun _ => some, nofun⟩
      · simp only [Function.update_of_ne which]
        exact ⟨fun _ => some, (counted.each other).seen⟩
    · -- a thread that has counted before has seen something
      have none : ¬0 < (state.locals self).i := fun done => by
        have more := again done
        dsimp only at one
        omega
      simp only [Function.update_self]
      omega
  rw [thread, add] at moved
  dsimp only at moved
  split at moved
  · split at moved
    · cases moved
      exact kept _ rfl (by simp)
    · cases moved
      exact kept _ rfl (by simp)
  · cases moved
    exact kept _ rfl fun _ => rfl
  · rename_i point
    cases moved
    exact stored point
  · cases moved

theorem reachable_counted
    (reachable : Reachable (threads (fun _ : Thread => 1) rounds) ⟨0, fun _ => initial⟩ state) :
    Counted state := by
  refine reachable.invariant ?_ fun state event after counted stepped => ?_
  · exact ⟨Int.le_refl _, fun _ => ⟨nofun, nofun⟩, nofun⟩
  · obtain ⟨self, action⟩ := event
    exact counted.step stepped

/-- Two rounds and any number of others are not lost: in a round of one thread all but one of the
others are lost, and in that one what the first has left. -/
theorem reachable_count [Fintype Thread] (some : 1 < Fintype.card Thread) (more : 1 < rounds)
    {visible : Nat} (enough : visible + 2 ≤ Fintype.card Thread * rounds) :
    ∃ state, Reachable (threads (fun _ : Thread => 1) rounds) ⟨0, fun _ => initial⟩ state ∧
      (∀ self, (state.locals self).point = .exited) ∧ state.shared = visible + 2 := by
  obtain ⟨owner⟩ : Nonempty Thread := Fintype.card_pos_iff.mp (by omega)
  have same (group : Finset Thread) : ∀ self ∈ group, (fun _ : Thread => (1 : Int)) self = 1 :=
    fun _ _ => rfl
  let others : Finset Thread := Finset.univ.erase owner
  have outside : owner ∉ others := Finset.notMem_erase owner _
  have pool : left rounds others ⟨0, fun _ => initial⟩ = (Fintype.card Thread - 1) * rounds := by
    rw [left_initial, Finset.card_erase_of_mem (Finset.mem_univ owner), Finset.card_univ]
  have size : (Fintype.card Thread - 1) * rounds + rounds = Fintype.card Thread * rounds := by
    rw [← Nat.succ_mul]
    exact congrArg (· * rounds) (Nat.sub_add_cancel (Nat.le_of_lt some))
  have rest : rounds ≤ (Fintype.card Thread - 1) * rounds := Nat.le_mul_of_pos_left _ (by omega)
  obtain ⟨early, late, rfl, early', late'⟩ : ∃ early late, visible = early + late ∧
      early + 1 ≤ (Fintype.card Thread - 1) * rounds ∧ late + 1 ≤ rounds :=
    ⟨min visible ((Fintype.card Thread - 1) * rounds - 1),
      visible - min visible ((Fintype.card Thread - 1) * rounds - 1), by omega⟩
  let only : Finset Thread := {owner}
  obtain ⟨run₁, state₁, steps₁, shared₁, quiet₁, left₁, kept₁⟩ :=
    follow_some (same others) (fun _ _ => rfl) early (pool ▸ Nat.le_of_succ_le early')
  have own₁ : state₁.locals owner = initial := kept₁ owner outside
  -- all rounds of the others but one are lost
  obtain ⟨run₂, state₂, steps₂, shared₂, quiet₂, left₂, own₂, -⟩ :=
    follow_window (same others) outside (by rw [own₁]; rfl)
      (by rw [own₁]; exact Nat.lt_of_succ_lt more) quiet₁ _
      (Nat.sub_le (left rounds others state₁) 1)
  have one : left rounds others state₂ = 1 := by omega
  have quiet₂' : Quiet only state₂ := fun self member => by
    rw [Finset.mem_singleton.mp member, own₂]
  have left₂' : left rounds only state₂ = rounds - 1 := by
    rw [left, Finset.sum_singleton, own₂, own₁]
    rfl
  obtain ⟨run₃, state₃, steps₃, shared₃, quiet₃, left₃, kept₃⟩ :=
    follow_some (same only) quiet₂' late (left₂' ▸ Nat.le_sub_one_of_lt late')
  have still (self : Thread) (member : self ∈ others) : state₃.locals self = state₂.locals self :=
    kept₃ self fun own => outside (Finset.mem_singleton.mp own ▸ member)
  have one' : left rounds others state₃ = 1 := (left_congr rounds still).trans one
  obtain ⟨second, inside, unfinished⟩ := Finset.exists_ne_zero_of_sum_ne_zero
    (Nat.ne_of_gt (one' ▸ Nat.one_pos) : left rounds others state₃ ≠ 0)
  have outside' : second ∉ only := fun own => outside (Finset.mem_singleton.mp own ▸ inside)
  -- in the round that is left, all of the first thread's
  obtain ⟨run₄, state₄, steps₄, shared₄, quiet₄, left₄, own₄, kept₄⟩ :=
    follow_window (same only) outside' (by rw [still second inside]; exact quiet₂ second inside)
      (Nat.lt_of_sub_ne_zero unfinished) quiet₃ _ (Nat.le_refl (left rounds only state₃))
  have left₄' : left rounds others state₄ = 0 := by
    have fewer : left rounds others state₄ + 1 = left rounds others state₃ :=
      left_round inside (Nat.lt_of_sub_ne_zero unfinished) (by rw [own₄]) fun self member which =>
        kept₄ self (fun own => outside (Finset.mem_singleton.mp own ▸ member)) which
    omega
  have quiet : Quiet Finset.univ state₄ := by
    intro self _
    by_cases which : self = owner
    · exact quiet₄ self (Finset.mem_singleton.mpr which)
    by_cases which' : self = second
    · rw [which', own₄]
    · rw [kept₄ self (fun own => which (Finset.mem_singleton.mp own)) which',
        still self (Finset.mem_erase.mpr ⟨which, Finset.mem_univ self⟩)]
      exact quiet₂ self (Finset.mem_erase.mpr ⟨which, Finset.mem_univ self⟩)
  have none : left rounds Finset.univ state₄ = 0 := by
    have own : left rounds only state₄ = rounds - (state₄.locals owner).i :=
      Finset.sum_singleton _ _
    rw [left, ← Finset.add_sum_erase _ _ (Finset.mem_univ owner)]
    change rounds - (state₄.locals owner).i + left rounds others state₄ = 0
    omega
  obtain ⟨run₅, state, steps₅, shared₅, exited, -⟩ := follow_exits Finset.univ quiet none
  refine ⟨state, ⟨run₁ ++ (run₂ ++ (run₃ ++ (run₄ ++ run₅))), ?_⟩,
    fun self => exited self (Finset.mem_univ self), ?_⟩
  · rw [follow_append, steps₁, Option.bind_some, follow_append, steps₂, Option.bind_some,
      follow_append, steps₃, Option.bind_some, follow_append, steps₄, Option.bind_some, steps₅]
  · rw [shared₅, shared₄, shared₃, shared₂, shared₁]
    push_cast
    ring

/-- With two threads and two rounds each or more, all values from 2 on can be what is left. -/
theorem final_count_iff [Fintype Thread] (some : 1 < Fintype.card Thread) (more : 1 < rounds)
    (value : Int) :
    (∃ state, Reachable (threads (fun _ : Thread => 1) rounds) ⟨0, fun _ => initial⟩ state ∧
      (∀ self, (state.locals self).point = .exited) ∧ state.shared = value) ↔
      2 ≤ value ∧ value ≤ Fintype.card Thread * rounds := by
  constructor
  · rintro ⟨state, reachable, exited, rfl⟩
    have within := reachable_within reachable
    have counted := reachable_counted reachable
    obtain ⟨-, most⟩ := total_bounds (fun _ : Thread => (1 : Int))
      fun self => (within.rounds self).1
    have upper := within.shared.2
    have done (self : Thread) := (within.rounds self).2.2 (exited self)
    obtain ⟨self⟩ : Nonempty Thread := Fintype.card_pos_iff.mp (by omega)
    have least := (counted.each self).shared (by rw [done self]; omega)
    have other : state.shared ≠ 1 := fun one => by
      obtain ⟨self, once⟩ := counted.once one
      rw [done self] at once
      omega
    refine ⟨by omega, upper.trans (most.trans (le_of_eq ?_))⟩
    simp [mul_comm]
  · rintro ⟨lower, upper⟩
    obtain ⟨visible, fits⟩ := Int.eq_ofNat_of_zero_le (sub_nonneg.mpr lower)
    have enough : visible + 2 ≤ Fintype.card Thread * rounds := by
      zify
      linarith
    obtain ⟨state, reachable, exited, shared⟩ := reachable_count some more enough
    exact ⟨state, reachable, exited, by rw [shared]; linarith⟩

end CssLab.LostUpdate
