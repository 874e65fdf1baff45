import CssLab.Lib.Census
import CssLab.Lib.Counter
import Mathlib.Data.BitVec

/-! The semaphore of `partC/sema.c` and the threads that count under it. -/

namespace CssLab.Sync.Sema

open Transition Interleaving

/-- `counter_t` with the semaphore's `value`, and the number of increments whose
store has been done, which the program does not keep. -/
structure Counter where
  value : BitVec 32
  num : BitVec 32
  completed : Nat

/-- Where a thread is in `start`; `load`, `test` and `compareExchange` are in `sema_wait`. -/
inductive Point
  | loop
  | load
  | test
  | compareExchange
  | loadNum
  | storeNum
  | post
  | exited
  deriving DecidableEq

/-- The locals of `start` and `sema_wait` and the register of `counter.num++`. -/
structure Local where
  point : Point
  i : Nat
  val : BitVec 32
  seen : BitVec 32

def semaInit (counter : Counter) (v : BitVec 32) : Counter := { counter with value := v }

/-- One step of `sema_wait`; a failed exchange stores the value it saw, which
the next round loads anew. -/
def semaWait (counter : Counter) (own : Local) : Counter × Local :=
  match own.point with
  | .load => (counter, { own with val := counter.value, point := .test })
  | .test =>
    (counter, { own with point := if 0 < own.val.toInt then .compareExchange else .load })
  | _ =>
    if counter.value = own.val then
      ({ counter with value := own.val - 1 }, { own with point := .loadNum })
    else (counter, { own with val := counter.value, point := .load })

def semaPost (counter : Counter) : Counter := { counter with value := counter.value + 1 }

/-- One memory access or one test of a thread that counts `rounds` times. -/
def start (rounds : Nat) (counter : Counter) (own : Local) : Option (Counter × Local) :=
  match own.point with
  | .loop =>
    if own.i < rounds then some (counter, { own with point := .load })
    else some (counter, { own with point := .exited })
  | .load | .test | .compareExchange => some (semaWait counter own)
  | .loadNum => some (counter, { own with seen := counter.num, point := .storeNum })
  | .storeNum =>
    some ({ counter with num := own.seen + 1, completed := counter.completed + 1 },
      { own with point := .post })
  | .post => some (semaPost counter, { own with i := own.i + 1, point := .loop })
  | .exited => none

variable {Thread : Type*}

/-- The threads after `main` has initialised the semaphore of its zeroed counter. -/
def initial (v : BitVec 32) : State Thread Counter Local where
  shared := semaInit ⟨0, 0, 0⟩ v
  locals := fun _ => ⟨.loop, 0, 0, 0⟩

/-- One step of any of the threads. -/
abbrev threads [DecidableEq Thread] (rounds : Nat) :
    State Thread Counter Local → Thread × Unit → Option (State Thread Counter Local) :=
  Interleaving.step fun _ counter own _ => start rounds counter own

/-- Between the return of `sema_wait` and the addition of `sema_post`. -/
def Local.inside (own : Local) : Bool :=
  match own.point with
  | .loadNum | .storeNum | .post => true
  | _ => false

/-- The value and the threads inside make up `v`, and with one thread at a
time no increment is lost, as long as `num` does not overflow. -/
structure Counts [Fintype Thread] (v : BitVec 32) (state : State Thread Counter Local) : Prop where
  nonneg : 0 ≤ state.shared.value.toInt
  conserved : state.shared.value.toInt + census Local.inside state.locals = v.toInt
  limited : census Local.inside state.locals ≤ v.toInt
  lossless : v = 1 → (∀ self, (state.locals self).inside = false) →
    state.shared.completed < 2 ^ 31 → state.shared.num.toInt = state.shared.completed

/-- What a step can do: move outside, enter, load and store the number, or leave. -/
inductive Moves (counter : Counter) (own : Local) : Counter → Local → Prop
  | outside {own' : Local} (before : own.inside = false) (after : own'.inside = false)
      (tested : own'.point = .compareExchange → 0 < own'.val.toInt) :
      Moves counter own counter own'
  | enter (here : own.point = .compareExchange) (found : counter.value = own.val) :
      Moves counter own { counter with value := own.val - 1 } { own with point := .loadNum }
  | load (here : own.point = .loadNum) :
      Moves counter own counter { own with seen := counter.num, point := .storeNum }
  | store (here : own.point = .storeNum) :
      Moves counter own { counter with num := own.seen + 1, completed := counter.completed + 1 }
        { own with point := .post }
  | leave (here : own.point = .post) :
      Moves counter own { counter with value := counter.value + 1 }
        { own with i := own.i + 1, point := .loop }

theorem moves_of_wait (here : own.point = .load ∨ own.point = .test ∨ own.point = .compareExchange)
    (moved : semaWait counter own = (counter', own')) : Moves counter own counter' own' := by
  rcases here with here | here | here <;> simp only [semaWait, here] at moved
  · cases moved
    exact .outside (by simp [Local.inside, here]) rfl nofun
  · cases moved
    by_cases positive : 0 < own.val.toInt
    · simp only [if_pos positive]
      exact .outside (by simp [Local.inside, here]) rfl (fun _ => positive)
    · simp only [if_neg positive]
      exact .outside (by simp [Local.inside, here]) rfl nofun
  · split at moved
    · rename_i found
      cases moved
      exact .enter here found
    · cases moved
      exact .outside (by simp [Local.inside, here]) rfl nofun

theorem moves_of_start (moved : start rounds counter own = some (counter', own')) :
    Moves counter own counter' own' := by
  cases here : own.point <;> simp only [start, here, Option.some.injEq, reduceCtorEq] at moved
  case loop =>
    split at moved <;> cases Option.some.inj moved <;>
      exact .outside (by simp [Local.inside, here]) rfl nofun
  case load => exact moves_of_wait (by simp [here]) moved
  case test => exact moves_of_wait (by simp [here]) moved
  case compareExchange => exact moves_of_wait (by simp [here]) moved
  case loadNum =>
    cases moved
    exact .load here
  case storeNum =>
    cases moved
    exact .store here
  case post =>
    cases moved
    exact .leave here

theorem Moves.exchange (moves : Moves counter own counter' own')
    (nonneg : 0 ≤ counter.value.toInt)
    (tested : own.point = .compareExchange → 0 < own.val.toInt)
    (room : own.point = .post → counter.value.toInt < 2 ^ 31 - 1) :
    0 ≤ counter'.value.toInt ∧
      counter'.value.toInt + own'.inside.toNat = counter.value.toInt + own.inside.toNat := by
  cases moves with
  | outside before after _ => exact ⟨nonneg, by rw [before, after]⟩
  | enter here found =>
    have positive := tested here
    have pred : (own.val - 1).toInt = own.val.toInt - 1 := Counter.toInt_sub_one (by omega)
    refine ⟨by change 0 ≤ (own.val - 1).toInt; omega, ?_⟩
    change (own.val - 1).toInt + 1 = _
    rw [pred, found]
    simp [Local.inside, here]
  | load here => exact ⟨nonneg, by simp [Local.inside, here]⟩
  | store here => exact ⟨nonneg, by simp [Local.inside, here]⟩
  | leave here =>
    have below := room here
    have succ : (counter.value + 1).toInt = counter.value.toInt + 1 :=
      Counter.toInt_add_one (by omega)
    refine ⟨by change 0 ≤ (counter.value + 1).toInt; omega, ?_⟩
    change (counter.value + 1).toInt + 0 = _
    rw [succ]
    simp [Local.inside, here]

theorem Moves.tested (moves : Moves counter own counter' own')
    (there : own'.point = .compareExchange) : 0 < own'.val.toInt := by
  cases moves with
  | outside _ _ tested => exact tested there
  | _ => cases there

/-- An increment whose load is up to date is not lost. -/
theorem Moves.lossless (moves : Moves counter own counter' own')
    (counted : counter.num = BitVec.ofNat 32 counter.completed)
    (seen : own.point = .storeNum → own.seen = counter.num) :
    counter'.num = BitVec.ofNat 32 counter'.completed ∧
      (own'.point = .storeNum → own'.seen = counter'.num) := by
  cases moves with
  | outside before after _ =>
    refine ⟨counted, ?_⟩
    intro there
    simp [Local.inside, there] at after
  | enter here found => exact ⟨counted, nofun⟩
  | load here => exact ⟨counted, fun _ => rfl⟩
  | store here =>
    refine ⟨?_, nofun⟩
    rw [seen here, counted, BitVec.ofNat_add]
    rfl
  | leave here => exact ⟨counted, nofun⟩

theorem Moves.num_eq (moves : Moves counter own counter' own') (elsewhere : own.point ≠ .storeNum) :
    counter'.num = counter.num := by
  cases moves with
  | store here => exact absurd here elsewhere
  | _ => rfl

variable [Fintype Thread] {state after : State Thread Counter Local} {v : BitVec 32}

/-- What all of the threads keep; a thread at its exchange has seen a positive value. -/
structure Invariant (v : BitVec 32) (state : State Thread Counter Local) : Prop where
  nonneg : 0 ≤ state.shared.value.toInt
  conserved : state.shared.value.toInt + census Local.inside state.locals = v.toInt
  tested : ∀ self, (state.locals self).point = .compareExchange →
    0 < (state.locals self).val.toInt
  lossless : v = 1 → state.shared.num = BitVec.ofNat 32 state.shared.completed ∧
    ∀ self, (state.locals self).point = .storeNum →
      (state.locals self).seen = state.shared.num

theorem Invariant.counts (invariant : Invariant v state) : Counts v state := by
  have nonneg := invariant.nonneg
  have conserved := invariant.conserved
  refine ⟨nonneg, conserved, by omega, ?_⟩
  intro single _ few
  rw [(invariant.lossless single).1]
  exact (Counter.toInt_eq_iff _).mpr few

theorem Invariant.alone (invariant : Invariant v state) (single : v = 1)
    (here : (state.locals self).inside) (there : (state.locals other).inside) : self = other := by
  have nonneg := invariant.nonneg
  have conserved := invariant.conserved
  subst single
  have most : census Local.inside state.locals ≤ 1 := by
    rw [show (1 : BitVec 32).toInt = 1 from rfl] at conserved
    omega
  exact eq_of_census_le_one most here there

theorem initial_invariant (nonneg : 0 ≤ v.toInt) :
    Invariant v (initial v : State Thread Counter Local) := by
  refine ⟨nonneg, ?_, nofun, fun _ => ⟨rfl, nofun⟩⟩
  have nobody : census Local.inside (initial v : State Thread Counter Local).locals = 0 :=
    census_eq_zero.mpr fun _ => rfl
  rw [nobody]
  exact Int.add_zero _

variable [DecidableEq Thread]

theorem Invariant.step (invariant : Invariant v state)
    (stepped : threads rounds state (self, action) = some after) : Invariant v after := by
  obtain ⟨own, moved, locals⟩ := step_eq_some stepped
  have moves := moves_of_start moved
  have upper := BitVec.toInt_lt (x := v)
  have moving := census_update Local.inside state.locals self own
  have conserved := invariant.conserved
  obtain ⟨nonneg, exchange⟩ := moves.exchange invariant.nonneg (invariant.tested self) (by
    intro here
    have entered : (state.locals self).inside := by simp [Local.inside, here]
    have pos := census_pos entered
    omega)
  refine ⟨nonneg, by rw [locals]; omega, ?_, ?_⟩
  · intro other there
    rw [locals] at there ⊢
    by_cases same : other = self
    · subst same
      rw [Function.update_self] at there ⊢
      exact moves.tested there
    · rw [Function.update_of_ne same] at there ⊢
      exact invariant.tested other there
  · intro single
    obtain ⟨counted, seen⟩ := invariant.lossless single
    obtain ⟨counted', seen'⟩ := moves.lossless counted (seen self)
    refine ⟨counted', ?_⟩
    intro other there
    rw [locals] at there ⊢
    by_cases same : other = self
    · subst same
      rw [Function.update_self] at there ⊢
      exact seen' there
    · -- nobody else is between its load and its store
      rw [Function.update_of_ne same] at there ⊢
      rw [seen other there, moves.num_eq]
      intro here
      refine same (invariant.alone single ?_ ?_)
      · simp [Local.inside, there]
      · simp [Local.inside, here]

/-- In every reachable state the semaphore counts, whatever number it starts
from and however the threads take turns. -/
theorem semaphore_counts (v : BitVec 32) (nonneg : 0 ≤ v.toInt) (rounds : Nat)
    {state : State Thread Counter Local}
    (reachable : Reachable (threads rounds) (initial v) state) :
    Counts v state := by
  have invariant : Invariant v state := by
    refine reachable.invariant (initial_invariant nonneg) ?_
    intro state event after held stepped
    exact held.step stepped
  exact invariant.counts

/-- Two threads load the same value, and one of the exchanges fails. -/
theorem semaphore_counts_contended :
    ∃ state : State (Fin 2) Counter Local, (state.locals 0).point = .loadNum ∧
      (state.locals 1).point = .load ∧ Counts 1 state := by
  refine ⟨_, ?_, ?_, semaphore_counts 1 (by decide) 10000 (reachable_get
    [(0, ()), (1, ()), (0, ()), (1, ()), (0, ()), (1, ()), (0, ()), (1, ())] rfl)⟩
  · rfl
  · rfl

theorem follow_round (num : BitVec 32) (completed : Nat) {own : Local} (here : own.point = .loop)
    (more : own.i < rounds) :
    follow (fun now (_ : Unit) => start rounds now.1 now.2) (⟨1, num, completed⟩, own)
        (List.replicate 7 ()) =
      some (⟨1, num + 1, completed + 1⟩, ⟨.loop, own.i + 1, 1, num⟩) := by
  obtain ⟨point, i, val, seen⟩ := own
  cases here
  dsimp only at more
  simp [follow, start, semaWait, semaPost, more]

/-- The threads, one after the other, have made so many increments in all. -/
def Made (count : Nat) (state : State (Fin 214749) Counter Local) : Prop :=
  state.shared = ⟨1, BitVec.ofNat 32 count, count⟩ ∧
    ∀ self, (state.locals self).point = .loop ∧
      (state.locals self).i = min 10000 (count - 10000 * self)

theorem Made.next {state : State (Fin 214749) Counter Local} (made : Made count state)
    (more : count < 2 ^ 31) :
    ∃ events after, Made (count + 1) after ∧
      follow (threads 10000) state events = some after := by
  obtain ⟨⟨value, num, completed⟩, locals⟩ := state
  obtain ⟨shared, each⟩ := made
  cases shared
  let self : Fin 214749 := ⟨count / 10000, by omega⟩
  obtain ⟨here, i⟩ := each self
  have below : (locals self).i < 10000 := by
    rw [i]
    change min 10000 (count - 10000 * (count / 10000)) < 10000
    omega
  have round := follow_round (BitVec.ofNat 32 count) count here below
  refine ⟨_, _, ⟨?_, fun other => ?_⟩, follow_alone self round⟩
  · rw [BitVec.ofNat_add]
    rfl
  by_cases same : other = self
  · subst same
    simp only [Function.update_self, true_and]
    change (locals self).i = min 10000 (count - 10000 * (count / 10000)) at i
    change (locals self).i + 1 = min 10000 (count + 1 - 10000 * (count / 10000))
    omega
  · simp only [Function.update_of_ne same]
    obtain ⟨point, i'⟩ := each other
    refine ⟨point, ?_⟩
    have apart : (other : Nat) ≠ count / 10000 := fun equal => same (Fin.ext equal)
    dsimp only at i' ⊢
    omega

/-- So many threads as `start` has them make 2^31 increments, with which `num` is negative. -/
theorem increments_overflow :
    ¬ ∀ state : State (Fin 214749) Counter Local, Reachable (threads 10000) (initial 1) state →
      (∀ self, (state.locals self).inside = false) →
      state.shared.num.toInt = state.shared.completed := by
  intro always
  obtain ⟨state, made, reachable⟩ : ∃ state : State (Fin 214749) Counter Local,
      Made (2 ^ 31) state ∧ Reachable (threads 10000) (initial 1) state := by
    have zero : 0 ≤ 2 ^ 31 → Made 0 (initial 1 : State (Fin 214749) Counter Local) :=
      fun _ => ⟨rfl, fun self => ⟨rfl, (Nat.zero_sub _).symm ▸ rfl⟩⟩
    have again (count : Nat) (state : State (Fin 214749) Counter Local)
        (made : count ≤ 2 ^ 31 → Made count state) : ∃ events after,
          (count + 1 ≤ 2 ^ 31 → Made (count + 1) after) ∧
            follow (threads 10000) state events = some after := by
      by_cases more : count < 2 ^ 31
      · obtain ⟨events, after, made', run⟩ := (made (Nat.le_of_lt more)).next more
        exact ⟨events, after, fun _ => made', run⟩
      · exact ⟨[], state, fun few => absurd few (by omega), rfl⟩
    obtain ⟨state, made, reachable⟩ := reachable_rounds
      (fun count state => count ≤ 2 ^ 31 → Made count state) zero again (2 ^ 31)
    exact ⟨state, made (Nat.le_refl _), reachable⟩
  obtain ⟨shared, each⟩ := made
  have outside (self : Fin 214749) : (state.locals self).inside = false := by
    rw [Local.inside, (each self).1]
  have same := always state reachable outside
  rw [shared] at same
  exact absurd same (by decide)

end CssLab.Sync.Sema
