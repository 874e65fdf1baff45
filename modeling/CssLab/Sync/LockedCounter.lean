import CssLab.Lib.Mutex
import Mathlib.Algebra.BigOperators.Ring.Finset
import Mathlib.Algebra.Order.BigOperators.Group.Finset
import Mathlib.Algebra.Order.Ring.Int
import Mathlib.Data.Fintype.Basic
import Mathlib.Tactic.Linarith

/-! The threads of `partB/mutex.c` and `partB/spinlock.c`, which count up and down under a lock
of pthreads. -/

namespace CssLab.Sync.LockedCounter

open Transition Interleaving

abbrev numThreads : Nat := 10

def numIterations : Nat := 10000

/-- What `counter_t` has beside the counter. -/
inductive Lock
  | mutex
  | spinlock

/-- `counter_t`, with whether a thread has the lock. -/
structure Counter where
  locked : Bool
  counter : Int

inductive Point
  | loop
  | lock
  | load
  | store
  | unlock
  | exited
  deriving DecidableEq, Repr

structure Local where
  point : Point
  i : Nat
  seen : Int
  deriving DecidableEq

def initializeCounter : Counter := ⟨false, 0⟩

/-- `pthread_mutex_lock` waits where `pthread_spin_lock` tries again. -/
def acquire (lock : Lock) (shared : Counter) (own : Local) : Option (Counter × Local) :=
  if shared.locked then
    match lock with
    | .mutex => none
    | .spinlock => some (shared, own)
  else some ({ shared with locked := true }, { own with point := .load })

/-- A step of a thread that counts by this under the lock. -/
def count (delta : Int) (lock : Lock) (shared : Counter) (own : Local) :
    Option (Counter × Local) :=
  match own.point with
  | .loop =>
    if own.i < numIterations then some (shared, { own with point := .lock })
    else some (shared, { own with point := .exited })
  | .lock => acquire lock shared own
  | .load => some (shared, { own with seen := shared.counter, point := .store })
  | .store => some ({ shared with counter := own.seen + delta }, { own with point := .unlock })
  | .unlock => some ({ shared with locked := false }, { own with i := own.i + 1, point := .loop })
  | .exited => none

def incrementCount : Lock → Counter → Local → Option (Counter × Local) := count 1

def decrementCount : Lock → Counter → Local → Option (Counter × Local) := count (-1)

/-- What `main` has the threads run, the first half of them the one and the others the other. -/
def start (lock : Lock) (self : Fin numThreads) (shared : Counter) (own : Local) (_ : Unit) :
    Option (Counter × Local) :=
  if self < numThreads / 2 then incrementCount lock shared own
  else decrementCount lock shared own

/-- One step of any of the threads. -/
abbrev threads (lock : Lock) : State (Fin numThreads) Counter Local → Fin numThreads × Unit →
    Option (State (Fin numThreads) Counter Local) :=
  Interleaving.step (start lock)

def created : State (Fin numThreads) Counter Local :=
  ⟨initializeCounter, fun _ => ⟨.loop, 0, 0⟩⟩

/-- Between the return of the lock function and the unlocking. -/
def Local.inside (own : Local) : Bool :=
  match own.point with
  | .load | .store | .unlock => true
  | _ => false

def delta (self : Fin numThreads) : Int := if self < numThreads / 2 then 1 else -1

theorem start_eq : start lock self shared own action = count (delta self) lock shared own := by
  rw [start, delta]
  split <;> rfl

/-- What the lock guards is that nothing that a thread has counted is missing. -/
def guard : Guard (Fin numThreads) Counter Local (Fin numThreads → Int) where
  held shared := shared.locked
  inside own := own.inside
  resource counted shared := shared.counter = ∑ self, counted self
  holding counted self shared own :=
    shared.counter = ∑ self, counted self ∧ own.i < numIterations ∧
      (own.point = .store → own.seen = shared.counter) ∧
      counted self = (if own.point = .unlock then own.i + 1 else own.i) * delta self
  outside counted self _ own :=
    own.i ≤ numIterations ∧ (own.point = .lock → own.i < numIterations) ∧
      (own.point = .exited → own.i = numIterations) ∧ counted self = own.i * delta self

variable {counted : Fin numThreads → Int} {self : Fin numThreads} {shared shared' : Counter}
  {own own' : Local} {lock : Lock}

/-- What one thread has counted is no business of the others. -/
theorem yields_update (value : Int) :
    guard.Yields self counted shared (Function.update counted self value) shared' := by
  intro other theirs apart known
  obtain ⟨most, more, ended, mine⟩ := known
  refine ⟨most, more, ended, ?_⟩
  rw [Function.update_of_ne apart]
  exact mine

theorem yields_same : guard.Yields self counted shared counted shared' :=
  fun _ _ _ known => known

theorem count_moves (holding : own.inside = true → guard.holding counted self shared own)
    (outside : own.inside = false → guard.outside counted self shared own)
    (moved : count (delta self) lock shared own = some (shared', own')) :
    guard.Moves self counted shared own shared' own' := by
  obtain ⟨point, i, seen⟩ := own
  cases point with
  | loop =>
    obtain ⟨most, -, -, mine⟩ := outside rfl
    simp only [count] at moved
    split at moved
    · rename_i more
      cases moved
      exact .away counted rfl rfl rfl ⟨most, fun _ => more, nofun, mine⟩ id (fun _ _ _ => id)
        yields_same
    · rename_i past
      cases moved
      exact .away counted rfl rfl rfl ⟨most, nofun, fun _ => Nat.le_antisymm most
        (Nat.le_of_not_lt past), mine⟩ id (fun _ _ _ => id) yields_same
  | lock =>
    obtain ⟨most, more, ended, mine⟩ := outside rfl
    simp only [count, acquire] at moved
    split at moved
    · -- only a spinning thread has a step here
      cases lock with
      | mutex => cases moved
      | spinlock =>
        cases moved
        exact .away counted rfl rfl rfl ⟨most, more, ended, mine⟩ id (fun _ _ _ => id) yields_same
    · rename_i free
      cases moved
      refine .lock rfl rfl (Bool.not_eq_true _ ▸ free) rfl fun exact => ⟨counted, ?_, yields_same⟩
      exact ⟨exact, more rfl, nofun, mine⟩
  | load =>
    obtain ⟨exact', more, -, mine⟩ := holding rfl
    cases moved
    exact .within counted rfl rfl rfl ⟨exact', more, fun _ => rfl, mine⟩ yields_same
  | store =>
    obtain ⟨exact', more, loaded, mine⟩ := holding rfl
    cases moved
    refine .within (Function.update counted self ((i + 1) * delta self)) rfl rfl rfl
      ⟨?_, more, nofun, Function.update_self _ _ _⟩ (yields_update _)
    have same : seen = shared.counter := loaded rfl
    have mine : counted self = i * delta self := mine
    rw [Finset.sum_update_of_mem (Finset.mem_univ self), ← Finset.erase_eq]
    rw [← Finset.add_sum_erase _ _ (Finset.mem_univ self), mine] at exact'
    change seen + delta self = _
    rw [same, exact']
    linarith
  | unlock =>
    obtain ⟨exact', more, -, mine⟩ := holding rfl
    cases moved
    refine .unlock counted rfl rfl rfl exact' ⟨more, nofun, nofun, ?_⟩ yields_same
    exact mine.trans (congrArg (· * delta self) (Nat.cast_succ i).symm)
  | exited => cases moved

theorem reachable_outline {state : State (Fin numThreads) Counter Local}
    (reachable : Reachable (threads lock) created state) :
    Outline guard.invariant guard.asserts state := by
  refine reachable.invariant ?_ fun state event after outline stepped => ?_
  · refine ⟨(none, fun _ => 0), ⟨rfl, fun _ => ?_⟩, fun self => ?_⟩
    · exact Finset.sum_const_zero.symm
    · exact (Guard.asserts_outside rfl).mpr ⟨nofun, Nat.zero_le _, nofun, nofun, (zero_mul _).symm⟩
  · obtain ⟨self, action⟩ := event
    refine Guard.keeps_outline outline (fun counted own holding outside moved => ?_) stepped
    rw [start_eq] at moved
    exact count_moves holding outside moved

/-- In every state of the outline the counter is the sum of what the threads have counted. -/
theorem counted_of_outline {state : State (Fin numThreads) Counter Local}
    (outline : Outline guard.invariant guard.asserts state) :
    ∃ done : Fin numThreads → Nat, (∀ self, done self ≤ numIterations) ∧
      (∀ self, (state.locals self).point = .exited → done self = numIterations) ∧
      state.shared.counter = ∑ self, done self * delta self := by
  obtain ⟨⟨holder, counted⟩, ⟨held, resource⟩, each⟩ := outline
  have part (self : Fin numThreads) : ∃ done : Nat, done ≤ numIterations ∧
      ((state.locals self).point = .exited → done = numIterations) ∧
      counted self = done * delta self := by
    have known := each self
    cases inside : (state.locals self).inside with
    | true =>
      obtain ⟨-, -, more, -, mine⟩ := (Guard.asserts_inside inside).mp known
      refine ⟨if (state.locals self).point = .unlock then (state.locals self).i + 1
        else (state.locals self).i, ?_, fun exited => ?_, ?_⟩
      · split
        · exact more
        · exact Nat.le_of_lt more
      · rw [Local.inside, exited] at inside
        exact absurd inside Bool.false_ne_true
      · exact mine
    | false =>
      obtain ⟨-, most, -, ended, mine⟩ := (Guard.asserts_outside inside).mp known
      exact ⟨(state.locals self).i, most, ended, mine⟩
  choose done most ended mine using part
  refine ⟨done, most, ended, ?_⟩
  rw [← Finset.sum_congr rfl fun self _ => mine self]
  cases who : holder with
  | none => exact resource who
  | some owner =>
    have known := each owner
    cases inside : (state.locals owner).inside with
    | true => exact ((Guard.asserts_inside inside).mp known).2.1
    | false => exact absurd who ((Guard.asserts_outside inside).mp known).1

/-- The steps that a thread has left. -/
def Local.weight (own : Local) : Nat :=
  5 * (numIterations - own.i) + 1 - match own.point with
    | .loop => 0
    | .lock => 1
    | .load => 2
    | .store => 3
    | .unlock => 4
    | .exited => 5 * (numIterations - own.i) + 1

/-- A thread that does not wait for the lock comes nearer to its end. -/
theorem count_progress (holding : own.inside = true → own.i < numIterations)
    (outside : own.point = .lock → own.i < numIterations) (other : own.point ≠ .exited)
    (free : own.inside = false → shared.locked = false) :
    ∃ shared' own', count (delta self) lock shared own = some (shared', own') ∧
      own'.weight < own.weight := by
  obtain ⟨point, i, seen⟩ := own
  cases point with
  | loop =>
    by_cases more : i < numIterations
    · exact ⟨shared, ⟨.lock, i, seen⟩, if_pos more, by simp only [Local.weight]; omega⟩
    · exact ⟨shared, ⟨.exited, i, seen⟩, if_neg more, by simp only [Local.weight]; omega⟩
  | lock =>
    have more := outside rfl
    dsimp only at more
    refine ⟨{ shared with locked := true }, ⟨.load, i, seen⟩, ?_, ?_⟩
    · have unheld : ¬shared.locked = true := Bool.eq_false_iff.mp (free rfl)
      simp only [count, acquire, if_neg unheld]
    · simp only [Local.weight]
      omega
  | exited => exact absurd rfl other
  | _ =>
    have more := holding rfl
    dsimp only at more
    exact ⟨_, _, rfl, by simp only [Local.weight]; omega⟩

/-- While not all have exited, the thread that has the lock can go on, or any other one. -/
theorem threads_progress (lock : Lock) (state : State (Fin numThreads) Counter Local)
    (outline : Outline guard.invariant guard.asserts state)
    (going : ¬∀ self, (state.locals self).point = .exited) :
    ∃ event after, threads lock state event = some after ∧
      Outline guard.invariant guard.asserts after ∧
      ∑ self, (after.locals self).weight < ∑ self, (state.locals self).weight := by
  obtain ⟨⟨holder, counted⟩, ⟨held, -⟩, each⟩ := id outline
  have known (self : Fin numThreads) :
      ((state.locals self).inside = true → (state.locals self).i < numIterations) ∧
      ((state.locals self).point = .lock → (state.locals self).i < numIterations) := by
    constructor
    · exact fun inside => ((Guard.asserts_inside inside).mp (each self)).2.2.1
    · intro waits
      have inside : (state.locals self).inside = false := by
        rw [Local.inside, waits]
      exact ((Guard.asserts_outside inside).mp (each self)).2.2.1 waits
  have chosen : ∃ self, (state.locals self).point ≠ .exited ∧
      ((state.locals self).inside = false → state.shared.locked = false) := by
    cases who : holder with
    | none =>
      obtain ⟨self, other⟩ := not_forall.mp going
      exact ⟨self, other, fun _ => held.trans (congrArg Option.isSome who)⟩
    | some owner =>
      cases inside : (state.locals owner).inside with
      | true =>
        refine ⟨owner, fun exited => ?_, fun outside => ?_⟩
        · rw [Local.inside, exited] at inside
          exact absurd inside Bool.false_ne_true
        · exact absurd (inside.symm.trans outside) (Bool.false_ne_true ∘ Eq.symm)
      | false => exact absurd who ((Guard.asserts_outside inside).mp (each owner)).1
  obtain ⟨self, other, free⟩ := chosen
  have progress : ∃ shared' own', count (delta self) lock state.shared (state.locals self) =
      some (shared', own') ∧ own'.weight < (state.locals self).weight :=
    count_progress (known self).1 (known self).2 other free
  obtain ⟨shared', own', moved, lighter⟩ := progress
  have moved' : start lock self state.shared (state.locals self) () = some (shared', own') :=
    start_eq.trans moved
  have stepped : threads lock state (self, ()) =
      some ⟨shared', Function.update state.locals self own'⟩ := by
    simp only [threads, Interleaving.step, moved', Option.map_some]
  refine ⟨(self, ()), _, stepped, ?_, ?_⟩
  · refine Guard.keeps_outline outline (fun counted own holding outside moved => ?_) stepped
    rw [start_eq] at moved
    exact count_moves holding outside moved
  · dsimp only
    refine Finset.sum_lt_sum (fun which _ => ?_) ⟨self, Finset.mem_univ self, ?_⟩
    · by_cases same : which = self
      · subst same
        rw [Function.update_self]
        exact Nat.le_of_lt lighter
      · rw [Function.update_of_ne same]
    · rw [Function.update_self]
      exact lighter

/-- One thread at most is inside, the counter does not overflow and is 0 when all threads have
exited, and they still can. -/
def Sound (lock : Lock) (state : State (Fin numThreads) Counter Local) : Prop :=
  (∀ self other, (state.locals self).inside → (state.locals other).inside → self = other) ∧
  (-50000 ≤ state.shared.counter ∧ state.shared.counter ≤ 50000) ∧
  ((∀ self, (state.locals self).point = .exited) → state.shared.counter = 0) ∧
  ∃ events last, follow (threads lock) state events = some last ∧
    ∀ self, (last.locals self).point = .exited

/-- Under either lock every state is sound that a run comes to, so that `main` gets to its
assertion, which holds. -/
theorem counter_sound (lock : Lock) (state : State (Fin numThreads) Counter Local)
    (reachable : Reachable (threads lock) created state) : Sound lock state := by
  have outline := reachable_outline reachable
  obtain ⟨done, most, ended, exact⟩ := counted_of_outline outline
  refine ⟨fun self other mine theirs => ?_, ?_, fun exited => ?_, ?_⟩
  · obtain ⟨⟨holder, counted⟩, -, each⟩ := outline
    have first := ((Guard.asserts_inside mine).mp (each self)).1
    have second := ((Guard.asserts_inside theirs).mp (each other)).1
    exact Option.some.inj (first.symm.trans second)
  · rw [exact]
    have bounds (self : Fin numThreads) :
        min (delta self) 0 * numIterations ≤ done self * delta self ∧
        done self * delta self ≤ max (delta self) 0 * numIterations := by
      have fewer : (done self : Int) ≤ numIterations := Int.ofNat_le.mpr (most self)
      unfold delta
      split
      · simp only [min_eq_right zero_le_one, max_eq_left zero_le_one]
        constructor <;> linarith
      · simp only [min_eq_left neg_one_lt_zero.le, max_eq_right neg_one_lt_zero.le]
        constructor <;> linarith
    constructor
    · refine le_trans (le_of_eq ?_) (Finset.sum_le_sum fun self _ => (bounds self).1)
      decide
    · refine le_trans (Finset.sum_le_sum fun self _ => (bounds self).2) (le_of_eq ?_)
      decide
  · rw [exact, Finset.sum_congr rfl fun self _ => by rw [ended self (exited self)]]
    decide
  · exact follow_finishes (fun state => ∑ self, (state.locals self).weight)
      (threads_progress lock) outline

/-- The first thread has the mutex, and the last one is about to wait for it. -/
theorem counter_sound_held : ∃ state, Reachable (threads .mutex) created state ∧
    state.shared.locked = true ∧ (state.locals 9).point = .lock ∧ Sound .mutex state := by
  have reachable : Reachable (threads .mutex) created _ :=
    reachable_get [(0, ()), (0, ()), (9, ())] rfl
  exact ⟨_, reachable, rfl, rfl, counter_sound .mutex _ reachable⟩

end CssLab.Sync.LockedCounter
