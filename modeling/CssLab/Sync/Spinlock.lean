import CssLab.Lib.Counter
import CssLab.Lib.Transition
import Mathlib.Data.BitVec

/-! The spinlock of `partC/spinlock.c` and the threads that count under it. -/

namespace CssLab.Sync.Spinlock

open Transition Interleaving

/-- `counter_t` with the lock's `n`, and the number of increments whose store
has been done, which the program does not keep. -/
structure Counter where
  n : BitVec 32
  num : BitVec 32
  completed : Nat

/-- Where a thread is in `start`; the first two points of a round are inside `spinlock_lock`. -/
inductive Point
  | loop
  | declareLocked
  | compareExchange
  | loadNum
  | storeNum
  | unlock
  | exited
  deriving DecidableEq, Repr

/-- The locals of `start`, `spinlock_lock` and the register of `counter.num++`. -/
structure Local where
  point : Point
  i : Nat
  locked : BitVec 32
  seen : BitVec 32

def spinlockInit (counter : Counter) : Counter := { counter with n := 0 }

/-- A failed exchange stores the value it saw into `locked`, and the loop goes
on with that value expected. -/
def spinlockLock (counter : Counter) (own : Local) : Counter × Local :=
  match own.point with
  | .declareLocked => (counter, { own with locked := 0, point := .compareExchange })
  | _ =>
    if counter.n = own.locked then
      ({ counter with n := 1 }, { own with point := .loadNum })
    else (counter, { own with locked := counter.n })

def spinlockUnlock (counter : Counter) (own : Local) : Counter × Local :=
  ({ counter with n := 0 }, { own with i := own.i + 1, point := .loop })

/-- One memory access or one test of a thread that counts `rounds` times. -/
def start (rounds : Nat) (counter : Counter) (own : Local) : Option (Counter × Local) :=
  match own.point with
  | .loop =>
    if own.i < rounds then some (counter, { own with point := .declareLocked })
    else some (counter, { own with point := .exited })
  | .declareLocked | .compareExchange => some (spinlockLock counter own)
  | .loadNum => some (counter, { own with seen := counter.num, point := .storeNum })
  | .storeNum =>
    some ({ counter with num := own.seen + 1, completed := counter.completed + 1 },
      { own with point := .unlock })
  | .unlock => some (spinlockUnlock counter own)
  | .exited => none

/-- The threads after `main` has initialised the lock of its zeroed counter. -/
def initial : State Thread Counter Local where
  shared := spinlockInit ⟨0, 0, 0⟩
  locals := fun _ => ⟨.loop, 0, 0, 0⟩

/-- One step of any of the threads. -/
abbrev threads [DecidableEq Thread] (rounds : Nat) :
    State Thread Counter Local → Thread × Unit → Option (State Thread Counter Local) :=
  Interleaving.step fun _ counter own _ => start rounds counter own

/-- Between the return of `spinlock_lock` and the store of `spinlock_unlock`. -/
def Inside (own : Local) : Prop :=
  own.point = .loadNum ∨ own.point = .storeNum ∨ own.point = .unlock

/-- At most one thread is inside, and when none is no increment is lost. -/
def Exclusive (state : State Thread Counter Local) : Prop :=
  (∀ self other, Inside (state.locals self) → Inside (state.locals other) → self = other) ∧
  ((∀ self, ¬ Inside (state.locals self)) → state.shared.num.toInt = state.shared.completed)

/-- The next step is an exchange that expects the lock to be held, after a
failed one has seen it held, and finds it so. -/
def Steals (counter : Counter) (own : Local) : Prop :=
  own.point = .compareExchange ∧ own.locked = 1 ∧ counter.n = 1

/-- The next step opens the lock after more increments than an `int` can count. -/
def Overflows (counter : Counter) (own : Local) : Prop :=
  own.point = .unlock ∧ 2 ^ 31 ≤ counter.completed

/-- The lock is set exactly while some thread holds it, and while none does `num` has
not overflowed. -/
structure LockWord (holder : Option Thread) (counter : Counter) : Prop where
  word : counter.n = (if holder.isSome then 1 else 0)
  counted : counter.num = BitVec.ofNat 32 counter.completed
  few : holder = none → counter.completed < 2 ^ 31

/-- The thread inside is the holder, and what it has loaded is still there. -/
def Holds (holder : Option Thread) (self : Thread) (counter : Counter) (own : Local) : Prop :=
  (Inside own ↔ holder = some self) ∧ (own.point = .storeNum → own.seen = counter.num)

variable {Thread : Type*}

theorem Holds.elsewhere {holder' : Option Thread} (held : Holds holder other counter theirs)
    (num : counter'.num = counter.num) (same : holder' = some other ↔ holder = some other) :
    Holds holder' other counter' theirs := by
  refine ⟨held.1.trans same.symm, ?_⟩
  intro atStore
  rw [num]
  exact held.2 atStore

/-- A step that does not steal the lock, or open it too late, keeps the outline. -/
theorem start_moves {holder : Option Thread} (word : LockWord holder counter)
    (held : Holds holder self counter own) (fair : ¬ Steals counter own)
    (fits : ¬ Overflows counter own) (moved : start rounds counter own = some (counter', own')) :
    ∃ holder' : Option Thread, LockWord holder' counter' ∧ Holds holder' self counter' own' ∧
      ∀ other theirs, other ≠ self → Holds holder other counter theirs →
        Holds holder' other counter' theirs := by
  obtain ⟨inside, seen⟩ := held
  obtain ⟨point, i, locked, register⟩ := own
  cases point with
  | loop =>
    have outside : holder ≠ some self := by simpa [Inside] using inside
    refine ⟨holder, ?_⟩
    simp only [start] at moved
    split at moved <;> cases moved <;>
      exact ⟨word, by simp [Holds, Inside, outside], fun _ _ _ theirs => theirs⟩
  | declareLocked =>
    have outside : holder ≠ some self := by simpa [Inside] using inside
    cases moved
    exact ⟨holder, word, by simp [Holds, Inside, outside], fun _ _ _ theirs => theirs⟩
  | compareExchange =>
    have outside : holder ≠ some self := by simpa [Inside] using inside
    simp only [start, spinlockLock] at moved
    split at moved <;> rename_i found <;> cases moved
    · -- the exchange is fair, so what it found is an open lock
      have unheld : holder = none := by
        cases holder with
        | none => rfl
        | some taken =>
          have set : counter.n = 1 := by simpa using word.word
          exact absurd ⟨rfl, found.symm.trans set, set⟩ fair
      subst unheld
      refine ⟨some self, ⟨rfl, word.counted, nofun⟩, by simp [Holds, Inside], ?_⟩
      intro other theirs apart held
      exact held.elsewhere rfl (by simp [apart.symm])
    · exact ⟨holder, word, by simp [Holds, Inside, outside], fun _ _ _ theirs => theirs⟩
  | loadNum =>
    have mine : holder = some self := by simpa [Inside] using inside
    cases moved
    exact ⟨holder, word, by simp [Holds, Inside, mine], fun _ _ _ theirs => theirs⟩
  | storeNum =>
    have mine : holder = some self := by simpa [Inside] using inside
    have loaded : register = counter.num := seen rfl
    cases moved
    refine ⟨holder, ⟨word.word, ?_, ?_⟩, by simp [Holds, Inside, mine], ?_⟩
    · rw [loaded, word.counted, BitVec.ofNat_add]
      rfl
    · rw [mine]
      exact nofun
    · -- nobody else is between its load and its store
      intro other theirs apart held
      refine ⟨held.1, ?_⟩
      intro atStore
      have both : holder = some other := held.1.mp (Or.inr (Or.inl atStore))
      exact absurd (Option.some.inj (both.symm.trans mine)) apart
  | unlock =>
    have mine : holder = some self := by simpa [Inside] using inside
    cases moved
    refine ⟨none, ⟨rfl, word.counted, fun _ => ?_⟩, by simp [Holds, Inside], ?_⟩
    · exact Nat.lt_of_not_le fun many => fits ⟨rfl, many⟩
    intro other theirs apart held
    exact held.elsewhere rfl (by simp [mine, apart.symm])
  | exited => cases moved

theorem initial_outline : Outline LockWord Holds (initial : State Thread Counter Local) :=
  ⟨none, ⟨rfl, rfl, fun _ => Nat.two_pow_pos 31⟩, fun _ => by simp [initial, Holds, Inside]⟩

theorem exclusive_of_outline {state : State Thread Counter Local}
    (outline : Outline LockWord Holds state) : Exclusive state := by
  obtain ⟨holder, word, each⟩ := outline
  constructor
  · intro self other mine theirs
    have first := (each self).1.mp mine
    have second := (each other).1.mp theirs
    exact Option.some.inj (first.symm.trans second)
  · intro outside
    have unheld : holder = none := by
      rw [Option.eq_none_iff_forall_ne_some]
      exact fun owner held => outside owner ((each owner).1.mpr held)
    rw [word.counted]
    exact (Counter.toInt_eq_iff _).mpr (word.few unheld)

variable [DecidableEq Thread]

/-- A thread that steals the lock is inside beside its holder. -/
theorem steals_not_exclusive {state after : State Thread Counter Local}
    (outline : Outline LockWord Holds state)
    (steals : Steals state.shared (state.locals self))
    (stepped : threads rounds state (self, action) = some after) : ¬ Exclusive after := by
  obtain ⟨holder, word, each⟩ := outline
  obtain ⟨point, expected, set⟩ := steals
  obtain ⟨owner, held⟩ : ∃ owner, holder = some owner := by
    cases holder with
    | none => simpa [set] using word.word
    | some owner => exact ⟨owner, rfl⟩
  have ownerInside : Inside (state.locals owner) := (each owner).1.mpr held
  have apart : owner ≠ self := by
    rintro rfl
    simp [Inside, point] at ownerInside
  obtain ⟨own, moved, locals⟩ := step_eq_some stepped
  have entered : own.point = .loadNum := by
    simp only [start, point, spinlockLock, set, expected, if_pos] at moved
    have same : _ = own := congrArg Prod.snd (Option.some.inj moved)
    rw [← same]
  intro exclusive
  refine apart (exclusive.1 owner self ?_ ?_)
  · rw [locals]
    simpa [apart] using ownerInside
  · rw [locals]
    simp [Inside, entered]

/-- When the lock is opened after too many increments the number does not show them. -/
theorem overflows_not_exclusive {state after : State Thread Counter Local}
    (outline : Outline LockWord Holds state)
    (overflows : Overflows state.shared (state.locals self))
    (stepped : threads rounds state (self, action) = some after) : ¬ Exclusive after := by
  obtain ⟨holder, -, each⟩ := outline
  obtain ⟨point, many⟩ := overflows
  obtain ⟨own, moved, locals⟩ := step_eq_some stepped
  simp only [start, point, spinlockUnlock, Option.some.injEq, Prod.mk.injEq] at moved
  obtain ⟨shared, rfl⟩ := moved
  intro exclusive
  have held : holder = some self := (each self).1.mp (.inr (.inr point))
  have shown := exclusive.2 fun other inside => ?_
  · have upper := BitVec.toInt_lt (x := after.shared.num)
    have same : after.shared.completed = state.shared.completed := by rw [← shared]
    omega
  · rw [locals] at inside
    by_cases same : other = self
    · subst same
      simp [Inside] at inside
    · rw [Function.update_of_ne same] at inside
      have also := (each other).1.mp inside
      exact same (Option.some.inj (also.symm.trans held))

/-- In every run the threads exclude each other and lose no increment exactly when no
exchange of the run expects a held lock and nobody opens the lock with 2^31 increments done. -/
theorem exclusive_iff_no_steal (rounds : Nat) (events : List (Thread × Unit)) :
    Always (threads rounds) Exclusive initial events ↔
      EachStep (threads rounds)
        (fun state event => ¬ Steals state.shared (state.locals event.1) ∧
          ¬ Overflows state.shared (state.locals event.1)) initial events := by
  refine always_iff_eachStep (Outline LockWord Holds) ?_ ?_ ?_ initial_outline events
  · intro state event after outline good stepped
    exact outline.step (fun _ _ word held moved => start_moves word held good.1 good.2 moved)
      stepped
  · exact fun state outline => exclusive_of_outline outline
  · intro state event after outline bad stepped
    rcases not_and_or.mp bad with stolen | late
    · exact steals_not_exclusive outline (not_not.mp stolen) stepped
    · exact overflows_not_exclusive outline (not_not.mp late) stepped

/-- Two threads: the second one's exchange fails, its next one succeeds, and
one of the two increments is lost. -/
theorem two_inside :
    ¬ ∀ state : State (Fin 2) Counter Local, Reachable (threads 10000) initial state →
      Exclusive state := by
  intro all
  have both := (all _ (reachable_get
    [(0, ()), (0, ()), (0, ()), (1, ()), (1, ()), (1, ()), (1, ())] rfl)).1 0 1
  exact absurd (both (by simp [Inside]; decide) (by simp [Inside]; decide)) (by decide)

end CssLab.Sync.Spinlock
