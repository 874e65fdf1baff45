import CssLab.Lib.LostUpdate

/-! The threads of `partC/atomic.c`, which count with one atomic addition and without it. -/

namespace CssLab.Sync.Atomic

open Transition Interleaving

def numThreads : Nat := 10

/-- `N` -/
def rounds : Nat := 10000

structure Counters where
  acnt : Int
  cnt : Int

/-- Where a thread is in `start`; `cnt++` is a load and a store. -/
inductive Point
  | loop
  | fetchAdd
  | load
  | store
  | returned
  deriving DecidableEq, Repr

structure Local where
  point : Point
  i : Nat
  seen : Int
  deriving DecidableEq

def start (counters : Counters) (own : Local) : Option (Counters × Local) :=
  match own.point with
  | .loop =>
    if own.i < rounds then some (counters, { own with point := .fetchAdd })
    else some (counters, { own with point := .returned })
  | .fetchAdd => some ({ counters with acnt := counters.acnt + 1 }, { own with point := .load })
  | .load => some (counters, { own with seen := counters.cnt, point := .store })
  | .store =>
    some ({ counters with cnt := own.seen + 1 }, { own with i := own.i + 1, point := .loop })
  | .returned => none

def thread (_ : Fin numThreads) (counters : Counters) (own : Local) (_ : Unit) :
    Option (Counters × Local) :=
  start counters own

/-- One step of any of the threads. -/
abbrev threads : State (Fin numThreads) Counters Local → Fin numThreads × Unit →
    Option (State (Fin numThreads) Counters Local) :=
  Interleaving.step thread

/-- The counters are 0 when `main` creates the threads. -/
def created : State (Fin numThreads) Counters Local := ⟨⟨0, 0⟩, fun _ => ⟨.loop, 0, 0⟩⟩

/-- The threads that only count without the atomic addition. -/
abbrev racing : State (Fin numThreads) Int LostUpdate.Local → Fin numThreads × Unit →
    Option (State (Fin numThreads) Int LostUpdate.Local) :=
  LostUpdate.threads (fun _ => 1) rounds

/-- A thread waits at its load for its atomic addition. -/
def Point.plain : Point → LostUpdate.Point
  | .loop => .loop
  | .fetchAdd => .load
  | .load => .load
  | .store => .store
  | .returned => .exited

def Local.plain (own : Local) : LostUpdate.Local := ⟨own.point.plain, own.i, own.seen⟩

def plain (state : State (Fin numThreads) Counters Local) :
    State (Fin numThreads) Int LostUpdate.Local :=
  ⟨state.shared.cnt, fun self => (state.locals self).plain⟩

theorem plain_update (state : State (Fin numThreads) Counters Local) (self : Fin numThreads)
    (counters : Counters) (own : Local) :
    plain ⟨counters, Function.update state.locals self own⟩ =
      ⟨counters.cnt, Function.update (plain state).locals self own.plain⟩ := by
  refine congrArg (State.mk counters.cnt) (funext fun other => ?_)
  by_cases which : other = self
  · subst which
    simp
  · simp [which, plain]

/-- A step is one of the threads that race, or its atomic addition. -/
theorem start_plain (moved : start counters own = some (counters', own')) :
    counters'.cnt = counters.cnt ∧ own'.plain = own.plain ∨
      LostUpdate.add 1 rounds counters.cnt own.plain = some (counters'.cnt, own'.plain) := by
  obtain ⟨point, i, seen⟩ := own
  cases point with
  | loop =>
    simp only [start] at moved
    split at moved
    · rename_i more
      cases moved
      exact .inr (if_pos more)
    · rename_i past
      cases moved
      exact .inr (if_neg past)
  | fetchAdd =>
    cases moved
    exact .inl ⟨rfl, rfl⟩
  | load =>
    cases moved
    exact .inr rfl
  | store =>
    cases moved
    exact .inr rfl
  | returned => cases moved

theorem plain_step (state : State (Fin numThreads) Counters Local)
    (event : Fin numThreads × Unit) (after : State (Fin numThreads) Counters Local)
    (stepped : threads state event = some after) :
    plain after = plain state ∨ ∃ event', racing (plain state) event' = some (plain after) := by
  obtain ⟨self, action⟩ := event
  obtain ⟨own, moved, locals⟩ := step_eq_some stepped
  obtain ⟨counters, locals'⟩ := after
  subst locals
  rw [plain_update]
  rcases start_plain moved with ⟨cnt, same⟩ | moves
  · left
    rw [cnt, same]
    exact congrArg (State.mk state.shared.cnt) (Function.update_eq_self self (plain state).locals)
  · right
    refine ⟨(self, ()), ?_⟩
    have raced : LostUpdate.thread (fun _ => 1) rounds self state.shared.cnt
        (state.locals self).plain () = some (counters.cnt, own.plain) := moves
    simp only [racing, LostUpdate.threads, Interleaving.step, plain, raced, Option.map_some]

/-- Where a thread goes on that does its atomic addition with its load. -/
theorem start_lifts (self : Fin numThreads) (point : own.point ≠ .load)
    (moved : LostUpdate.add 1 rounds counters.cnt own.plain = some (cell, theirs)) :
    ∃ actions counters' own', follow (fun now => thread self now.1 now.2) (counters, own) actions =
        some (counters', own') ∧
      counters'.cnt = cell ∧ own'.plain = theirs ∧ own'.point ≠ .load := by
  obtain ⟨place, i, seen⟩ := own
  cases place with
  | loop =>
    by_cases more : i < rounds
    · cases moved.symm.trans (if_pos more)
      refine ⟨[()], counters, ⟨.fetchAdd, i, seen⟩, ?_, rfl, rfl, by simp⟩
      simp only [follow, thread, start, if_pos more, Option.bind_some]
    · cases moved.symm.trans (if_neg more)
      refine ⟨[()], counters, ⟨.returned, i, seen⟩, ?_, rfl, rfl, by simp⟩
      simp only [follow, thread, start, if_neg more, Option.bind_some]
  | fetchAdd =>
    cases moved
    exact ⟨[(), ()], _, ⟨.store, i, counters.cnt⟩, rfl, rfl, rfl, by simp⟩
  | load => exact absurd rfl point
  | store =>
    cases moved
    exact ⟨[()], _, ⟨.loop, i + 1, seen⟩, rfl, rfl, rfl, by simp⟩
  | returned => cases moved

/-- The same, with no thread between its atomic addition and its load. -/
def Lifts (state : State (Fin numThreads) Int LostUpdate.Local)
    (state' : State (Fin numThreads) Counters Local) : Prop :=
  plain state' = state ∧ ∀ self, (state'.locals self).point ≠ .load

theorem lifts_step (state : State (Fin numThreads) Int LostUpdate.Local)
    (state' : State (Fin numThreads) Counters Local) (event : Fin numThreads × Unit)
    (after : State (Fin numThreads) Int LostUpdate.Local) (lifts : Lifts state state')
    (stepped : racing state event = some after) :
    ∃ events after', follow threads state' events = some after' ∧ Lifts after after' := by
  obtain ⟨self, action⟩ := event
  obtain ⟨theirs, moved, locals⟩ := step_eq_some stepped
  obtain ⟨rfl, none⟩ := lifts
  obtain ⟨cell, locals'⟩ := after
  subst locals
  obtain ⟨actions, counters, own, run, cnt, same, none'⟩ := start_lifts self (none self) moved
  refine ⟨_, _, follow_alone self run, ?_, fun other => ?_⟩
  · rw [plain_update, cnt, same]
  · by_cases which : other = self
    · subst which
      simpa using none'
    · simpa [which] using none other

/-- Every run of the threads that race is one of these. -/
theorem reachable_lift {state : State (Fin numThreads) Int LostUpdate.Local}
    (reachable : Reachable racing ⟨0, fun _ => LostUpdate.initial⟩ state) :
    ∃ state', Reachable threads created state' ∧ plain state' = state := by
  have start : Lifts ⟨0, fun _ => LostUpdate.initial⟩ created := ⟨rfl, fun _ => by simp [created]⟩
  obtain ⟨state', reachable', same, -⟩ := reachable.lift start lifts_step
  exact ⟨state', reachable', same⟩

theorem reachable_plain {state : State (Fin numThreads) Counters Local}
    (reachable : Reachable threads created state) :
    Reachable racing ⟨0, fun _ => LostUpdate.initial⟩ (plain state) :=
  reachable.project plain plain_step

/-- What a thread has added to `acnt`. -/
def Local.added (own : Local) : Int :=
  own.i + if own.point = .load ∨ own.point = .store then 1 else 0

def Exact (state : State (Fin numThreads) Counters Local) : Prop :=
  state.shared.acnt = ∑ self, (state.locals self).added

theorem start_added (moved : start counters own = some (counters', own')) :
    counters'.acnt - counters.acnt = own'.added - own.added := by
  obtain ⟨point, i, seen⟩ := own
  cases point with
  | loop =>
    simp only [start] at moved
    split at moved <;> cases moved <;> simp [Local.added]
  | returned => cases moved
  | _ =>
    cases moved
    simp [Local.added]

theorem Exact.step {state after : State (Fin numThreads) Counters Local} (exact : Exact state)
    (stepped : threads state (self, action) = some after) : Exact after := by
  obtain ⟨own, moved, locals⟩ := step_eq_some stepped
  have added := start_added moved
  unfold Exact at exact ⊢
  rw [locals]
  have each : (fun other => (Function.update state.locals self own other).added) =
      Function.update (fun other => (state.locals other).added) self own.added := by
    funext other
    by_cases which : other = self
    · subst which
      simp
    · simp [which]
  rw [each, Finset.sum_update_of_mem (Finset.mem_univ self), ← Finset.erase_eq]
  rw [← Finset.add_sum_erase _ _ (Finset.mem_univ self)] at exact
  linarith

theorem reachable_exact {state : State (Fin numThreads) Counters Local}
    (reachable : Reachable threads created state) : Exact state := by
  refine reachable.invariant ?_ fun state event after exact stepped => ?_
  · simp [Exact, created, Local.added]
  · obtain ⟨self, action⟩ := event
    exact exact.step stepped

theorem exited_iff (state : State (Fin numThreads) Counters Local) (self : Fin numThreads) :
    ((plain state).locals self).point = .exited ↔ (state.locals self).point = .returned := by
  change (state.locals self).point.plain = .exited ↔ _
  cases (state.locals self).point <;> simp [Point.plain]

/-- Once all threads have returned, no addition to the atomic counter is missing. -/
theorem final_acnt {state : State (Fin numThreads) Counters Local}
    (reachable : Reachable threads created state)
    (returned : ∀ self, (state.locals self).point = .returned) : state.shared.acnt = 100000 := by
  have within := LostUpdate.reachable_within (reachable_plain reachable)
  have each (self : Fin numThreads) : (state.locals self).added = 10000 := by
    have done : (state.locals self).i = rounds :=
      (within.rounds self).2.2 ((exited_iff state self).mpr (returned self))
    simp [Local.added, done, returned self, rounds]
  rw [reachable_exact reachable, Finset.sum_congr rfl fun self _ => each self, Finset.sum_const,
    Finset.card_univ, Fintype.card_fin]
  rfl

/-- `main` prints 100000 for the atomic counter, so that its assertion holds, and for the other one
it can print any value from 2 to that. -/
theorem counters_iff (acnt cnt : Int) :
    (∃ state, Reachable threads created state ∧
      (∀ self, (state.locals self).point = .returned) ∧ state.shared = ⟨acnt, cnt⟩) ↔
      acnt = 100000 ∧ 2 ≤ cnt ∧ cnt ≤ 100000 := by
  have two : 1 < Fintype.card (Fin numThreads) := by decide
  have final := LostUpdate.final_count_iff two (Nat.succ_lt_succ (Nat.succ_pos 9998)) cnt
  have size : (Fintype.card (Fin numThreads) * 10000 : Nat) = (100000 : Int) := by
    rw [Fintype.card_fin]
    rfl
  constructor
  · rintro ⟨state, reachable, returned, shared⟩
    have exited (self : Fin numThreads) := (exited_iff state self).mpr (returned self)
    have left : (plain state).shared = cnt := congrArg Counters.cnt shared
    obtain ⟨lower, upper⟩ := final.mp ⟨plain state, reachable_plain reachable, exited, left⟩
    have acnt := final_acnt reachable returned
    rw [shared] at acnt
    exact ⟨acnt, lower, upper.trans_eq size⟩
  · rintro ⟨rfl, lower, upper⟩
    obtain ⟨state, reachable, exited, shared⟩ := final.mpr ⟨lower, upper.trans_eq size.symm⟩
    obtain ⟨state', reachable', rfl⟩ := reachable_lift reachable
    have returned (self : Fin numThreads) := (exited_iff state' self).mp (exited self)
    refine ⟨state', reachable', returned, ?_⟩
    have acnt := final_acnt reachable' returned
    obtain ⟨⟨acnt', cnt'⟩, locals⟩ := state'
    cases acnt
    cases shared
    rfl

end CssLab.Sync.Atomic
