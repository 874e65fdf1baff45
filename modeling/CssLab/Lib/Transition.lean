import Mathlib.Logic.Function.Basic

/-! Runs of a partial step function: an action is enabled where the function
gives a next state. Below, systems of threads that share a state and take
their steps in any order, with the rule that proves an invariant of all of
them from one obligation on a single step. -/

namespace CssLab.Transition

variable {State Action : Type*} {step : State → Action → Option State} {first : State}

/-- The state after the actions, if each of them is enabled in its turn. -/
def follow (step : State → Action → Option State) : State → List Action → Option State
  | state, [] => some state
  | state, action :: rest => (step state action).bind (follow step · rest)

/-- States some run from `first` ends in. -/
def Reachable (step : State → Action → Option State) (first state : State) : Prop :=
  ∃ actions, follow step first actions = some state

/-- `holds` in every state of the run that takes the actions in order, up to
the first one that is not enabled. -/
def Always (step : State → Action → Option State) (holds : State → Prop) :
    State → List Action → Prop
  | state, [] => holds state
  | state, action :: rest =>
    holds state ∧ ∀ after ∈ step state action, Always step holds after rest

/-- Every step of that run is taken in a state and by an action that meet `good`. -/
def EachStep (step : State → Action → Option State) (good : State → Action → Prop) :
    State → List Action → Prop
  | _, [] => True
  | state, action :: rest =>
    ∀ after ∈ step state action, good state action ∧ EachStep step good after rest

instance decidableEachStep {good : State → Action → Prop}
    [∀ state action, Decidable (good state action)] :
    ∀ state actions, Decidable (EachStep step good state actions)
  | _, [] => .isTrue trivial
  | state, action :: rest =>
    have (after : State) : Decidable (EachStep step good after rest) :=
      decidableEachStep after rest
    inferInstanceAs
      (Decidable (∀ after ∈ step state action, good state action ∧ EachStep step good after rest))

instance decidableAlways {holds : State → Prop} [DecidablePred holds] :
    ∀ state actions, Decidable (Always step holds state actions)
  | state, [] => inferInstanceAs (Decidable (holds state))
  | state, action :: rest =>
    have (after : State) : Decidable (Always step holds after rest) := decidableAlways after rest
    inferInstanceAs
      (Decidable (holds state ∧ ∀ after ∈ step state action, Always step holds after rest))

theorem follow_append (before after : List Action) (state : State) :
    follow step state (before ++ after) =
      (follow step state before).bind (follow step · after) := by
  induction before generalizing state with
  | nil => rfl
  | cons action rest ih =>
    rw [List.cons_append, follow, follow, Option.bind_assoc]
    exact congrArg _ (funext fun _ => ih _)

theorem follow_step (stepped : step state action = some after)
    (run : follow step after rest = some last) :
    follow step state (action :: rest) = some last := by
  rw [follow, stepped, Option.bind_some, run]

theorem reachable_get (actions : List Action) (done : (follow step first actions).isSome) :
    Reachable step first ((follow step first actions).get done) :=
  ⟨actions, (Option.some_get done).symm⟩

theorem Reachable.follow (reachable : Reachable step first state)
    (run : follow step state actions = some last) : Reachable step first last := by
  obtain ⟨before, earlier⟩ := reachable
  exact ⟨before ++ actions, by rw [follow_append, earlier, Option.bind_some, run]⟩

/-- What can be done once more any number of times is done as often as one likes. -/
theorem reachable_rounds (holds : Nat → State → Prop) (zero : holds 0 first)
    (again : ∀ count state, holds count state →
      ∃ actions after, holds (count + 1) after ∧ Transition.follow step state actions = some after)
    (count : Nat) : ∃ state, holds count state ∧ Reachable step first state := by
  induction count with
  | zero => exact ⟨first, zero, [], rfl⟩
  | succ count ih =>
    obtain ⟨state, held, reachable⟩ := ih
    obtain ⟨actions, after, held', run⟩ := again count state held
    exact ⟨after, held', reachable.follow run⟩

theorem follow_keeps_allowed {invariant : State → Prop} {allowed : Action → Prop}
    (keeps : ∀ state action after, invariant state → allowed action →
      step state action = some after → invariant after)
    (all : ∀ action ∈ actions, allowed action) (held : invariant state)
    (run : follow step state actions = some last) : invariant last := by
  induction actions generalizing state with
  | nil =>
    cases run
    exact held
  | cons action rest ih =>
    obtain ⟨after, stepped, tail⟩ := Option.bind_eq_some_iff.mp run
    have next := keeps state action after held (all action List.mem_cons_self) stepped
    exact ih (fun other member => all other (List.mem_cons_of_mem _ member)) next tail

theorem follow_keeps {invariant : State → Prop}
    (keeps : ∀ state action after, invariant state → step state action = some after →
      invariant after)
    (held : invariant state) (run : follow step state actions = some last) :
    invariant last :=
  follow_keeps_allowed (fun state action after now _ => keeps state action after now)
    (fun _ _ => trivial) held run

theorem Reachable.invariant {invariant : State → Prop} (initial : invariant first)
    (keeps : ∀ state action after, invariant state → step state action = some after →
      invariant after)
    (reachable : Reachable step first state) : invariant state := by
  obtain ⟨actions, run⟩ := reachable
  exact follow_keeps keeps initial run

/-- A run ends where it should when until then some step brings it nearer to the end. -/
theorem follow_finishes {invariant done : State → Prop} (measure : State → Nat)
    (progress : ∀ state, invariant state → ¬done state → ∃ action after,
      step state action = some after ∧ invariant after ∧ measure after < measure state)
    (held : invariant state) :
    ∃ actions last, follow step state actions = some last ∧ done last := by
  induction size : measure state using Nat.strongRecOn generalizing state with
  | ind size' ih =>
    by_cases past : done state
    · exact ⟨[], state, rfl, past⟩
    · obtain ⟨action, after, stepped, held', nearer⟩ := progress state held past
      obtain ⟨actions, last, run, past'⟩ := ih (measure after) (size ▸ nearer) held' rfl
      exact ⟨action :: actions, last, follow_step stepped run, past'⟩

/-- Where each step makes something smaller a run is no longer than that was. -/
theorem follow_length_le {invariant : State → Prop} (measure : State → Nat)
    (each : ∀ state action after, invariant state → step state action = some after →
      invariant after ∧ measure after < measure state)
    (held : invariant state) (run : follow step state actions = some last) :
    actions.length + measure last ≤ measure state := by
  induction actions generalizing state with
  | nil =>
    cases run
    exact Nat.le_of_eq (Nat.zero_add _)
  | cons action rest ih =>
    obtain ⟨after, stepped, tail⟩ := Option.bind_eq_some_iff.mp run
    obtain ⟨held', smaller⟩ := each state action after held stepped
    have later := ih held' tail
    rw [List.length_cons]
    omega

/-- The image of a run is one, when that of each step is a step or none. -/
theorem Reachable.project {State' Action' : Type*} {step' : State' → Action' → Option State'}
    (image : State → State')
    (each : ∀ state action after, step state action = some after →
      image after = image state ∨ ∃ action', step' (image state) action' = some (image after))
    (reachable : Reachable step first state) : Reachable step' (image first) (image state) := by
  let holds (state : State) : Prop := Reachable step' (image first) (image state)
  have keeps (before : State) (action : Action) (after : State) (earlier : holds before)
      (stepped : step before action = some after) : holds after := by
    rcases each before action after stepped with same | ⟨action', stepped'⟩
    · change Reachable step' (image first) (image after)
      rw [same]
      exact earlier
    · obtain ⟨actions, run⟩ := earlier
      refine ⟨actions ++ [action'], ?_⟩
      rw [follow_append, run, Option.bind_some]
      exact follow_step stepped' rfl
  have initial : holds first := ⟨[], rfl⟩
  have held : holds state := reachable.invariant initial keeps
  exact held

theorem Reachable.lift {State' Action' : Type*} {step' : State' → Action' → Option State'}
    {first' : State'} {relates : State → State' → Prop} (start : relates first first')
    (each : ∀ state state' action after, relates state state' → step state action = some after →
      ∃ actions after', Transition.follow step' state' actions = some after' ∧
        relates after after')
    (reachable : Reachable step first state) :
    ∃ state', Reachable step' first' state' ∧ relates state state' := by
  let holds (state : State) : Prop := ∃ state', Reachable step' first' state' ∧ relates state state'
  have keeps (before : State) (action : Action) (after : State) (earlier : holds before)
      (stepped : step before action = some after) : holds after := by
    obtain ⟨before', earlier, related⟩ := earlier
    obtain ⟨actions, after', run, related'⟩ := each before before' action after related stepped
    exact ⟨after', earlier.follow run, related'⟩
  have initial : holds first := ⟨first', ⟨[], rfl⟩, start⟩
  have held : holds state := reachable.invariant initial keeps
  exact held

/-- States some run from `first` ends in that comes to no state with the goal. -/
def ReachableBefore (step : State → Action → Option State) (goal : State → Prop)
    (first state : State) : Prop :=
  ∃ actions, follow step first actions = some state ∧
    Always step (fun state => ¬goal state) first actions

theorem reachableBefore_get {goal : State → Prop} (actions : List Action)
    (done : (follow step first actions).isSome)
    (never : Always step (fun state => ¬goal state) first actions) :
    ReachableBefore step goal first ((follow step first actions).get done) :=
  ⟨actions, (Option.some_get done).symm, never⟩

theorem ReachableBefore.refl {goal : State → Prop} (initial : ¬goal first) :
    ReachableBefore step goal first first :=
  ⟨[], rfl, initial⟩

theorem ReachableBefore.next {goal : State → Prop} {state after : State}
    (reachable : ReachableBefore step goal first state) (action : Action)
    (stepped : step state action = some after) (before : ¬goal after) :
    ReachableBefore step goal first after := by
  obtain ⟨actions, run, never⟩ := reachable
  induction actions generalizing first with
  | nil =>
    cases run
    refine ⟨[action], ?_, never, ?_⟩
    · simp [follow, stepped]
    · intro other found
      cases stepped.symm.trans found
      exact before
  | cons earlier rest ih =>
    obtain ⟨second, earlierStepped, tail⟩ := Option.bind_eq_some_iff.mp run
    obtain ⟨actions, run', never'⟩ := ih tail (never.2 second earlierStepped)
    refine ⟨earlier :: actions, ?_, never.1, ?_⟩
    · simp [follow, earlierStepped, run']
    · intro other found
      cases earlierStepped.symm.trans found
      exact never'

theorem ReachableBefore.invariant {goal invariant : State → Prop} {state : State}
    (reachable : ReachableBefore step goal first state) (initial : invariant first)
    (keeps : ∀ state action after, invariant state → step state action = some after →
      invariant after ∨ goal after) : invariant state := by
  obtain ⟨actions, run, never⟩ := reachable
  induction actions generalizing first with
  | nil =>
    cases run
    exact initial
  | cons action rest ih =>
    obtain ⟨second, stepped, tail⟩ := Option.bind_eq_some_iff.mp run
    have later := never.2 second stepped
    have before : ¬goal second := by
      cases rest with
      | nil => exact later
      | cons => exact later.1
    exact ih ((keeps first action second initial stepped).resolve_right before) tail later

/-- What holds at first and survives each good step holds after a run of good steps. -/
theorem EachStep.invariant {invariant : State → Prop} {good : State → Action → Prop}
    (each : EachStep step good first actions) (run : follow step first actions = some state)
    (initial : invariant first)
    (keeps : ∀ state action after, invariant state → good state action →
      step state action = some after → invariant after) : invariant state := by
  induction actions generalizing first with
  | nil =>
    cases run
    exact initial
  | cons action rest ih =>
    obtain ⟨second, stepped, tail⟩ := Option.bind_eq_some_iff.mp run
    obtain ⟨fine, later⟩ := each second stepped
    exact ih later tail (keeps first action second initial fine stepped)

theorem Always.eachStep {holds : State → Prop} {good : State → Action → Prop}
    (all : Always step holds first actions)
    (implies : ∀ state action, holds state → good state action) :
    EachStep step good first actions := by
  induction actions generalizing first with
  | nil => trivial
  | cons action rest ih =>
    exact fun after stepped => ⟨implies first action all.1, ih (all.2 after stepped)⟩

/-- When good steps keep an invariant that makes every state safe, and every
other step leaves the safe states at once, a run is safe exactly when all of
its steps are good. -/
theorem always_iff_eachStep (invariant : State → Prop) {safe : State → Prop}
    {good : State → Action → Prop}
    (keeps : ∀ state action after, invariant state → good state action →
      step state action = some after → invariant after)
    (protects : ∀ state, invariant state → safe state)
    (breaks : ∀ state action after, invariant state → ¬ good state action →
      step state action = some after → ¬ safe after)
    (initial : invariant first) (actions : List Action) :
    Always step safe first actions ↔ EachStep step good first actions := by
  induction actions generalizing first with
  | nil => exact iff_of_true (protects first initial) trivial
  | cons action rest ih =>
    cases stepped : step first action with
    | none =>
      simp only [Always, EachStep, stepped, Option.not_mem_none, false_imp_iff,
        implies_true, and_true]
      exact iff_of_true (protects first initial) trivial
    | some after =>
      simp only [Always, EachStep, stepped, Option.mem_some_iff, forall_eq']
      by_cases fine : good first action
      · have later := ih (keeps first action after initial fine stepped)
        exact ⟨fun all => ⟨fine, later.mp all.2⟩,
          fun all => ⟨protects first initial, later.mpr all.2⟩⟩
      · constructor
        · intro all
          have afterSafe : safe after := by
            cases rest with
            | nil => exact all.2
            | cons => exact all.2.1
          exact absurd afterSafe (breaks first action after initial fine stepped)
        · intro all
          exact absurd all.1 fine

end CssLab.Transition

namespace CssLab.Interleaving

open Transition

/-- Threads with a local state each, beside the state they share. -/
structure State (Thread Shared Local : Type*) where
  shared : Shared
  locals : Thread → Local

variable {Thread Shared Local Action : Type*} [DecidableEq Thread]
  {thread : Thread → Shared → Local → Action → Option (Shared × Local)}

/-- One step of one thread. -/
def step (thread : Thread → Shared → Local → Action → Option (Shared × Local))
    (state : State Thread Shared Local) (event : Thread × Action) :
    Option (State Thread Shared Local) :=
  (thread event.1 state.shared (state.locals event.1) event.2).map fun after =>
    ⟨after.1, Function.update state.locals event.1 after.2⟩

theorem step_eq_some (stepped : step thread state (self, action) = some after) :
    ∃ own, thread self state.shared (state.locals self) action = some (after.shared, own) ∧
      after.locals = Function.update state.locals self own := by
  obtain ⟨⟨shared, own⟩, moved, same⟩ := Option.map_eq_some_iff.mp stepped
  subst same
  exact ⟨own, moved, rfl⟩

theorem follow_alone (self : Thread) {state : State Thread Shared Local}
    (run : follow (fun now => thread self now.1 now.2) (state.shared, state.locals self) actions =
      some (shared, own)) :
    follow (step thread) state (actions.map (self, ·)) =
      some ⟨shared, Function.update state.locals self own⟩ := by
  induction actions generalizing state with
  | nil =>
    cases run
    rw [Function.update_eq_self]
    rfl
  | cons action rest ih =>
    obtain ⟨⟨shared', own'⟩, moved, run'⟩ := Option.bind_eq_some_iff.mp run
    have stepped : step thread state (self, action) =
        some ⟨shared', Function.update state.locals self own'⟩ := by
      simp only [step, moved, Option.map_some]
    have later : follow (step thread) ⟨shared', Function.update state.locals self own'⟩
        (rest.map (self, ·)) = _ := ih (by
      simp only [Function.update_self]
      exact run')
    rw [List.map_cons, follow, stepped, Option.bind_some, later, Function.update_idem]

/-- What one thread can do once more, from and to its idle state, it can do any number
of times. -/
theorem reachable_repeat {holds : Nat → Shared → Prop} (self : Thread) (zero : holds 0 first)
    (again : ∀ count shared, holds count shared → ∃ actions after, holds (count + 1) after ∧
      follow (fun now => thread self now.1 now.2) (shared, idle) actions = some (after, idle))
    (count : Nat) :
    ∃ shared, holds count shared ∧
      Reachable (step thread) ⟨first, fun _ => idle⟩ ⟨shared, fun _ => idle⟩ := by
  let rests (count : Nat) (state : State Thread Shared Local) : Prop :=
    ∃ shared, state = ⟨shared, fun _ => idle⟩ ∧ holds count shared
  have round (count : Nat) (state : State Thread Shared Local) (now : rests count state) :
      ∃ actions after, rests (count + 1) after ∧
        follow (step thread) state actions = some after := by
    obtain ⟨shared, rfl, held⟩ := now
    obtain ⟨actions, after, held', run⟩ := again count shared held
    refine ⟨_, _, ⟨after, rfl, held'⟩, (follow_alone self run).trans ?_⟩
    rw [Function.update_eq_self]
  have rounds := reachable_rounds rests ⟨first, rfl, zero⟩ round count
  obtain ⟨_, ⟨shared, rfl, held⟩, reachable⟩ := rounds
  exact ⟨shared, held, reachable⟩

/-- An invariant of the shared state together with an assertion about each
thread, both of which may speak of auxiliary data. -/
def Outline (invariant : Ghost → Shared → Prop)
    (asserts : Ghost → Thread → Shared → Local → Prop)
    (state : State Thread Shared Local) : Prop :=
  ∃ ghost, invariant ghost state.shared ∧
    ∀ self, asserts ghost self state.shared (state.locals self)

/-- A step keeps the outline when it restores the invariant and its own
assertion and does not interfere with the assertion of any other thread. -/
theorem Outline.step {invariant : Ghost → Shared → Prop}
    {asserts : Ghost → Thread → Shared → Local → Prop}
    (outline : Outline invariant asserts state)
    (moves : ∀ ghost own, invariant ghost state.shared →
      asserts ghost self state.shared (state.locals self) →
      thread self state.shared (state.locals self) action = some (after.shared, own) →
      ∃ ghost', invariant ghost' after.shared ∧ asserts ghost' self after.shared own ∧
        ∀ other theirs, other ≠ self → asserts ghost other state.shared theirs →
          asserts ghost' other after.shared theirs)
    (stepped : Interleaving.step thread state (self, action) = some after) :
    Outline invariant asserts after := by
  obtain ⟨own, moved, locals⟩ := step_eq_some stepped
  obtain ⟨ghost, held, each⟩ := outline
  obtain ⟨ghost', held', mine, others⟩ := moves ghost own held (each self) moved
  refine ⟨ghost', held', ?_⟩
  intro other
  rw [locals]
  by_cases same : other = self
  · subst same
    simpa using mine
  · simpa [same] using others other (state.locals other) same (each other)

end CssLab.Interleaving
