import CssLab.Lib.Callers
import CssLab.Locked.StackLinear

/-! `partD/test-stack.c`: the threads end, and the stack has what `main` asserts. -/

namespace CssLab.Locked.Stack

open Chain Transition Interleaving LockFree Callers
open Ledger (Roomy roomy_empty)

/-- `TESTSIZE` -/
def testSize : Nat := 1000

def Local.isReturned : Local → Bool
  | .returned _ => true
  | _ => false

/-- A loop of calls. -/
abbrev calls (call : Nat → Call) (rounds : Nat) : ConcurStack → Caller Local → Action →
    Option (ConcurStack × Caller Local) :=
  repeats thread Local.isReturned (fun i => enter (call i)) rounds

def workStackPush : ConcurStack → Caller Local → Action → Option (ConcurStack × Caller Local) :=
  calls (fun i => .push (BitVec.ofNat 32 i)) testSize

def workStackPop : ConcurStack → Caller Local → Action → Option (ConcurStack × Caller Local) :=
  calls (fun _ => .pop) testSize

/-- The loop of `main` before it creates the threads. -/
def mainPush : ConcurStack → Caller Local → Action → Option (ConcurStack × Caller Local) :=
  calls (fun _ => .push 1) (testSize * 2)

/-- What `main` has the threads run. -/
def work (self : Fin 4) : ConcurStack → Caller Local → Action →
    Option (ConcurStack × Caller Local) :=
  if self.val < 2 then workStackPush else workStackPop

/-- Some threads push and the others pop. -/
def entry [DecidableEq Thread] (up : Finset Thread) (value : Nat → BitVec 32) (self : Thread)
    (i : Nat) : Local :=
  enter (chosen up (fun i => .push (value i)) .pop self i)

variable {inner inner' : Local}

/-- The point of a call that pushes, or of one that pops from a stack with a value. -/
def Sure (push : Bool) : Local → Prop
  | .push _ => push = true
  | .pop (.unlockEmpty _) => False
  | .pop _ => push = false
  | .returned .pushed => push = true
  | .returned (.popped _ _) => push = false
  | _ => False

/-- Past the change of the list. -/
def Local.past : Local → Bool
  | .push .loadSize | .push (.storeSize _) | .push .unlock => true
  | .pop (.loadSize ..) | .pop (.storeSize ..) | .pop (.free ..) | .pop (.unlock ..) => true
  | .returned _ => true
  | _ => false

/-- The steps that are left of a call. -/
def Local.rank : Local → Nat
  | .push (.malloc _) => 10
  | .push (.setValue _ _) => 9
  | .push (.lock _ _) => 8
  | .push (.loadTop _ _) => 7
  | .push (.storeNext _ _ _) => 6
  | .push (.storeTop _ _) => 5
  | .push .loadSize => 4
  | .push (.storeSize _) => 3
  | .push .unlock => 2
  | .pop .lock => 12
  | .pop .readSize => 11
  | .pop (.test _) => 10
  | .pop (.unlockEmpty _) => 2
  | .pop .loadTop => 9
  | .pop (.loadValue _) => 8
  | .pop (.loadNext _ _) => 7
  | .pop (.storeTop _ _ _) => 6
  | .pop (.loadSize ..) => 5
  | .pop (.storeSize ..) => 4
  | .pop (.free ..) => 3
  | .pop (.unlock ..) => 2
  | .returned _ => 1
  | .idle => 0

/-- What a step of a call comes to. -/
structure Advances (push : Bool) (stack : ConcurStack) (own : Local) (stack' : ConcurStack)
    (own' : Local) : Prop where
  sure : Sure push own'
  length : (stack'.contents.length : Int) = stack.contents.length +
    (if push then 1 else -1) * (own'.past.toNat - own.past.toNat)
  rank : own'.rank < own.rank
  heap : Roomy stack.heap → Roomy stack'.heap

theorem advances_of_same {own : Local} (sure : Sure push own')
    (contents : stack'.contents = stack.contents) (past : own'.past = own.past)
    (rank : own'.rank + 1 = own.rank) (heap : Roomy stack.heap → Roomy stack'.heap) :
    Advances push stack own stack' own' :=
  ⟨sure, by simp [contents, past], rank.le, heap⟩

theorem lock_advances {own : Local} (moved : lock stack next = some (stack', own'))
    (sure : Sure push next) (past : next.past = own.past) (rank : next.rank + 1 = own.rank) :
    Advances push stack own stack' own' := by
  obtain ⟨-, rfl, rfl⟩ := lock_eq_some moved
  exact advances_of_same sure rfl past rank id

theorem push_advances {point : Push} (sure : Sure push (.push point))
    (moved : concurStackPush stack point action = some (stack', own')) :
    Advances push stack (.push point) stack' own' := by
  obtain rfl : push = true := sure
  cases action with
  | call call => cases point <;> cases moved
  | malloc p garbage =>
    cases point with
    | malloc value =>
      obtain ⟨heap, done, same⟩ := Option.map_eq_some_iff.mp moved
      cases same
      exact advances_of_same rfl rfl rfl rfl fun roomy => roomy.malloc done
    | _ => cases moved
  | go =>
    cases point with
    | malloc value => cases moved
    | setValue value p =>
      obtain ⟨heap, done, same⟩ := Option.map_eq_some_iff.mp moved
      cases same
      exact advances_of_same rfl rfl rfl rfl fun roomy => roomy.modify done
    | lock value p =>
      have locked : lock stack (.push (.loadTop value p)) = some (stack', own') := moved
      exact lock_advances locked rfl rfl rfl
    | loadTop value p =>
      cases moved
      exact advances_of_same rfl rfl rfl rfl id
    | storeNext value p top =>
      obtain ⟨heap, done, same⟩ := Option.map_eq_some_iff.mp moved
      cases same
      exact advances_of_same rfl rfl rfl rfl fun roomy => roomy.modify done
    | storeTop value p =>
      cases moved
      refine ⟨rfl, ?_, Nat.lt_succ_self _, id⟩
      simp [Local.past, ConcurStack.contents, Lifo.replay_push]
    | loadSize =>
      cases moved
      exact advances_of_same rfl rfl rfl rfl id
    | storeSize seen =>
      cases moved
      exact advances_of_same rfl rfl rfl rfl id
    | unlock =>
      cases moved
      exact advances_of_same rfl rfl rfl rfl id

theorem Sure.pops (sure : Sure push (.pop point)) : push = false := by
  cases point with
  | unlockEmpty answer => exact sure.elim
  | _ => exact sure

/-- On a stack that is not empty a pop takes a value. -/
theorem pop_advances {owner : Address → Option Thread} {point : Pop} (sure : Sure push (.pop point))
    (nonempty : (Local.pop point).past = false → stack.contents ≠ [])
    (few : stack.contents.length < 2 ^ 31)
    (holding : Local.inside (.pop point) = true → Progress owner self stack (.pop point))
    (moved : concurStackPop stack point action = some (stack', own')) :
    Advances push stack (.pop point) stack' own' := by
  obtain rfl := sure.pops
  cases action with
  | call call => cases point <;> cases moved
  | malloc p garbage => cases point <;> cases moved
  | go =>
    cases point with
    | lock =>
      have locked : lock stack (.pop .readSize) = some (stack', own') := moved
      exact lock_advances locked rfl rfl rfl
    | readSize =>
      cases moved
      exact advances_of_same rfl rfl rfl rfl id
    | test size =>
      obtain ⟨counts, rfl⟩ := holding rfl
      have positive := List.length_pos_iff.mpr (nonempty rfl)
      have notZero : stack.size ≠ 0 := by
        rw [counts, ← BitVec.toNat_ne_iff_ne, BitVec.toNat_ofNat]
        change stack.contents.length % 2 ^ 32 ≠ 0
        omega
      cases (if_neg notZero).symm.trans moved
      exact advances_of_same rfl rfl rfl rfl id
    | unlockEmpty answer => exact sure.elim
    | loadTop =>
      cases moved
      exact advances_of_same rfl rfl rfl rfl id
    | loadValue p =>
      obtain ⟨value, -, same⟩ := Option.map_eq_some_iff.mp moved
      cases same
      exact advances_of_same rfl rfl rfl rfl id
    | loadNext p value =>
      obtain ⟨next, -, same⟩ := Option.map_eq_some_iff.mp moved
      cases same
      exact advances_of_same rfl rfl rfl rfl id
    | storeTop p value next =>
      cases moved
      refine ⟨rfl, ?_, Nat.lt_succ_self _, id⟩
      have positive := List.length_pos_iff.mpr (nonempty rfl)
      simp only [ConcurStack.contents, Lifo.replay_pop, List.length_tail, Local.past,
        Bool.toNat_true, Bool.toNat_false, Bool.false_eq_true, if_false] at positive ⊢
      omega
    | loadSize p value answer =>
      cases moved
      exact advances_of_same rfl rfl rfl rfl id
    | storeSize p value seen answer =>
      cases moved
      exact advances_of_same rfl rfl rfl rfl id
    | free p value answer =>
      obtain ⟨heap, done, same⟩ := Option.map_eq_some_iff.mp moved
      cases same
      exact advances_of_same rfl rfl rfl rfl fun roomy => roomy.free done
    | unlock value answer =>
      cases moved
      exact advances_of_same rfl rfl rfl rfl id

theorem thread_advances {owner : Address → Option Thread} (sure : Sure push own)
    (active : own.isReturned = false)
    (nonempty : push = false → own.past = false → stack.contents ≠ [])
    (few : stack.contents.length < 2 ^ 31)
    (holding : own.inside = true → Progress owner self stack own)
    (moved : thread stack own action = some (stack', own')) :
    Advances push stack own stack' own' := by
  cases own with
  | idle => exact sure.elim
  | returned outcome => cases active
  | push point => exact push_advances sure moved
  | pop point => exact pop_advances sure (nonempty sure.pops) few holding moved

section Testers

variable {Thread : Type*} [Fintype Thread] [DecidableEq Thread] {up : Finset Thread}
  {value : Nat → BitVec 32} {rounds base : Nat} {self : Thread}
  {state after : State Thread ConcurStack (Caller Local)}

/-- One step of one of the threads. -/
abbrev testers (up : Finset Thread) (value : Nat → BitVec 32) (rounds : Nat) :
    State Thread ConcurStack (Caller Local) → Thread × Action →
      Option (State Thread ConcurStack (Caller Local)) :=
  Interleaving.step fun self => repeats thread Local.isReturned (entry up value self) rounds

/-- A stack of this length that no thread uses. -/
structure Ready (base : Nat) (stack : ConcurStack) : Prop where
  free : stack.mu = false
  list : ∃ nodes, Segment stack.heap.next stack.top nodes 0 ∧
    nodes.map stack.heap.value = stack.contents.map some
  length : stack.contents.length = base
  counts : Counts stack stack.size
  roomy : Roomy stack.heap

/-- The stack has what it had at first and what the calls have pushed and popped. -/
structure Tested (up : Finset Thread) (rounds base : Nat)
    (state : State Thread ConcurStack (Caller Local)) : Prop where
  outline : Outline guard.invariant guard.asserts (view .idle state)
  length : (state.shared.contents.length : Int) = base + effect up Local.past state.locals
  sure : ∀ self, (state.locals self).Inside (Sure (decide (self ∈ up)))
  within : ∀ self, (state.locals self).Within rounds
  roomy : Roomy state.shared.heap

theorem Ready.tested (ready : Ready base stack) (up : Finset Thread) (rounds : Nat) :
    Tested up rounds base ⟨stack, fun _ => begun⟩ := by
  obtain ⟨free, ⟨nodes, list, values⟩, length, counts, roomy⟩ := ready
  refine ⟨⟨(none, fun _ => none), ⟨free, fun _ => ⟨⟨nodes, list, values, fun _ _ => rfl⟩, counts⟩⟩,
    fun self => ?_⟩, ?_, fun _ inner at' => (by cases at'), fun _ => Nat.zero_le _, roomy⟩
  · exact (Guard.asserts_outside rfl).mpr ⟨by simp, trivial⟩
  · simp [effect, begun, Caller.done, length]

theorem Tested.few (tested : Tested up rounds base state)
    (small : base + rounds * up.card < 2 ^ 31) : state.shared.contents.length < 2 ^ 31 := by
  have upper := effect_le up fun self => (tested.within self).done_le Local.past
  have length := tested.length
  have small : (base + rounds * up.card : Int) < 2 ^ 31 := by exact_mod_cast small
  zify
  linarith

theorem Tested.nonempty (tested : Tested up rounds base state) (enough : rounds * upᶜ.card ≤ base)
    (down : self ∉ up) (missing : (state.locals self).done Local.past < rounds) :
    state.shared.contents ≠ [] := by
  have lower := effect_lower down missing fun other => (tested.within other).done_le Local.past
  have length := tested.length
  intro none
  rw [none, List.length_nil] at length
  have enough : (rounds * upᶜ.card : Int) ≤ base := by exact_mod_cast enough
  omega

omit [Fintype Thread] in
theorem entry_sure (up : Finset Thread) (value : Nat → BitVec 32) (self : Thread) (i : Nat) :
    Sure (decide (self ∈ up)) (entry up value self i) ∧
      (entry up value self i).past = false := by
  by_cases member : self ∈ up
  · simp [entry, chosen, member, enter, Sure, Local.past]
  · simp [entry, chosen, member, enter, Sure, Local.past]

theorem past_of_returned (inner : Local) (returned : inner.isReturned = true) :
    inner.past = true := by
  cases inner with
  | returned outcome => rfl
  | _ => cases returned

omit [Fintype Thread] [DecidableEq Thread] in
theorem knows_of_view {ghost : Option Thread × (Address → Option Thread)}
    (knows : ∀ self, guard.asserts ghost self (view .idle state).shared
      ((view .idle state).locals self)) (place : (state.locals self).place = .calls inner) :
    guard.asserts ghost self state.shared inner := by
  have known := knows self
  have inside : (state.locals self).inner .idle = inner := by rw [Caller.inner, place]
  dsimp only [view] at known
  rwa [inside] at known

/-- What a step of a call comes to that one of the threads has begun. -/
theorem Tested.advances (tested : Tested up rounds base state) (enough : rounds * upᶜ.card ≤ base)
    (small : base + rounds * up.card < 2 ^ 31) (place : (state.locals self).place = .calls inner)
    (active : inner.isReturned = false)
    (moved : thread state.shared inner action = some (stack', inner')) :
    Advances (decide (self ∈ up)) state.shared inner stack' inner' := by
  obtain ⟨ghost, -, knows⟩ := tested.outline
  have known := knows_of_view knows place
  have more := tested.within self
  rw [Caller.Within, place] at more
  have holding (here : inner.inside = true) : Progress ghost.2 self state.shared inner :=
    ((Guard.asserts_inside here).mp known).2.2
  refine thread_advances (tested.sure self inner place) active (fun pops before => ?_)
    (tested.few small) holding moved
  refine tested.nonempty enough (of_decide_eq_false pops) ?_
  rw [Caller.done, place]
  simpa [before] using more

theorem Tested.step (tested : Tested up rounds base state) (enough : rounds * upᶜ.card ≤ base)
    (small : base + rounds * up.card < 2 ^ 31)
    (stepped : testers up value rounds state (self, action) = some after) :
    Tested up rounds base after := by
  obtain ⟨own, moves, locals⟩ := step_eq_some stepped
  have moved := moved_of_repeats moves
  obtain ⟨sure, past⟩ := entry_sure up value self (state.locals self).i
  have goes (inner : Local) (stack' : ConcurStack) (inner' : Local)
      (place : (state.locals self).place = .calls inner) (active : inner.isReturned = false)
      (went : thread state.shared inner action = some (stack', inner')) :=
    tested.advances enough small place active went
  have enters (stack : ConcurStack) (i : Nat) : ∃ action, thread stack .idle action =
      some (stack, entry up value self i) := ⟨.call _, rfl⟩
  have leaves (stack : ConcurStack) (inner : Local) (returned : inner.isReturned = true) :
      ∃ action, thread stack inner action = some (stack, .idle) := by
    cases inner with
    | returned outcome => exact ⟨.go, rfl⟩
    | _ => cases returned
  refine ⟨?_, ?_, fun other => ?_, fun other => ?_, ?_⟩
  · rcases view_step enters leaves stepped with same | ⟨action', used⟩
    · rw [same]
      exact tested.outline
    · refine Guard.keeps_outline tested.outline (fun owner own holding outside moved => ?_) used
      exact thread_moves (tested.few small) holding outside moved
  · have length := moved.size (fun stack => (stack.contents.length : Int)) past past_of_returned
      fun inner stack' inner' place active went =>
        (goes inner stack' inner' place active went).length
    rw [length, locals, effect_update, tested.length, add_assoc, LostUpdate.countdown]
    simp only [decide_eq_true_eq]
  · rw [locals]
    by_cases which : other = self
    · subst which
      rw [Function.update_self]
      exact moved.inside _ sure fun inner stack' inner' place active went =>
        (goes inner stack' inner' place active went).sure
    · rw [Function.update_of_ne which]
      exact tested.sure other
  · rw [locals]
    by_cases which : other = self
    · subst which
      simpa using moved.within (tested.within other)
    · simpa [which] using tested.within other
  · exact moved.keeps (fun stack => Roomy stack.heap) tested.roomy
      fun inner stack' inner' place active went =>
        (goes inner stack' inner' place active went).heap tested.roomy

/-- The steps that are left of all the loops. -/
def workLeft (rounds : Nat) (state : State Thread ConcurStack (Caller Local)) :
    Nat :=
  total (Caller.left Local.rank 12 rounds) state.locals

theorem Tested.shortens (tested : Tested up rounds base state) (enough : rounds * upᶜ.card ≤ base)
    (small : base + rounds * up.card < 2 ^ 31)
    (stepped : testers up value rounds state (self, action) = some after) :
    workLeft rounds after < workLeft rounds state := by
  obtain ⟨own, moves, locals⟩ := step_eq_some stepped
  have entered : (entry up value self (state.locals self).i).rank ≤ 12 := by
    by_cases member : self ∈ up
    · simp [entry, chosen, member, enter, Local.rank]
    · simp [entry, chosen, member, enter, Local.rank]
  have ended (inner : Local) (returned : inner.isReturned = true) : 0 < inner.rank := by
    cases inner with
    | returned outcome => exact Nat.succ_pos 0
    | _ => cases returned
  have less := (moved_of_repeats moves).left Local.rank Local.rank entered ended
    fun inner inner' place active went => (tested.advances enough small place active went).rank
  rw [workLeft, workLeft, locals]
  exact left_lt less fun _ _ => le_rfl

omit [Fintype Thread] in
theorem isSome_step (moves : (repeats thread Local.isReturned (entry up value self) rounds
    state.shared (state.locals self) action).isSome) :
    (testers up value rounds state (self, action)).isSome :=
  (Option.isSome_map ..).trans moves

omit [Fintype Thread] in
/-- A thread goes on in a call when the steps of the call allow it. -/
theorem isSome_calls (place : (state.locals self).place = .calls inner)
    (goes : inner.isReturned = true ∨ (thread state.shared inner action).isSome) :
    (testers up value rounds state (self, action)).isSome := by
  apply isSome_step
  rw [repeats, place]
  dsimp only
  split
  · rfl
  · rename_i active
    exact (Option.isSome_map ..).trans (goes.resolve_left active)

theorem waits_of_inside (inner : Local) (inside : inner.inside = true) : inner.waits = false := by
  cases inner with
  | push point => cases point <;> first | rfl | cases inside
  | pop point => cases point <;> first | rfl | cases inside
  | _ => cases inside

theorem Tested.goes (tested : Tested up rounds base state)
    (place : (state.locals self).place = .calls inner) (active : inner.waits = false) :
    (testers up value rounds state (self, .go)).isSome := by
  obtain ⟨ghost, -, knows⟩ := tested.outline
  have known := knows_of_view knows place
  have holding (here : inner.inside = true) : Carries ghost.2 state.shared ∧
      Progress ghost.2 self state.shared inner := ((Guard.asserts_inside here).mp known).2
  have outside (there : inner.inside = false) : Outside ghost.2 self state.shared inner :=
    ((Guard.asserts_outside there).mp known).2
  exact isSome_calls place (.inr (enabled active holding outside))

/-- Nobody has the mutex who is not in the critical section. -/
theorem Tested.unlocked (tested : Tested up rounds base state)
    (outside : ∀ self inner, (state.locals self).place = .calls inner → inner.inside = false) :
    state.shared.mu = false := by
  obtain ⟨⟨holder, owner⟩, ⟨held, -⟩, knows⟩ := tested.outline
  have held : state.shared.mu = holder.isSome := held
  rw [held]
  cases holder with
  | none => rfl
  | some self =>
    have known := knows self
    have there : ((view .idle state).locals self).inside = false := by
      cases place : (state.locals self).place with
      | calls inner =>
        have inside : (view .idle state).locals self = inner := by
          change (state.locals self).inner .idle = inner
          rw [Caller.inner, place]
        rw [inside]
        exact outside self inner place
      | _ =>
        have inside : (view .idle state).locals self = .idle := by
          change (state.locals self).inner .idle = .idle
          rw [Caller.inner, place]
        rw [inside]
        rfl
    exact absurd rfl ((Guard.asserts_outside there).mp known).1

/-- Until all threads have come to their ends one of them can take a step. -/
theorem Tested.progress (value : Nat → BitVec 32) (tested : Tested up rounds base state)
    (active : (state.locals self).place ≠ .exited) :
    ∃ event, (testers up value rounds state event).isSome := by
  by_cases held : ∃ holder inner, (state.locals holder).place = .calls inner ∧ inner.inside = true
  · obtain ⟨holder, inner, place, inside⟩ := held
    exact ⟨_, tested.goes place (waits_of_inside inner inside)⟩
  · push Not at held
    have free := tested.unlocked fun self inner place => by simpa using held self inner place
    cases place : (state.locals self).place with
    | exited => exact absurd place active
    | loop =>
      refine ⟨(self, .go), isSome_step ?_⟩
      rw [repeats, place]
      dsimp only
      split <;> rfl
    | calls inner =>
      have outside := held self inner place
      cases waits : inner.waits with
      | false => exact ⟨_, tested.goes place waits⟩
      | true =>
        have locks (next : Local) : (lock state.shared next).isSome := by
          rw [lock, free]
          rfl
        have sure := tested.sure self inner place
        cases inner with
        | idle => exact sure.elim
        | returned outcome => cases waits
        | push point =>
          cases point with
          | malloc word =>
            obtain ⟨p, heap, done⟩ := tested.roomy.exists_malloc ⟨0, 0⟩
            refine ⟨(self, .malloc p ⟨0, 0⟩), isSome_calls place (.inr ?_)⟩
            exact (Option.isSome_map ..).trans (Option.isSome_of_eq_some done)
          | lock word p => exact ⟨(self, .go), isSome_calls place (.inr (locks _))⟩
          | _ => cases waits
        | pop point =>
          cases point with
          | lock => exact ⟨(self, .go), isSome_calls place (.inr (locks _))⟩
          | _ => cases waits

theorem Tested.final (tested : Tested up rounds base state)
    (exited : ∀ self, (state.locals self).place = .exited) :
    (state.shared.contents.length : Int) = base + rounds * (up.card - upᶜ.card) ∧
      state.shared.mu = false ∧ ∃ owner : Address → Option Thread, Whole owner state.shared := by
  have free : state.shared.mu = false := tested.unlocked fun self inner place => by
    rw [exited self] at place
    cases place
  exact ⟨by rw [tested.length, effect_exited exited tested.within], free,
    Guard.resource_of_outline tested.outline free⟩

/-- All runs are short, and where one ends all threads have. -/
theorem Ready.ends (ready : Ready base stack) (enough : rounds * upᶜ.card ≤ base)
    (small : base + rounds * up.card < 2 ^ 31)
    (run : follow (testers up value rounds) ⟨stack, fun _ => begun⟩ actions = some state) :
    Tested up rounds base state ∧
      actions.length ≤ Fintype.card Thread * (rounds * 13 + 1) ∧
      ((∀ event, testers up value rounds state event = none) →
        ∀ self, (state.locals self).place = .exited) := by
  have start := ready.tested up rounds
  have each (state : State Thread ConcurStack (Caller Local)) (event : Thread × Action)
      (after : State Thread ConcurStack (Caller Local)) (tested : Tested up rounds base state)
      (stepped : testers up value rounds state event = some after) :
      Tested up rounds base after ∧ workLeft rounds after < workLeft rounds state :=
    ⟨tested.step enough small stepped, tested.shortens enough small stepped⟩
  have tested := follow_keeps (fun state event after tested stepped =>
    (each state event after tested stepped).1) start run
  have short := follow_length_le (workLeft rounds) each start run
  have whole : workLeft rounds (⟨stack, fun _ => begun⟩ : State Thread ConcurStack (Caller Local)) =
      Fintype.card Thread * (rounds * 13 + 1) := by
    simp [workLeft, total, begun, Caller.left]
  refine ⟨tested, by omega, fun stuck self => ?_⟩
  by_contra active
  obtain ⟨event, goes⟩ := tested.progress value active
  rw [stuck event] at goes
  cases goes

theorem Ready.finishes (value : Nat → BitVec 32) (ready : Ready base stack)
    (enough : rounds * upᶜ.card ≤ base) (small : base + rounds * up.card < 2 ^ 31) :
    ∃ state, Reachable (testers up value rounds) ⟨stack, fun _ => begun⟩ state ∧
      ∀ self, (state.locals self).place = .exited := by
  have next (state : State Thread ConcurStack (Caller Local)) (tested : Tested up rounds base state)
      (more : ¬∀ self, (state.locals self).place = .exited) : ∃ event after,
        testers up value rounds state event = some after ∧ Tested up rounds base after ∧
          workLeft rounds after < workLeft rounds state := by
    rw [not_forall] at more
    obtain ⟨self, active⟩ := more
    obtain ⟨event, goes⟩ := tested.progress value active
    obtain ⟨after, stepped⟩ := Option.isSome_iff_exists.mp goes
    exact ⟨event, after, stepped, tested.step enough small stepped,
      tested.shortens enough small stepped⟩
  obtain ⟨actions, state, run, exited⟩ :=
    follow_finishes (workLeft rounds) next (ready.tested up rounds)
  exact ⟨state, ⟨actions, run⟩, exited⟩

end Testers

/-- A run of the loop of `main`. -/
def Created (heap : Ledger Node) (stack : ConcurStack) : Prop :=
  Joined (fun _ : Unit => mainPush) (concurStackInit heap) stack

/-- One step of any of the threads. -/
abbrev workers : State (Fin 4) ConcurStack (Caller Local) → Fin 4 × Action →
    Option (State (Fin 4) ConcurStack (Caller Local)) :=
  Interleaving.step work

theorem work_eq : work = fun self => repeats thread Local.isReturned
    (entry (below 2) (fun i => BitVec.ofNat 32 i) self) testSize :=
  repeats_below enter (fun i => .push (BitVec.ofNat 32 i)) .pop 2

theorem mainPush_eq : (fun _ : Unit => mainPush) = fun self => repeats thread Local.isReturned
    (entry Finset.univ (fun _ => 1) self) (testSize * 2) :=
  repeats_univ enter (fun _ => .push 1) .pop

theorem pushers_card : (below 2 : Finset (Fin 4)).card = 2 ∧ (below 2 : Finset (Fin 4))ᶜ.card = 2 :=
  card_below (by decide)

theorem unit_card :
    (Finset.univ : Finset Unit).card = 1 ∧ (Finset.univ : Finset Unit)ᶜ.card = 0 := by
  decide

theorem ready_init : Ready 0 (concurStackInit Ledger.empty) :=
  ⟨rfl, ⟨[], rfl, rfl⟩, rfl, rfl, roomy_empty⟩

theorem Created.ready (created : Created Ledger.empty stack) : Ready 2000 stack := by
  obtain ⟨state, ⟨actions, run⟩, exited, rfl⟩ := created
  rw [mainPush_eq] at run
  obtain ⟨tested, -, -⟩ := ready_init.ends (by decide) (by decide) run
  obtain ⟨length, free, owner, ⟨nodes, list, values, -⟩, counts⟩ := tested.final exited
  rw [unit_card.1, unit_card.2, testSize] at length
  exact ⟨free, ⟨nodes, list, values⟩, by omega, counts, tested.roomy⟩

theorem created_exists : ∃ stack, Created Ledger.empty stack := by
  have enough : testSize * 2 * (Finset.univ : Finset Unit)ᶜ.card ≤ 0 := by decide
  have small : 0 + testSize * 2 * (Finset.univ : Finset Unit).card < 2 ^ 31 := by decide
  obtain ⟨state, reachable, exited⟩ := ready_init.finishes (fun _ => 1) enough small
  refine ⟨state.shared, state, ?_, exited, rfl⟩
  rw [mainPush_eq]
  exact reachable

/-- The threads cannot go on forever nor wait for each other, however they take turns; when none
of them can go on all have returned, and `main` finds the size that it asserts. -/
theorem test_passes : (∃ stack, Created Ledger.empty stack) ∧
    ∀ stack, Created Ledger.empty stack → ∀ actions state,
      follow workers ⟨stack, fun _ => begun⟩ actions = some state → actions.length ≤ 52004 ∧
        ((∀ event, workers state event = none) →
          (∀ self, (state.locals self).place = .exited) ∧
            (concurStackSize state.shared).toInt = 2000) := by
  refine ⟨created_exists, fun stack created actions state run => ?_⟩
  obtain ⟨ups, downs⟩ := pushers_card
  have enough : testSize * (below 2 : Finset (Fin 4))ᶜ.card ≤ 2000 := by rw [downs]; decide
  have small : 2000 + testSize * (below 2 : Finset (Fin 4)).card < 2 ^ 31 := by rw [ups]; decide
  rw [workers, work_eq] at run ⊢
  obtain ⟨tested, short, ends⟩ := created.ready.ends enough small run
  refine ⟨by simpa [testSize] using short, fun stuck => ⟨ends stuck, ?_⟩⟩
  obtain ⟨length, -, owner, -, counts⟩ := tested.final (ends stuck)
  rw [ups, downs] at length
  have all : state.shared.contents.length = 2000 := by omega
  rw [concurStackSize, counts, all]
  rfl

end CssLab.Locked.Stack
