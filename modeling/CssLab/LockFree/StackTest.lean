import CssLab.Lib.Callers
import CssLab.Lib.Counter
import CssLab.LockFree.StackLinear

/-! `partE/test-stack.c`: what the counter of the stack can show to `main` at the end. -/

namespace CssLab.LockFree.Stack

open Chain Transition Interleaving Callers

/-- `TESTSIZE` -/
def testSize : Nat := 1000

def Local.isReturned : Local → Bool
  | .returned _ => true
  | _ => false

/-- A loop of calls. -/
abbrev calls (call : Nat → Call) (rounds : Nat) : LfStack → Caller Local → Action →
    Option (LfStack × Caller Local) :=
  repeats thread Local.isReturned (fun i => enter (call i)) rounds

def workStackPush : LfStack → Caller Local → Action → Option (LfStack × Caller Local) :=
  calls (fun i => .push (BitVec.ofNat 32 i)) testSize

def workStackPop : LfStack → Caller Local → Action → Option (LfStack × Caller Local) :=
  calls (fun _ => .pop) testSize

/-- The loop of `main` before it creates the threads. -/
def mainPush : LfStack → Caller Local → Action → Option (LfStack × Caller Local) :=
  calls (fun _ => .push 1) (testSize * 2)

/-- What `main` has the threads run. -/
def work (self : Fin 4) : LfStack → Caller Local → Action → Option (LfStack × Caller Local) :=
  if self.val < 2 then workStackPush else workStackPop

/-- Some threads push and the others pop. -/
def entry [DecidableEq Thread] (up : Finset Thread) (value : Nat → BitVec 32) (self : Thread)
    (i : Nat) : Local :=
  enter (chosen up (fun i => .push (value i)) .pop self i)

variable {inner inner' : Local}

/-- The point of a call that pushes, or of one that pops and has found a node. -/
def Sure (push : Bool) : Local → Prop
  | .push _ => push = true
  | .pop (.test oldTop _) => push = false ∧ oldTop ≠ 0
  | .pop _ => push = false
  | .returned .pushed => push = true
  | .returned (.popped _ _) => push = false
  | _ => False

theorem Sure.pops (sure : Sure push (.pop point)) : push = false := by
  cases point with
  | test oldTop answer => exact sure.1
  | _ => exact sure

/-- Past the exchange. -/
def Local.past : Local → Bool
  | .push .loadSize | .push (.storeSize _) => true
  | .pop (.loadSize ..) | .pop (.storeSize ..) | .pop (.loadValue ..) => true
  | .returned _ => true
  | _ => false

theorem push_sure {point : Push} (sure : Sure push (.push point))
    (moved : lfStackPush stack point action = some (stack', own)) :
    Sure push own ∧ (stack'.contents.length : Int) = stack.contents.length +
      (own.past.toNat - (Local.push point).past.toNat) := by
  have pushes : push = true := sure
  subst pushes
  cases action with
  | call call => cases point <;> cases moved
  | malloc newNode garbage =>
    cases point with
    | malloc value =>
      obtain ⟨heap, -, same⟩ := Option.map_eq_some_iff.mp moved
      cases same
      exact ⟨rfl, by simp [Local.past, LfStack.contents]⟩
    | _ => cases moved
  | go =>
    cases point with
    | malloc value => cases moved
    | setValue value newNode =>
      obtain ⟨heap, -, same⟩ := Option.map_eq_some_iff.mp moved
      cases same
      exact ⟨rfl, by simp [Local.past, LfStack.contents]⟩
    | loadTop value newNode =>
      cases moved
      exact ⟨rfl, by simp [Local.past]⟩
    | storeNext value newNode oldTop =>
      obtain ⟨heap, -, same⟩ := Option.map_eq_some_iff.mp moved
      cases same
      exact ⟨rfl, by simp [Local.past, LfStack.contents]⟩
    | swapTop value newNode oldTop =>
      simp only [lfStackPush] at moved
      split at moved <;> cases moved
      · refine ⟨rfl, ?_⟩
        simp [Local.past, LfStack.contents, Lifo.replay_push]
      · exact ⟨rfl, by simp [Local.past]⟩
    | loadSize =>
      cases moved
      exact ⟨rfl, by simp [Local.past]⟩
    | storeSize seen =>
      cases moved
      exact ⟨rfl, by simp [Local.past, LfStack.contents]⟩

/-- A pop that finds the stack nonempty when it loads `top` takes a node in the end. -/
theorem pop_sure {owner : Address → Option Thread} {point : Pop} (whole : Whole owner stack)
    (knows : Knows owner self stack (.pop point)) (sure : Sure push (.pop point))
    (nonempty : (Local.pop point).past = false → stack.contents ≠ [])
    (moved : lfStackPop stack point action = some (stack', own)) :
    Sure push own ∧ (stack'.contents.length : Int) = stack.contents.length -
      (own.past.toNat - (Local.pop point).past.toNat) := by
  obtain rfl := sure.pops
  cases action with
  | call call => cases point <;> cases moved
  | malloc node garbage => cases point <;> cases moved
  | go =>
    cases point with
    | loadTop =>
      cases moved
      refine ⟨⟨rfl, fun null => ?_⟩, by simp [Local.past]⟩
      have top := whole.top
      rw [if_pos null, List.head?_eq_none_iff] at top
      exact nonempty rfl top
    | test oldTop answer =>
      cases (if_neg sure.2).symm.trans moved
      exact ⟨rfl, by simp [Local.past]⟩
    | loadNext oldTop =>
      obtain ⟨topNext, -, same⟩ := Option.map_eq_some_iff.mp moved
      cases same
      exact ⟨rfl, by simp [Local.past]⟩
    | swapTop oldTop topNext =>
      simp only [lfStackPop] at moved
      split at moved <;> cases moved
      · refine ⟨rfl, ?_⟩
        have filled := List.length_pos_iff.mpr (nonempty rfl)
        simp only [LfStack.contents, Lifo.replay_pop, List.length_tail, Local.past,
          Bool.toNat_true, Bool.toNat_false] at filled ⊢
        omega
      · exact ⟨rfl, by simp [Local.past]⟩
    | loadSize oldTop answer =>
      cases moved
      exact ⟨rfl, by simp [Local.past]⟩
    | storeSize oldTop seen answer =>
      cases moved
      exact ⟨rfl, by simp [Local.past, LfStack.contents]⟩
    | loadValue oldTop answer =>
      obtain ⟨value, -, same⟩ := Option.map_eq_some_iff.mp moved
      cases same
      exact ⟨rfl, by simp [Local.past]⟩

/-- A step of a call changes the length of the stack when it gets past the exchange. -/
theorem thread_sure {owner : Address → Option Thread} (whole : Whole owner stack)
    (knows : Knows owner self stack own) (sure : Sure push own)
    (nonempty : push = false → own.past = false → stack.contents ≠ [])
    (active : own.isReturned = false) (moved : thread stack own action = some (stack', own')) :
    Sure push own' ∧ (stack'.contents.length : Int) = stack.contents.length +
      (if push then 1 else -1) * (own'.past.toNat - own.past.toNat) := by
  cases own with
  | idle => exact sure.elim
  | size => exact sure.elim
  | returned outcome => cases active
  | push point =>
    obtain ⟨sure', length⟩ := push_sure sure moved
    have pushes : push = true := sure
    refine ⟨sure', ?_⟩
    rw [pushes, if_pos rfl, one_mul]
    exact length
  | pop point =>
    obtain ⟨sure', length⟩ := pop_sure whole knows sure (nonempty sure.pops) moved
    refine ⟨sure', ?_⟩
    rw [sure.pops, if_neg Bool.false_ne_true, neg_one_mul]
    exact length

section Testers

variable {Thread : Type*} [Fintype Thread] [DecidableEq Thread]

/-- One step of one of the threads. -/
abbrev testers (up : Finset Thread) (value : Nat → BitVec 32) (rounds : Nat) :
    State Thread LfStack (Caller Local) → Thread × Action →
      Option (State Thread LfStack (Caller Local)) :=
  Interleaving.step fun self => repeats thread Local.isReturned (entry up value self) rounds

/-- A stack of this length without a thread in a call. -/
def Ready (base : Nat) (stack : LfStack) : Prop :=
  (∃ nodes, Segment stack.heap.next stack.top nodes 0 ∧ nodes.Nodup ∧
    nodes.map stack.heap.value = stack.contents.map some) ∧
    stack.contents.length = base ∧ stack.size.toInt = base

/-- The stack has what it had at first and what the calls have pushed and popped, each of which is
past its exchange. -/
structure Tested (up : Finset Thread) (rounds base : Nat)
    (state : State Thread LfStack (Caller Local)) : Prop where
  outline : Outline Whole Knows (view .idle state)
  length : (state.shared.contents.length : Int) = base + effect up Local.past state.locals
  sure : ∀ self inner, (state.locals self).place = .calls inner → Sure (decide (self ∈ up)) inner
  within : ∀ self, (state.locals self).Within rounds

variable {up : Finset Thread} {value : Nat → BitVec 32} {rounds base : Nat}
  {state after : State Thread LfStack (Caller Local)}

theorem Ready.tested (ready : Ready base stack) (up : Finset Thread) (rounds : Nat) :
    Tested up rounds base ⟨stack, fun _ => begun⟩ := by
  obtain ⟨⟨nodes, list, nodup, values⟩, length, -⟩ := ready
  refine ⟨⟨fun _ => none, ⟨nodes, list, nodup, values, fun _ _ => rfl⟩, fun _ => trivial⟩, ?_,
    fun _ _ => nofun, fun _ => Nat.zero_le _⟩
  simp [effect, begun, Caller.done, length]

/-- A popping thread that is before its exchange finds a node. -/
theorem Tested.nonempty (tested : Tested up rounds base state) (enough : rounds * upᶜ.card ≤ base)
    (down : self ∉ up) (missing : (state.locals self).done Local.past < rounds) :
    state.shared.contents ≠ [] := by
  have lower := effect_lower down missing fun other => (tested.within other).done_le Local.past
  have length := tested.length
  intro none
  rw [none, List.length_nil] at length
  have enough : (rounds * upᶜ.card : Int) ≤ base := by exact_mod_cast enough
  omega

omit [Fintype Thread] in
theorem entry_sure (up : Finset Thread) (value : Nat → BitVec 32) (self : Thread) (i : Nat) :
    Sure (decide (self ∈ up)) (entry up value self i) ∧
      (entry up value self i).past = false := by
  by_cases member : self ∈ up
  · simp [entry, chosen, member, enter, Sure, Local.past]
  · simp [entry, chosen, member, enter, Sure, Local.past]

/-- What a step does to the length of the stack and to what is sure of its own thread. -/
theorem Tested.moves (tested : Tested up rounds base state) (enough : rounds * upᶜ.card ≤ base)
    (moves : repeats thread Local.isReturned (entry up value self) rounds state.shared
      (state.locals self) action = some (stack', own')) :
    (∀ inner, own'.place = .calls inner → Sure (decide (self ∈ up)) inner) ∧
      (stack'.contents.length : Int) = state.shared.contents.length +
        LostUpdate.countdown up self *
          (own'.done Local.past - (state.locals self).done Local.past) := by
  have sure := tested.sure self
  have within := tested.within self
  have nonempty (down : self ∉ up) (missing : (state.locals self).done Local.past < rounds) :=
    tested.nonempty enough down missing
  obtain ⟨owner, whole, knows⟩ := tested.outline
  have known := knows self
  have moved := moved_of_repeats moves
  dsimp only [view] at known whole
  generalize state.locals self = own at *
  obtain ⟨i, place⟩ := own
  cases moved with
  | enters more =>
    obtain ⟨sure', past⟩ := entry_sure up value self i
    refine ⟨fun inner same => ?_, by simp [Caller.done, past]⟩
    cases same
    exact sure'
  | exits past => exact ⟨fun inner same => (by cases same), by simp [Caller.done]⟩
  | returns ended =>
    rename_i inner
    refine ⟨fun other same => (by cases same), ?_⟩
    cases inner with
    | returned outcome => simp [Caller.done, Local.past]
    | _ => cases ended
  | goes active moved =>
    rename_i inner inner'
    have known : Knows owner self state.shared inner := known
    have more : i < rounds := within
    obtain ⟨sure', length⟩ := thread_sure whole known (sure inner rfl)
      (fun pops before => nonempty (of_decide_eq_false pops) (by
        simpa [Caller.done, before] using more)) active moved
    refine ⟨fun other same => ?_, ?_⟩
    · cases same
      exact sure'
    · rw [length, LostUpdate.countdown]
      simp only [decide_eq_true_eq, Caller.done]
      push_cast
      ring

theorem Tested.step (tested : Tested up rounds base state) (enough : rounds * upᶜ.card ≤ base)
    (stepped : testers up value rounds state (self, action) = some after) :
    Tested up rounds base after := by
  obtain ⟨own, moves, locals⟩ := step_eq_some stepped
  have enters (stack : LfStack) (i : Nat) : ∃ action, thread stack .idle action =
      some (stack, entry up value self i) := ⟨.call _, rfl⟩
  have leaves (stack : LfStack) (inner : Local) (returned : inner.isReturned = true) :
      ∃ action, thread stack inner action = some (stack, .idle) := by
    cases inner with
    | returned outcome => exact ⟨.go, rfl⟩
    | _ => cases returned
  obtain ⟨sure, length⟩ := tested.moves enough moves
  refine ⟨?_, ?_, fun other => ?_, fun other => ?_⟩
  · rcases view_step enters leaves stepped with same | ⟨action', used⟩
    · rw [same]
      exact tested.outline
    · exact tested.outline.step (fun _ _ whole knows moved => thread_moves whole knows moved) used
  · rw [length, locals, effect_update, tested.length, add_assoc]
  · rw [locals]
    by_cases which : other = self
    · subst which
      simpa using sure
    · simpa [which] using tested.sure other
  · rw [locals]
    by_cases which : other = self
    · subst which
      simpa using (moved_of_repeats moves).within (tested.within other)
    · simpa [which] using tested.within other

/-- The same place in a loop that only counts, which has counted once it has stored. -/
def Local.Counts (base : Int) (i : Nat) (plain : LostUpdate.Local) : Local → Prop
  | .push (.storeSize seen) | .pop (.storeSize _ seen _) => plain = ⟨.store, i, seen.toInt - base⟩
  | .pop (.loadValue ..) | .returned _ => plain.point = .loop ∧ plain.i = i + 1
  | _ => plain.point = .load ∧ plain.i = i

theorem Local.Counts.not_exited {inner : Local} {base : Int} {plain : LostUpdate.Local}
    (counts : inner.Counts base i plain) : plain.point ≠ .exited := by
  intro exited
  cases inner with
  | push point =>
    cases point with
    | storeSize seen =>
      have own : plain = ⟨.store, i, seen.toInt - base⟩ := counts
      rw [own] at exited
      cases exited
    | _ => exact absurd (exited.symm.trans counts.1) nofun
  | pop point =>
    cases point with
    | storeSize oldTop seen answer =>
      have own : plain = ⟨.store, i, seen.toInt - base⟩ := counts
      rw [own] at exited
      cases exited
    | _ => exact absurd (exited.symm.trans counts.1) nofun
  | _ => exact absurd (exited.symm.trans counts.1) nofun

def callerCounts (base : Int) (own : Caller Local) (plain : LostUpdate.Local) : Prop :=
  match own.place with
  | .loop => plain.point = .loop ∧ plain.i = own.i
  | .calls inner => inner.Counts base own.i plain
  | .exited => plain.point = .exited ∧ plain.i = own.i

/-- The counter of the stack, beyond what it was at first, is the cell of threads that only
count. -/
structure Matches (up : Finset Thread) (rounds base : Nat)
    (state : State Thread LfStack (Caller Local)) (plain : State Thread Int LostUpdate.Local) :
    Prop where
  tested : Tested up rounds base state
  cell : plain.shared = state.shared.size.toInt - base
  each : ∀ self, callerCounts base (state.locals self) (plain.locals self)
  reachable : Reachable (LostUpdate.threads (LostUpdate.countdown up) rounds)
    ⟨0, fun _ => LostUpdate.initial⟩ plain

end Testers

section Counting

variable {base : Int} {i rounds : Nat} {plain : LostUpdate.Local}

/-- What a step of a call is for the counter: none, or an access to it. -/
def Tallied (push : Bool) (base : Int) (i rounds : Nat) (stack : LfStack)
    (plain : LostUpdate.Local) (stack' : LfStack) (own' : Local) : Prop :=
  stack'.size = stack.size ∧ own'.Counts base i plain ∨
    ∃ plain', LostUpdate.add (if push then 1 else -1) rounds (stack.size.toInt - base) plain =
      some (stack'.size.toInt - base, plain') ∧ own'.Counts base i plain'

theorem tallied_load {own' : Local} (load : plain.point = .load ∧ plain.i = i)
    (stores : own'.Counts base i ⟨.store, i, stack.size.toInt - base⟩) :
    Tallied push base i rounds stack plain stack own' := by
  obtain ⟨point, rfl⟩ := load
  refine .inr ⟨_, ?_, stores⟩
  simp only [LostUpdate.add, point]

theorem push_tallied {point : Push} (counts : (Local.push point).Counts base i plain)
    (fits : plain.point = .store → plain.seen + base + 1 < 2 ^ 31)
    (moved : lfStackPush stack point action = some (stack', own')) :
    Tallied true base i rounds stack plain stack' own' := by
  cases action with
  | call call => cases point <;> cases moved
  | malloc newNode garbage =>
    cases point with
    | malloc value =>
      obtain ⟨heap, -, same⟩ := Option.map_eq_some_iff.mp moved
      cases same
      exact .inl ⟨rfl, counts⟩
    | _ => cases moved
  | go =>
    cases point with
    | malloc value => cases moved
    | setValue value newNode =>
      obtain ⟨heap, -, same⟩ := Option.map_eq_some_iff.mp moved
      cases same
      exact .inl ⟨rfl, counts⟩
    | loadTop value newNode =>
      cases moved
      exact .inl ⟨rfl, counts⟩
    | storeNext value newNode oldTop =>
      obtain ⟨heap, -, same⟩ := Option.map_eq_some_iff.mp moved
      cases same
      exact .inl ⟨rfl, counts⟩
    | swapTop value newNode oldTop =>
      simp only [lfStackPush] at moved
      split at moved <;> cases moved
      · exact .inl ⟨rfl, counts⟩
      · exact .inl ⟨rfl, counts⟩
    | loadSize =>
      cases moved
      exact tallied_load counts rfl
    | storeSize seen =>
      cases moved
      have own : plain = ⟨.store, i, seen.toInt - base⟩ := counts
      subst own
      have room := fits rfl
      refine .inr ⟨⟨.loop, i + 1, seen.toInt - base⟩, ?_, rfl, rfl⟩
      simp only [LostUpdate.add, if_true, Option.some_inj, Prod.mk.injEq, and_true]
      rw [Counter.toInt_add_one (by simp only at room; omega)]
      omega

theorem pop_tallied {point : Pop} (sure : Sure push (.pop point))
    (counts : (Local.pop point).Counts base i plain)
    (fits : plain.point = .store → -2 ^ 31 ≤ plain.seen + base - 1)
    (moved : lfStackPop stack point action = some (stack', own')) :
    Tallied false base i rounds stack plain stack' own' := by
  cases action with
  | call call => cases point <;> cases moved
  | malloc node garbage => cases point <;> cases moved
  | go =>
    cases point with
    | loadTop =>
      cases moved
      exact .inl ⟨rfl, counts⟩
    | test oldTop answer =>
      cases (if_neg sure.2).symm.trans moved
      exact .inl ⟨rfl, counts⟩
    | loadNext oldTop =>
      obtain ⟨topNext, -, same⟩ := Option.map_eq_some_iff.mp moved
      cases same
      exact .inl ⟨rfl, counts⟩
    | swapTop oldTop topNext =>
      simp only [lfStackPop] at moved
      split at moved <;> cases moved
      · exact .inl ⟨rfl, counts⟩
      · exact .inl ⟨rfl, counts⟩
    | loadSize oldTop answer =>
      cases moved
      exact tallied_load counts rfl
    | storeSize oldTop seen answer =>
      cases moved
      have own : plain = ⟨.store, i, seen.toInt - base⟩ := counts
      subst own
      have room := fits rfl
      refine .inr ⟨⟨.loop, i + 1, seen.toInt - base⟩, ?_, rfl, rfl⟩
      simp only [LostUpdate.add, Bool.false_eq_true, if_false, Option.some_inj, Prod.mk.injEq,
        and_true]
      rw [Counter.toInt_sub_one (by simp only at room; omega)]
      omega
    | loadValue oldTop answer =>
      obtain ⟨value, -, same⟩ := Option.map_eq_some_iff.mp moved
      cases same
      exact .inl ⟨rfl, counts⟩

theorem thread_tallied (rounds : Nat) (sure : Sure push own) (active : own.isReturned = false)
    (counts : own.Counts base i plain)
    (fits : plain.point = .store → -2 ^ 31 ≤ plain.seen + base - 1 ∧ plain.seen + base + 1 < 2 ^ 31)
    (moved : thread stack own action = some (stack', own')) :
    Tallied push base i rounds stack plain stack' own' := by
  cases own with
  | idle => exact sure.elim
  | size => exact sure.elim
  | returned outcome => cases active
  | push point =>
    have pushes : push = true := sure
    subst pushes
    exact push_tallied counts (fun store => (fits store).2) moved
  | pop point =>
    obtain rfl := sure.pops
    exact pop_tallied sure counts (fun store => (fits store).1) moved

end Counting

section Testers

variable {Thread : Type*} [Fintype Thread] [DecidableEq Thread] {up : Finset Thread}
  {value : Nat → BitVec 32} {rounds base : Nat} {state after : State Thread LfStack (Caller Local)}
  {plain : State Thread Int LostUpdate.Local}

omit [Fintype Thread] in
theorem repeats_tallied {counted : LostUpdate.Local} (counts : callerCounts base own counted)
    (sure : ∀ inner, own.place = .calls inner → Sure (decide (self ∈ up)) inner)
    (fits : counted.point = .store →
      -2 ^ 31 ≤ counted.seen + base - 1 ∧ counted.seen + base + 1 < 2 ^ 31)
    (moves : repeats thread Local.isReturned (entry up value self) rounds stack own action =
      some (stack', own')) :
    stack'.size = stack.size ∧ callerCounts base own' counted ∨
      ∃ counted', LostUpdate.add (LostUpdate.countdown up self) rounds (stack.size.toInt - base)
        counted = some (stack'.size.toInt - base, counted') ∧ callerCounts base own' counted' := by
  have moved := moved_of_repeats moves
  obtain ⟨i, place⟩ := own
  cases moved with
  | enters more =>
    obtain ⟨point, same⟩ := counts
    have same : counted.i = i := same
    subst same
    refine .inr ⟨{ counted with point := .load }, ?_, ?_⟩
    · simp only [LostUpdate.add, point]
      exact if_pos more
    · by_cases member : self ∈ up
      · simp [callerCounts, entry, chosen, member, enter, Local.Counts]
      · simp [callerCounts, entry, chosen, member, enter, Local.Counts]
  | exits past =>
    obtain ⟨point, same⟩ := counts
    have same : counted.i = i := same
    subst same
    refine .inr ⟨{ counted with point := .exited }, ?_, rfl, rfl⟩
    simp only [LostUpdate.add, point]
    exact if_neg past
  | returns ended =>
    rename_i inner
    cases inner with
    | returned outcome => exact .inl ⟨rfl, counts⟩
    | _ => cases ended
  | goes active moved =>
    rcases thread_tallied rounds (sure _ rfl) active counts fits moved with
      same | ⟨counted', added, counts'⟩
    · exact .inl same
    · refine .inr ⟨counted', ?_, counts'⟩
      rw [LostUpdate.countdown]
      simpa using added

theorem Matches.fits (same : Matches up rounds base state plain)
    (enough : rounds * upᶜ.card ≤ base) (small : base + rounds * up.card + 1 < 2 ^ 31)
    (store : (plain.locals self).point = .store) :
    -2 ^ 31 ≤ (plain.locals self).seen + base - 1 ∧
      (plain.locals self).seen + base + 1 < 2 ^ 31 := by
  obtain ⟨lower, upper⟩ := LostUpdate.seen_within same.reachable store
  have enough : (rounds * upᶜ.card : Int) ≤ base := by exact_mod_cast enough
  have small : (base + rounds * up.card + 1 : Int) < 2 ^ 31 := by exact_mod_cast small
  constructor <;> omega

theorem Matches.step (same : Matches up rounds base state plain)
    (enough : rounds * upᶜ.card ≤ base) (small : base + rounds * up.card + 1 < 2 ^ 31)
    (stepped : testers up value rounds state event = some after) :
    ∃ actions plain', follow (LostUpdate.threads (LostUpdate.countdown up) rounds) plain actions =
      some plain' ∧ Matches up rounds base after plain' := by
  obtain ⟨self, action⟩ := event
  have tested := same.tested.step enough stepped
  obtain ⟨own, moves, locals⟩ := step_eq_some stepped
  have others (theirs : LostUpdate.Local) (mine : callerCounts base own theirs)
      (other : Thread) : callerCounts base (after.locals other)
        (Function.update plain.locals self theirs other) := by
    rw [locals]
    by_cases which : other = self
    · subst which
      simpa using mine
    · simpa [which] using same.each other
  rcases repeats_tallied (same.each self) (same.tested.sure self)
      (same.fits enough small) moves with ⟨size, counts⟩ | ⟨theirs, added, counts⟩
  · refine ⟨[], plain, rfl, tested, by rw [size]; exact same.cell, fun other => ?_, same.reachable⟩
    have each := others _ counts other
    rwa [Function.update_eq_self] at each
  · have alone : follow (fun now => LostUpdate.thread (LostUpdate.countdown up) rounds self now.1
        now.2) (plain.shared, plain.locals self) [()] =
        some (after.shared.size.toInt - base, theirs) := by
      rw [same.cell]
      exact follow_step added rfl
    have run := follow_alone self alone
    exact ⟨_, _, run, tested, rfl, others theirs counts, same.reachable.follow run⟩

/-- The runs of the threads are runs of threads that count. -/
theorem Ready.matches (ready : Ready base stack) (enough : rounds * upᶜ.card ≤ base)
    (small : base + rounds * up.card + 1 < 2 ^ 31)
    (reachable : Reachable (testers up value rounds) ⟨stack, fun _ => begun⟩ state) :
    ∃ plain, Matches up rounds base state plain := by
  have start : Matches up rounds base ⟨stack, fun _ => begun⟩ ⟨0, fun _ => LostUpdate.initial⟩ := by
    refine ⟨ready.tested up rounds, ?_, fun _ => ⟨rfl, rfl⟩, ⟨[], rfl⟩⟩
    rw [ready.2.2, sub_self]
  obtain ⟨plain, -, same⟩ := reachable.lift start fun state plain event after same stepped =>
    same.step enough small stepped
  exact ⟨plain, same⟩

end Testers

/-- No address from some bound on is in use. -/
def Roomy (heap : Heap Node) : Prop := ∃ bound : Nat, ∀ p : Nat, bound ≤ p → heap.cells p = none

theorem Roomy.put {heap : Heap Node} {p : Nat} {notNull : p ≠ 0} (roomy : Roomy heap) :
    Roomy (heap.put p node notNull) := by
  obtain ⟨bound, free⟩ := roomy
  refine ⟨max bound (p + 1), fun q high => ?_⟩
  have apart : q ≠ p := by omega
  exact (Function.update_of_ne apart _ _).trans (free q (by omega))

theorem Roomy.modify {heap : Heap Node} (roomy : Roomy heap)
    (done : heap.modify p change = some after) : Roomy after := by
  obtain ⟨cell, notNull, -, rfl⟩ := Heap.modify_eq_some done
  exact roomy.put

theorem Roomy.push {heap : Heap Node} (roomy : Roomy heap) (value : BitVec 32) (top : Address) :
    ∃ p allocated valued linked, heap.malloc p ⟨0, 0⟩ = some allocated ∧
      allocated.setValue p value = some valued ∧ valued.setNext p top = some linked ∧
      Roomy linked := by
  obtain ⟨bound, free⟩ := id roomy
  have notNull : bound + 1 ≠ 0 := Nat.succ_ne_zero bound
  let allocated := heap.put (bound + 1) ⟨0, 0⟩ notNull
  have first := Heap.malloc_fresh notNull (free _ (Nat.le_succ bound)) (⟨0, 0⟩ : Node)
  have here : allocated.field Node.next (bound + 1) = some 0 := by
    rw [Heap.field_put, Function.update_self]
  obtain ⟨valued, second⟩ := Heap.modify_node here fun content => { content with value }
  have here' : valued.field Node.next (bound + 1) = some 0 := by
    rw [Heap.field_modify second fun _ => rfl]
    exact here
  obtain ⟨linked, third⟩ := Heap.modify_node here' fun content => { content with next := top }
  exact ⟨_, _, _, _, first, second, third, (roomy.put.modify second).modify third⟩

/-- About to access the counter. -/
def Local.atSize : Local → Bool
  | .push .loadSize | .push (.storeSize _) => true
  | .pop (.loadSize ..) | .pop (.storeSize ..) => true
  | _ => false

/-- Where a thread is whose steps between two accesses to the counter are taken at once. -/
def Calm (own : Caller Local) : Prop := ∀ inner, own.place = .calls inner → inner.atSize = true

section Alone

variable {enter' : Nat → Local} {rounds i : Nat}

/-- A thread that pushes comes to its access to the counter alone. -/
theorem push_alone {value : BitVec 32} (more : i < rounds)
    (entered : enter' i = .push (.malloc value)) (roomy : Roomy stack.heap) :
    ∃ actions stack', follow (fun now => repeats thread Local.isReturned enter' rounds now.1 now.2)
        (stack, ⟨i, .loop⟩) actions = some (stack', ⟨i, .calls (.push .loadSize)⟩) ∧
      stack'.size = stack.size ∧ Roomy stack'.heap := by
  obtain ⟨p, allocated, valued, linked, first, second, third, roomy'⟩ := roomy.push value stack.top
  refine ⟨[.go, .malloc p ⟨0, 0⟩, .go, .go, .go, .go], { stack with
    heap := linked, top := p, commits := stack.commits ++ [.push value] }, ?_, rfl, roomy'⟩
  simp only [follow, repeats, more, if_true, entered, Local.isReturned, Bool.false_eq_true,
    if_false, thread, lfStackPush, first, second, third, Option.map_some, Option.bind_some]

theorem pop_alone (more : i < rounds) (entered : enter' i = .pop .loadTop)
    (notNull : stack.top ≠ 0) (link : stack.heap.next stack.top = some next) :
    ∃ actions stack', follow (fun now => repeats thread Local.isReturned enter' rounds now.1 now.2)
        (stack, ⟨i, .loop⟩) actions =
          some (stack', ⟨i, .calls (.pop (.loadSize stack.top stack.contents.head?))⟩) ∧
      stack'.size = stack.size ∧ stack'.heap = stack.heap := by
  refine ⟨[.go, .go, .go, .go, .go], { stack with
    top := next, commits := stack.commits ++ [.pop] }, ?_, rfl, rfl⟩
  simp only [follow, repeats, more, if_true, entered, Local.isReturned, Bool.false_eq_true,
    if_false, thread, lfStackPop, notNull, link, Option.map_some, Option.bind_some]

end Alone

section Lifting

variable {Thread : Type*} [DecidableEq Thread] {up : Finset Thread} {value : Nat → BitVec 32}
  {rounds base i : Nat} {self : Thread} {owner : Address → Option Thread}
  {theirs theirs' : LostUpdate.Local} {cell : Int}

/-- A thread that can take a step of one that counts, from where it stands. -/
def Lifted (up : Finset Thread) (value : Nat → BitVec 32) (rounds base : Nat) (self : Thread)
    (stack : LfStack) (own : Caller Local) (cell : Int) (theirs : LostUpdate.Local) : Prop :=
  ∃ actions stack' own', follow
      (fun now => repeats thread Local.isReturned (entry up value self) rounds now.1 now.2)
      (stack, own) actions = some (stack', own') ∧
    stack'.size.toInt - base = cell ∧ callerCounts base own' theirs ∧ Calm own' ∧
    Roomy stack'.heap

theorem loop_lifted (point : theirs.point = .loop) (same : theirs.i = i)
    (whole : Whole owner stack) (roomy : Roomy stack.heap)
    (nonempty : self ∉ up → i < rounds → stack.contents ≠ [])
    (added : LostUpdate.add delta rounds (stack.size.toInt - base) theirs = some (cell, theirs')) :
    Lifted up value rounds base self stack ⟨i, .loop⟩ cell theirs' := by
  subst same
  simp only [LostUpdate.add, point] at added
  by_cases more : theirs.i < rounds
  · cases (if_pos more).symm.trans added
    by_cases member : self ∈ up
    · have entered : entry up value self theirs.i = .push (.malloc (value theirs.i)) := by
        simp [entry, chosen, member, enter]
      obtain ⟨actions, stack', run, size, roomy'⟩ := push_alone more entered roomy
      refine ⟨actions, stack', _, run, by rw [size], ⟨rfl, rfl⟩, fun inner at' => ?_, roomy'⟩
      cases at'
      rfl
    · have entered : entry up value self theirs.i = .pop .loadTop := by
        simp [entry, chosen, member, enter]
      have top := whole.top
      have notNull : stack.top ≠ 0 := by
        intro null
        rw [if_pos null, List.head?_eq_none_iff] at top
        exact nonempty member more top
      rw [if_neg notNull] at top
      obtain ⟨next, link⟩ := Option.ne_none_iff_exists'.mp top.2
      obtain ⟨actions, stack', run, size, heap⟩ := pop_alone more entered notNull link
      refine ⟨actions, stack', _, run, by rw [size], ⟨rfl, rfl⟩, fun inner at' => ?_, by
        rw [heap]; exact roomy⟩
      cases at'
      rfl
  · cases (if_neg more).symm.trans added
    refine ⟨[.go], stack, ⟨theirs.i, .exited⟩, ?_, rfl, ⟨rfl, rfl⟩, fun inner at' => (by cases at'),
      roomy⟩
    simp only [follow, repeats, more, if_false, Option.bind_some]

theorem load_lifted {inner inner' : Local} (load : theirs.point = .load ∧ theirs.i = i)
    (moved : thread stack inner .go = some (stack, inner')) (active : inner.isReturned = false)
    (stores : ∀ theirs', inner'.Counts base i theirs' ↔
      theirs' = ⟨.store, i, stack.size.toInt - base⟩)
    (atSize : inner'.atSize = true) (roomy : Roomy stack.heap)
    (added : LostUpdate.add delta rounds (stack.size.toInt - base) theirs = some (cell, theirs')) :
    Lifted up value rounds base self stack ⟨i, .calls inner⟩ cell theirs' := by
  obtain ⟨point, rfl⟩ := load
  simp only [LostUpdate.add, point] at added
  cases added
  refine ⟨[.go], stack, ⟨theirs.i, .calls inner'⟩, ?_, rfl, (stores _).mpr rfl,
    fun other at' => ?_, roomy⟩
  · simp only [follow, repeats, active, Bool.false_eq_true, if_false, moved, Option.map_some,
      Option.bind_some]
  · cases at'
    exact atSize

theorem push_lifted {point : Push} (counts : (Local.push point).Counts base i theirs)
    (atSize : (Local.push point).atSize = true) (member : self ∈ up) (roomy : Roomy stack.heap)
    (fits : theirs.point = .store → theirs.seen + base + 1 < 2 ^ 31)
    (added : LostUpdate.add (LostUpdate.countdown up self) rounds (stack.size.toInt - base) theirs =
      some (cell, theirs')) :
    Lifted up value rounds base self stack ⟨i, .calls (.push point)⟩ cell theirs' := by
  cases point with
  | loadSize => exact load_lifted counts rfl rfl (fun _ => Iff.rfl) rfl roomy added
  | storeSize seen =>
    have own : theirs = ⟨.store, i, seen.toInt - base⟩ := counts
    subst own
    have room : seen.toInt - base + base + 1 < 2 ^ 31 := fits rfl
    rw [LostUpdate.countdown, if_pos member] at added
    cases added
    refine ⟨[.go, .go], { stack with size := seen + 1 }, ⟨i + 1, .loop⟩, rfl, ?_, ⟨rfl, rfl⟩,
      fun inner at' => (by cases at'), roomy⟩
    rw [Counter.toInt_add_one (by omega)]
    dsimp only
    omega
  | _ => cases atSize

theorem pop_lifted {point : Pop} (counts : (Local.pop point).Counts base i theirs)
    (atSize : (Local.pop point).atSize = true) (member : self ∉ up)
    (knows : Knows owner self stack (.pop point)) (roomy : Roomy stack.heap)
    (fits : theirs.point = .store → -2 ^ 31 ≤ theirs.seen + base - 1)
    (added : LostUpdate.add (LostUpdate.countdown up self) rounds (stack.size.toInt - base) theirs =
      some (cell, theirs')) :
    Lifted up value rounds base self stack ⟨i, .calls (.pop point)⟩ cell theirs' := by
  cases point with
  | loadSize oldTop answer => exact load_lifted counts rfl rfl (fun _ => Iff.rfl) rfl roomy added
  | storeSize oldTop seen answer =>
    have own : theirs = ⟨.store, i, seen.toInt - base⟩ := counts
    subst own
    have room : -2 ^ 31 ≤ seen.toInt - base + base - 1 := fits rfl
    obtain ⟨-, value', -, found⟩ := knows
    rw [LostUpdate.countdown, if_neg member] at added
    cases added
    refine ⟨[.go, .go, .go], { stack with size := seen - 1 }, ⟨i + 1, .loop⟩, ?_, ?_, ⟨rfl, rfl⟩,
      fun inner at' => (by cases at'), roomy⟩
    · simp only [follow, repeats, Local.isReturned, Bool.false_eq_true, if_false, if_true, thread,
        lfStackPop, found, Option.map_some, Option.bind_some]
    · rw [Counter.toInt_sub_one (by omega)]
      dsimp only
      omega
  | _ => cases atSize

theorem repeats_lifted (value : Nat → BitVec 32) (own : Caller Local)
    (counts : callerCounts base own theirs) (calm : Calm own)
    (sure : ∀ inner, own.place = .calls inner → Sure (decide (self ∈ up)) inner)
    (whole : Whole owner stack) (knows : Knows owner self stack (own.inner .idle))
    (roomy : Roomy stack.heap)
    (nonempty : self ∉ up → own.done Local.past < rounds → stack.contents ≠ [])
    (fits : theirs.point = .store →
      -2 ^ 31 ≤ theirs.seen + base - 1 ∧ theirs.seen + base + 1 < 2 ^ 31)
    (added : LostUpdate.add (LostUpdate.countdown up self) rounds (stack.size.toInt - base) theirs =
      some (cell, theirs')) :
    Lifted up value rounds base self stack own cell theirs' := by
  obtain ⟨i, place⟩ := own
  cases place with
  | loop => exact loop_lifted counts.1 counts.2 whole roomy nonempty added
  | exited =>
    have point : theirs.point = .exited := counts.1
    simp only [LostUpdate.add, point] at added
    cases added
  | calls inner =>
    have atSize := calm inner rfl
    have sure := sure inner rfl
    cases inner with
    | push point =>
      have member : self ∈ up := of_decide_eq_true sure
      exact push_lifted counts atSize member roomy (fun store => (fits store).2) added
    | pop point =>
      have member : self ∉ up := of_decide_eq_false sure.pops
      exact pop_lifted counts atSize member knows roomy (fun store => (fits store).1) added
    | _ => cases atSize

end Lifting

section Outcomes

variable {Thread : Type*} [Fintype Thread] [DecidableEq Thread] {up : Finset Thread}
  {value : Nat → BitVec 32} {rounds base : Nat} {state : State Thread LfStack (Caller Local)}
  {plain after : State Thread Int LostUpdate.Local}

/-- Threads that stand where those that count stand. -/
structure Lifts (up : Finset Thread) (rounds base : Nat) (plain : State Thread Int LostUpdate.Local)
    (state : State Thread LfStack (Caller Local)) : Prop where
  same : Matches up rounds base state plain
  calm : ∀ self, Calm (state.locals self)
  roomy : Roomy state.shared.heap

theorem Lifts.step (lifts : Lifts up rounds base plain state) (enough : rounds * upᶜ.card ≤ base)
    (small : base + rounds * up.card + 1 < 2 ^ 31)
    (stepped : LostUpdate.threads (LostUpdate.countdown up) rounds plain event = some after) :
    ∃ actions after', follow (testers up value rounds) state actions = some after' ∧
      Lifts up rounds base after after' := by
  obtain ⟨self, action⟩ := event
  obtain ⟨same, calm, roomy⟩ := lifts
  obtain ⟨theirs, moved, locals⟩ := step_eq_some stepped
  obtain ⟨owner, whole, knows⟩ := same.tested.outline
  have whole : Whole owner state.shared := whole
  have added : LostUpdate.add (LostUpdate.countdown up self) rounds (state.shared.size.toInt - base)
      (plain.locals self) = some (after.shared, theirs) := by
    rw [← same.cell]
    exact moved
  obtain ⟨actions, stack', own', run, size, counts, calm', roomy'⟩ := repeats_lifted value _
    (same.each self) (calm self) (same.tested.sure self) whole (knows self) roomy
    (same.tested.nonempty enough) (same.fits enough small) added
  have all : follow (testers up value rounds) state (actions.map (self, ·)) =
      some ⟨stack', Function.update state.locals self own'⟩ := follow_alone self run
  have once : follow (LostUpdate.threads (LostUpdate.countdown up) rounds) plain
      [(self, action)] = some after := follow_step stepped rfl
  refine ⟨_, _, all, ⟨?_, ?_, fun other => ?_, same.reachable.follow once⟩, fun other => ?_, roomy'⟩
  · exact follow_keeps (fun state event after tested stepped => tested.step enough stepped)
      same.tested all
  · exact size.symm
  · rw [locals]
    by_cases which : other = self
    · subst which
      simpa using counts
    · simpa [which] using same.each other
  · by_cases which : other = self
    · subst which
      simpa using calm'
    · simpa [which] using calm other

theorem Ready.lifts (value : Nat → BitVec 32) (ready : Ready base stack) (roomy : Roomy stack.heap)
    (enough : rounds * upᶜ.card ≤ base) (small : base + rounds * up.card + 1 < 2 ^ 31)
    (reachable : Reachable (LostUpdate.threads (LostUpdate.countdown up) rounds)
      ⟨0, fun _ => LostUpdate.initial⟩ plain) :
    ∃ state, Reachable (testers up value rounds) ⟨stack, fun _ => begun⟩ state ∧
      Lifts up rounds base plain state := by
  have cell : (0 : Int) = stack.size.toInt - base := by rw [ready.2.2, sub_self]
  have start : Lifts up rounds base ⟨0, fun _ => LostUpdate.initial⟩ ⟨stack, fun _ => begun⟩ :=
    ⟨⟨ready.tested up rounds, cell, fun _ => ⟨rfl, rfl⟩, ⟨[], rfl⟩⟩,
      fun _ inner at' => (by cases at'), roomy⟩
  exact reachable.lift start fun plain state event after lifts stepped =>
    lifts.step enough small stepped

theorem Matches.exited_iff (same : Matches up rounds base state plain) (self : Thread) :
    (plain.locals self).point = .exited ↔ (state.locals self).place = .exited := by
  have each := same.each self
  cases place : (state.locals self).place with
  | loop =>
    rw [callerCounts, place] at each
    simp [each.1]
  | exited =>
    rw [callerCounts, place] at each
    simp [each.1]
  | calls inner =>
    rw [callerCounts, place] at each
    refine iff_of_false (fun exited => ?_) nofun
    have never := each.not_exited
    exact never exited

/-- The stack at the end has what it had at first, and what more has been pushed than popped. -/
theorem Matches.final (same : Matches up rounds base state plain)
    (exited : ∀ self, (state.locals self).place = .exited) :
    (state.shared.contents.length : Int) = base + rounds * (up.card - upᶜ.card) := by
  rw [same.tested.length, effect_exited exited same.tested.within]

end Outcomes

/-- A run of the loop of `main`. -/
def Created (heap : Heap Node) (stack : LfStack) : Prop :=
  Joined (fun _ : Unit => mainPush) (lfStackInit heap) stack

/-- One step of any of the threads. -/
abbrev workers : State (Fin 4) LfStack (Caller Local) → Fin 4 × Action →
    Option (State (Fin 4) LfStack (Caller Local)) :=
  Interleaving.step work

theorem work_eq : work = fun self => repeats thread Local.isReturned
    (entry (below 2) (fun i => BitVec.ofNat 32 i) self) testSize :=
  repeats_below enter (fun i => .push (BitVec.ofNat 32 i)) .pop 2

theorem mainPush_eq : (fun _ : Unit => mainPush) = fun self => repeats thread Local.isReturned
    (entry Finset.univ (fun _ => 1) self) (testSize * 2) :=
  repeats_univ enter (fun _ => .push 1) .pop

theorem pushers_card : (below 2 : Finset (Fin 4)).card = 2 ∧ (below 2 : Finset (Fin 4))ᶜ.card = 2 :=
  card_below (by decide)

theorem ready_init (heap : Heap Node) : Ready 0 (lfStackInit heap) :=
  ⟨⟨[], rfl, List.nodup_nil, rfl⟩, rfl, rfl⟩

theorem Created.ready (created : Created heap stack) : Ready 2000 stack := by
  obtain ⟨state, reachable, exited, rfl⟩ := created
  rw [mainPush_eq] at reachable
  obtain ⟨plain, same⟩ := (ready_init heap).matches (by decide) (by decide) reachable
  obtain ⟨owner, ⟨nodes, list, nodup, values, -⟩, -⟩ := same.tested.outline
  have length := same.final exited
  have within := LostUpdate.reachable_within same.reachable
  have rounds := (within.rounds ()).2.2 ((same.exited_iff ()).mpr (exited ()))
  have cell := (LostUpdate.reachable_kept same.reachable).1
  rw [rounds, same.cell, LostUpdate.countdown_up _ (Finset.mem_univ ())] at cell
  refine ⟨⟨nodes, list, nodup, values⟩, ?_, ?_⟩
  · have all : (Finset.univ : Finset Unit).card = 1 ∧ (Finset.univ : Finset Unit)ᶜ.card = 0 := by
      decide
    rw [all.1, all.2, testSize] at length
    omega
  · rw [testSize] at cell
    omega

theorem created_exists : ∃ stack, Created Heap.empty stack ∧ Roomy stack.heap := by
  obtain ⟨plain, reachable, exited⟩ :=
    LostUpdate.reachable_exited (LostUpdate.countdown Finset.univ) (testSize * 2)
  have roomy : Roomy (lfStackInit Heap.empty).heap := ⟨0, fun _ _ => rfl⟩
  obtain ⟨state, reachable', lifts⟩ := (ready_init Heap.empty).lifts (fun _ => 1) roomy (by decide)
    (by decide) reachable
  have returned := (lifts.same.exited_iff ()).mp exited
  refine ⟨state.shared, ⟨state, ?_, fun _ => returned, rfl⟩, lifts.roomy⟩
  rw [mainPush_eq]
  exact reachable'

/-- Once all threads have returned, the list from `top` is as long as it was when they were created,
whereas the counter can show `main` any number from 0 to twice that. -/
theorem counted_iff :
    (∀ heap stack state, Created heap stack → Reachable workers ⟨stack, fun _ => begun⟩ state →
      (∀ self, (state.locals self).place = .exited) →
      ∃ nodes, Segment state.shared.heap.next state.shared.top nodes 0 ∧ nodes.length = 2000 ∧
        nodes.map state.shared.heap.value = state.shared.contents.map some) ∧
    ∀ count, (∃ heap stack state, Created heap stack ∧
      Reachable workers ⟨stack, fun _ => begun⟩ state ∧
      (∀ self, (state.locals self).place = .exited) ∧ (lfStackSize state.shared).toInt = count) ↔
      0 ≤ count ∧ count ≤ 4000 := by
  obtain ⟨ups, downs⟩ := pushers_card
  have enough : testSize * (below 2 : Finset (Fin 4))ᶜ.card ≤ 2000 := by rw [downs]; decide
  have small : 2000 + testSize * (below 2 : Finset (Fin 4)).card + 1 < 2 ^ 31 := by rw [ups]; decide
  have some : (below 2 : Finset (Fin 4)).Nonempty := Finset.card_pos.mp (ups ▸ Nat.succ_pos 1)
  have some' : (below 2 : Finset (Fin 4))ᶜ.Nonempty := Finset.card_pos.mp (downs ▸ Nat.succ_pos 1)
  have final := LostUpdate.final_iff some some' (Nat.succ_pos 999)
  rw [workers, work_eq]
  refine ⟨fun heap stack state created reachable exited => ?_, fun count => ⟨?_, ?_⟩⟩
  · obtain ⟨plain, same⟩ := created.ready.matches enough small reachable
    obtain ⟨owner, ⟨nodes, list, -, values, -⟩, -⟩ := same.tested.outline
    have length := same.final exited
    have each : nodes.length = state.shared.contents.length := by
      simpa [view] using congrArg List.length values
    rw [ups, downs, ← each] at length
    exact ⟨nodes, list, by omega, values⟩
  · rintro ⟨heap, stack, state, created, reachable, exited, rfl⟩
    obtain ⟨plain, same⟩ := created.ready.matches enough small reachable
    have bounds := (final plain.shared).mp
      ⟨plain, same.reachable, fun self => (same.exited_iff self).mpr (exited self), rfl⟩
    rw [same.cell, ups, downs] at bounds
    obtain ⟨lower, upper⟩ := bounds
    rw [lfStackSize]
    constructor <;> omega
  · rintro ⟨lower, upper⟩
    obtain ⟨stack, created, roomy⟩ := created_exists
    obtain ⟨plain, reachable, exited, shared⟩ := (final (count - 2000)).mpr (by
      rw [ups, downs]
      constructor <;> omega)
    obtain ⟨state, reachable', lifts⟩ := created.ready.lifts _ roomy enough small reachable
    refine ⟨_, stack, state, created, reachable', fun self => ?_, ?_⟩
    · exact (lifts.same.exited_iff self).mp (exited self)
    · have cell := lifts.same.cell
      rw [shared] at cell
      rw [lfStackSize]
      omega

end CssLab.LockFree.Stack
