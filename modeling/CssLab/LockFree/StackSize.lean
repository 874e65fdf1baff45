import CssLab.LockFree.StackLinear
import CssLab.Lib.Census

namespace CssLab.LockFree.Stack

open Chain Transition Interleaving

variable {Thread : Type*}

/-- A push has made its exchange and has not yet been counted. -/
def Local.adds : Local → Bool
  | .push .loadSize | .push (.storeSize _) => true
  | _ => false

/-- A pop has made its exchange and is still counted. -/
def Local.takes : Local → Bool
  | .pop (.loadSize ..) | .pop (.storeSize ..) => true
  | _ => false

/-- What the counter will show when this thread has returned, if no other one
counts meanwhile, beyond the length of the abstract stack. -/
def surplus (stack : LfStack) (own : Local) : Int :=
  stack.size.toInt + own.adds.toNat - own.takes.toNat - stack.contents.length

/-- A store to the counter comes when that is still what the load saw, and the sum is
an `int`. -/
def Local.undisturbed (own : Local) (stack : LfStack) : Bool :=
  match own with
  | .push (.storeSize seen) => stack.size = seen ∧ ¬seen.saddOverflow 1
  | .pop (.storeSize _ seen _) => stack.size = seen ∧ ¬seen.ssubOverflow 1
  | _ => true

/-- The number of nodes from `top` to the end of the list is what `lf_stack_size` returns. -/
def Exact (stack : LfStack) : Prop :=
  ∃ nodes, Segment stack.heap.next stack.top nodes 0 ∧ nodes.Nodup ∧
    (lfStackSize stack).toInt = nodes.length

/-- What undisturbed steps keep: the counter lacks of the abstract stack what the
threads are about to do to it. -/
structure Counted [Fintype Thread] (state : State Thread LfStack Local) : Prop where
  outline : Outline Whole Knows state
  size : state.shared.size.toInt + census Local.adds state.locals =
    state.shared.contents.length + census Local.takes state.locals

theorem push_surplus {point : Push} (alone : (Local.push point).undisturbed stack)
    (moved : lfStackPush stack point action = some (stack', own)) :
    surplus stack' own = surplus stack (.push point) := by
  cases action with
  | call call => cases point <;> cases moved
  | malloc newNode garbage =>
    cases point with
    | malloc value =>
      obtain ⟨heap, -, same⟩ := Option.map_eq_some_iff.mp moved
      cases same
      rfl
    | _ => cases moved
  | go =>
    cases point with
    | malloc value => cases moved
    | setValue value newNode =>
      obtain ⟨heap, -, same⟩ := Option.map_eq_some_iff.mp moved
      cases same
      rfl
    | loadTop value newNode =>
      cases moved
      rfl
    | storeNext value newNode oldTop =>
      obtain ⟨heap, -, same⟩ := Option.map_eq_some_iff.mp moved
      cases same
      rfl
    | swapTop value newNode oldTop =>
      simp only [lfStackPush] at moved
      split at moved <;> cases moved
      · have longer : (Lifo.replay (stack.commits ++ [.push value])).length =
            stack.contents.length + 1 := by
          rw [Lifo.replay_push, List.length_cons, LfStack.contents]
        simp only [surplus, Local.adds, Local.takes, LfStack.contents, Bool.toNat_true,
          Bool.toNat_false] at longer ⊢
        omega
      · rfl
    | loadSize =>
      cases moved
      rfl
    | storeSize seen =>
      cases moved
      obtain ⟨rfl, inside⟩ := of_decide_eq_true alone
      have counted : (stack.size + 1).toInt = stack.size.toInt + 1 :=
        BitVec.toInt_add_of_not_saddOverflow inside
      simp only [surplus, Local.adds, Local.takes, LfStack.contents, Bool.toNat_true,
        Bool.toNat_false]
      omega

theorem pop_surplus {owner : Address → Option Thread} {point : Pop}
    (whole : Whole owner stack) (knows : Knows owner self stack (.pop point))
    (alone : (Local.pop point).undisturbed stack)
    (moved : lfStackPop stack point action = some (stack', own)) :
    surplus stack' own = surplus stack (.pop point) := by
  cases action with
  | call call => cases point <;> cases moved
  | malloc node garbage => cases point <;> cases moved
  | go =>
    cases point with
    | loadTop =>
      cases moved
      rfl
    | test oldTop answer =>
      simp only [lfStackPop] at moved
      split at moved <;> cases moved
      · rfl
      · rfl
    | loadNext oldTop =>
      obtain ⟨topNext, -, same⟩ := Option.map_eq_some_iff.mp moved
      cases same
      rfl
    | swapTop oldTop topNext =>
      simp only [lfStackPop] at moved
      split at moved <;> cases moved
      · rename_i same
        subst same
        -- The exchange succeeds on a node, so that there is an element to take away.
        obtain ⟨-, value, answer, -⟩ := whole.pop knows.2
        obtain ⟨below, contents⟩ := List.head?_eq_some_iff.mp answer
        have shorter : (Lifo.replay (stack.commits ++ [.pop])).length + 1 =
            stack.contents.length := by
          rw [Lifo.replay_pop, ← LfStack.contents, contents, List.tail_cons, List.length_cons]
        simp only [surplus, Local.adds, Local.takes, LfStack.contents, Bool.toNat_true,
          Bool.toNat_false] at shorter ⊢
        omega
      · rfl
    | loadSize oldTop answer =>
      cases moved
      rfl
    | storeSize oldTop seen answer =>
      cases moved
      obtain ⟨rfl, inside⟩ := of_decide_eq_true alone
      have counted : (stack.size - 1).toInt = stack.size.toInt - 1 :=
        BitVec.toInt_sub_of_not_ssubOverflow inside
      simp only [surplus, Local.adds, Local.takes, LfStack.contents, Bool.toNat_true,
        Bool.toNat_false]
      omega
    | loadValue oldTop answer =>
      obtain ⟨value, -, same⟩ := Option.map_eq_some_iff.mp moved
      cases same
      rfl

theorem thread_surplus {owner : Address → Option Thread} (whole : Whole owner stack)
    (knows : Knows owner self stack own) (alone : own.undisturbed stack)
    (moved : thread stack own action = some (stack', own')) :
    surplus stack' own' = surplus stack own := by
  cases own with
  | idle =>
    cases action with
    | call call =>
      cases moved
      cases call <;> rfl
    | malloc node garbage => cases moved
    | go => cases moved
  | push point => exact push_surplus alone moved
  | pop point => exact pop_surplus whole knows alone moved
  | size =>
    cases action with
    | call call => cases moved
    | malloc node garbage => cases moved
    | go =>
      cases moved
      rfl
  | returned outcome =>
    cases action with
    | call call => cases moved
    | malloc node garbage => cases moved
    | go =>
      cases moved
      rfl

section Runs

variable [Fintype Thread] {state after : State Thread LfStack Local}

theorem start_counted (heap : Heap Node) :
    Counted (start (lfStackInit heap) : State Thread LfStack Local) := by
  refine ⟨start_outline heap, ?_⟩
  simp [start, lfStackInit, census, Local.adds, Local.takes, LfStack.contents, Lifo.replay]

theorem Counted.exact (counted : Counted state) (rest : ∀ self, state.locals self = .idle) :
    Exact state.shared := by
  obtain ⟨⟨owner, ⟨nodes, list, nodup, values, -⟩, -⟩, size⟩ := counted
  have adding : census Local.adds state.locals = 0 :=
    census_eq_zero.mpr fun self => by rw [rest self]; rfl
  have taking : census Local.takes state.locals = 0 :=
    census_eq_zero.mpr fun self => by rw [rest self]; rfl
  have length := congrArg List.length values
  rw [List.length_map, List.length_map] at length
  refine ⟨nodes, list, nodup, ?_⟩
  rw [adding, taking] at size
  rw [lfStackSize, length]
  simpa using size

variable [DecidableEq Thread]

theorem Counted.step (counted : Counted state)
    (alone : (state.locals event.1).undisturbed state.shared)
    (stepped : threads state event = some after) : Counted after := by
  refine ⟨?_, ?_⟩
  · exact counted.outline.step (fun _ _ whole knows moved => thread_moves whole knows moved)
      stepped
  · obtain ⟨own, moved, locals⟩ := step_eq_some stepped
    obtain ⟨owner, whole, knows⟩ := counted.outline
    have same := thread_surplus whole (knows event.1) alone moved
    have adding := census_update Local.adds state.locals event.1 own
    have taking := census_update Local.takes state.locals event.1 own
    have before := counted.size
    simp only [surplus] at same
    rw [locals]
    omega

/-- If each store to the counter is undisturbed, the counter is right when all threads
have returned. -/
theorem size_at_rest (heap : Heap Node) (events : List (Thread × Action))
    (run : follow threads (start (lfStackInit heap)) events = some state)
    (alone : EachStep threads
      (fun state event => (state.locals event.1).undisturbed state.shared)
      (start (lfStackInit heap)) events)
    (rest : ∀ self, state.locals self = .idle) : Exact state.shared := by
  have counted : Counted state := by
    apply alone.invariant run (start_counted heap)
    intro state event after counted fine stepped
    exact counted.step fine stepped
  exact counted.exact rest

end Runs

/-- Two pushes of which the second one counts after the first one. -/
theorem size_at_rest_two :
    ∃ state : State (Fin 2) LfStack Local, state.shared.contents = [8, 7] ∧
      Exact state.shared := by
  refine ⟨_, ?_, size_at_rest Heap.empty
    [(0, .call (.push 7)), (0, .malloc 1 ⟨5, 5⟩), (0, .go), (0, .go), (0, .go), (0, .go),
      (1, .call (.push 8)), (1, .malloc 2 ⟨5, 5⟩), (1, .go), (1, .go), (1, .go), (1, .go),
      (0, .go), (0, .go), (1, .go), (1, .go), (0, .go), (1, .go)]
    (Option.some_get rfl).symm ?_ ?_⟩
  · rfl
  · decide
  · exact Fin.forall_fin_two.mpr ⟨rfl, rfl⟩

/-- Two pushes that both load the counter before either of them stores it. -/
theorem size_loses_push :
    ¬ ∀ state : State (Fin 2) LfStack Local,
      Reachable threads (start (lfStackInit Heap.empty)) state →
        (∀ self, state.locals self = .idle) → Exact state.shared := by
  intro always
  let events : List (Fin 2 × Action) :=
    [(0, .call (.push 7)), (0, .malloc 1 ⟨5, 5⟩), (0, .go), (0, .go), (0, .go), (0, .go),
      (1, .call (.push 8)), (1, .malloc 2 ⟨5, 5⟩), (1, .go), (1, .go), (1, .go), (1, .go),
      (0, .go), (1, .go), (0, .go), (1, .go), (0, .go), (1, .go)]
  obtain ⟨state, run, rest, both, size⟩ : ∃ state,
      follow threads (start (lfStackInit Heap.empty)) events = some state ∧
        (∀ self, state.locals self = .idle) ∧
        Segment state.shared.heap.next state.shared.top [2, 1] 0 ∧
        (lfStackSize state.shared).toInt = 1 :=
    ⟨_, rfl, Fin.forall_fin_two.mpr ⟨rfl, rfl⟩, ⟨rfl, 1, rfl, rfl, 0, rfl, rfl⟩, rfl⟩
  obtain ⟨nodes, list, -, counted⟩ := always state ⟨events, run⟩ rest
  rw [← both.unique list (Heap.next_null _), size] at counted
  exact absurd counted (by decide)

end CssLab.LockFree.Stack
