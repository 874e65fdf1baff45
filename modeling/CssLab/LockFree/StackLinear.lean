import CssLab.LockFree.Stack

namespace CssLab.LockFree.Stack

open Chain Transition Interleaving

variable {Thread : Type*}

/-- The list from `top` ends, meets no node twice and carries the abstract stack. -/
def Represents (stack : LfStack) : Prop :=
  ∃ nodes, Segment stack.heap.next stack.top nodes 0 ∧ nodes.Nodup ∧
    nodes.map stack.heap.value = stack.contents.map some

/-- A pop that made an exchange returns what the abstract pop returned there.
One that did not returns -1, and the abstract stack was empty when `top` was loaded. -/
def Outcome.Correct : Outcome → Prop
  | .popped value answer => answer = some value
  | .early value answer => value = -1 ∧ answer = none
  | .pushed | .size _ => True

structure Linear (state : State Thread LfStack Local) : Prop where
  represents : Represents state.shared
  correct : ∀ self outcome, state.locals self = .returned outcome → outcome.Correct
  conserved : (Lifo.pushed state.shared.commits).Perm
    (Lifo.popped [] state.shared.commits ++ state.shared.contents)

/-- The list from `top` is linear and none of its nodes is still a thread's own. -/
def Whole (owner : Address → Option Thread) (stack : LfStack) : Prop :=
  ∃ nodes, Segment stack.heap.next stack.top nodes 0 ∧ nodes.Nodup ∧
    nodes.map stack.heap.value = stack.contents.map some ∧ ∀ node ∈ nodes, owner node = none

/-- A node that a thread owns, or that has been published if it is nobody's. -/
def Holds (owner : Address → Option Thread) (holder : Option Thread) (stack : LfStack)
    (node : Address) : Prop :=
  owner node = holder ∧ stack.heap.next node ≠ none

def Knows (owner : Address → Option Thread) (self : Thread) (stack : LfStack) : Local → Prop
  | .push (.setValue _ newNode) => Holds owner (some self) stack newNode
  | .push (.loadTop value newNode) | .push (.storeNext value newNode _) =>
    Holds owner (some self) stack newNode ∧ stack.heap.value newNode = some value
  | .push (.swapTop value newNode oldTop) =>
    Holds owner (some self) stack newNode ∧ stack.heap.value newNode = some value ∧
      stack.heap.next newNode = some oldTop
  | .pop (.test oldTop answer) =>
    if oldTop = 0 then answer = none else Holds owner none stack oldTop
  | .pop (.loadNext oldTop) => Holds owner none stack oldTop
  | .pop (.swapTop oldTop topNext) =>
    Holds owner none stack oldTop ∧ stack.heap.next oldTop = some topNext
  | .pop (.loadSize oldTop answer) | .pop (.storeSize oldTop _ answer)
  | .pop (.loadValue oldTop answer) =>
    Holds owner none stack oldTop ∧ ∃ value, answer = some value ∧
      stack.heap.value oldTop = some value
  | .returned outcome => outcome.Correct
  | _ => True

/-- A step changes no node but its own thread's, and gives away no other one. -/
def Spares (self : Thread) (owner : Address → Option Thread) (stack : LfStack)
    (owner' : Address → Option Thread) (stack' : LfStack) : Prop :=
  ∀ node, stack.heap.next node ≠ none → owner node ≠ some self →
    owner' node = owner node ∧ stack'.heap.next node = stack.heap.next node ∧
      stack'.heap.value node = stack.heap.value node

theorem Spares.refl (self : Thread) (owner : Address → Option Thread) (stack : LfStack) :
    Spares self owner stack owner stack := fun _ _ _ => ⟨rfl, rfl, rfl⟩

theorem Spares.store {owner : Address → Option Thread} (mine : owner newNode = some self)
    (same : ∀ node, node ≠ newNode →
      heap.next node = stack.heap.next node ∧ heap.value node = stack.heap.value node) :
    Spares self owner stack owner { stack with heap } := by
  intro node _ notMine
  have apart : node ≠ newNode := by
    rintro rfl
    exact notMine mine
  exact ⟨rfl, same node apart⟩

theorem Spares.holds {owner owner' : Address → Option Thread}
    (spares : Spares self owner stack owner' stack')
    (holds : Holds owner holder stack node) (other : holder ≠ some self) :
    Holds owner' holder stack' node ∧ stack'.heap.next node = stack.heap.next node ∧
      stack'.heap.value node = stack.heap.value node := by
  obtain ⟨owned, used⟩ := holds
  obtain ⟨owned', link, value⟩ := spares node used (owned ▸ other)
  exact ⟨⟨owned'.trans owned, link ▸ used⟩, link, value⟩

theorem Spares.knows {owner owner' : Address → Option Thread}
    (spares : Spares self owner stack owner' stack') (apart : other ≠ self)
    (knows : Knows owner other stack theirs) : Knows owner' other stack' theirs := by
  have mine : some other ≠ some self := fun same => apart (Option.some.inj same)
  have published : (none : Option Thread) ≠ some self := nofun
  cases theirs with
  | idle => trivial
  | size => trivial
  | returned outcome => exact knows
  | push point =>
    cases point with
    | malloc value => trivial
    | setValue value newNode => exact (spares.holds knows mine).1
    | loadTop value newNode =>
      obtain ⟨held, -, same⟩ := spares.holds knows.1 mine
      exact ⟨held, same.trans knows.2⟩
    | storeNext value newNode oldTop =>
      obtain ⟨held, -, same⟩ := spares.holds knows.1 mine
      exact ⟨held, same.trans knows.2⟩
    | swapTop value newNode oldTop =>
      obtain ⟨held, link, same⟩ := spares.holds knows.1 mine
      exact ⟨held, same.trans knows.2.1, link.trans knows.2.2⟩
    | loadSize => trivial
    | storeSize seen => trivial
  | pop point =>
    cases point with
    | loadTop => trivial
    | test oldTop answer =>
      simp only [Knows] at knows ⊢
      split
      · rename_i null
        rwa [if_pos null] at knows
      · rename_i notNull
        rw [if_neg notNull] at knows
        exact (spares.holds knows published).1
    | loadNext oldTop => exact (spares.holds knows published).1
    | swapTop oldTop topNext =>
      obtain ⟨held, link, -⟩ := spares.holds knows.1 published
      exact ⟨held, link.trans knows.2⟩
    | loadSize oldTop answer =>
      obtain ⟨held, -, same⟩ := spares.holds knows.1 published
      exact ⟨held, knows.2.imp fun _ found => ⟨found.1, same.trans found.2⟩⟩
    | storeSize oldTop seen answer =>
      obtain ⟨held, -, same⟩ := spares.holds knows.1 published
      exact ⟨held, knows.2.imp fun _ found => ⟨found.1, same.trans found.2⟩⟩
    | loadValue oldTop answer =>
      obtain ⟨held, -, same⟩ := spares.holds knows.1 published
      exact ⟨held, knows.2.imp fun _ found => ⟨found.1, same.trans found.2⟩⟩

theorem Whole.spared {owner owner' : Address → Option Thread} (whole : Whole owner stack)
    (spares : Spares self owner stack owner' stack') (top : stack'.top = stack.top)
    (commits : stack'.commits = stack.commits) : Whole owner' stack' := by
  obtain ⟨nodes, list, nodup, values, published⟩ := whole
  have spared : ∀ node ∈ nodes, Holds owner' none stack' node ∧
      stack'.heap.next node = stack.heap.next node ∧
      stack'.heap.value node = stack.heap.value node := by
    intro node member
    obtain ⟨after, link, -⟩ := list.next_mem member
    exact spares.holds ⟨published node member, by simp [link]⟩ nofun
  refine ⟨nodes, ?_, nodup, ?_, fun node member => (spared node member).1.1⟩
  · rw [top]
    exact list.frame fun node member => (spared node member).2.1
  · rw [LfStack.contents, commits, ← LfStack.contents, ← values]
    exact List.map_congr_left fun node member => (spared node member).2.2

/-- The exchange of a push puts its node in front of the list. -/
theorem Whole.push [DecidableEq Thread] {owner : Address → Option Thread}
    (whole : Whole owner stack) (mine : Holds owner (some self) stack newNode)
    (carried : stack.heap.value newNode = some value)
    (link : stack.heap.next newNode = some stack.top) :
    Whole (Function.update owner newNode none)
      { stack with top := newNode, commits := stack.commits ++ [.push value] } := by
  obtain ⟨nodes, list, nodup, values, published⟩ := whole
  have fresh : newNode ∉ nodes := by
    intro member
    have unowned := published newNode member
    rw [mine.1] at unowned
    cases unowned
  refine ⟨newNode :: nodes, ⟨rfl, _, link, list⟩, List.nodup_cons.mpr ⟨fresh, nodup⟩, ?_, ?_⟩
  · simpa [LfStack.contents, carried] using values
  · intro node member
    rcases List.mem_cons.mp member with rfl | old
    · exact Function.update_self ..
    · have apart : node ≠ newNode := by
        rintro rfl
        exact fresh old
      rw [Function.update_of_ne apart]
      exact published node old

/-- The exchange of a pop takes the first node, whose value is the abstract answer. -/
theorem Whole.pop {owner : Address → Option Thread} (whole : Whole owner stack)
    (link : stack.heap.next stack.top = some topNext) :
    Whole owner { stack with top := topNext, commits := stack.commits ++ [.pop] } ∧
      ∃ value, stack.contents.head? = some value ∧ stack.heap.value stack.top = some value := by
  obtain ⟨nodes, list, nodup, values, published⟩ := whole
  cases nodes with
  | nil =>
    have null : stack.top = 0 := list
    rw [null, Heap.next_null] at link
    cases link
  | cons node rest =>
    obtain ⟨rfl, after, link', tail⟩ := list
    have same : after = topNext := Option.some.inj (link'.symm.trans link)
    subst same
    cases found : stack.contents with
    | nil => simp [found] at values
    | cons value contents =>
      rw [found] at values
      obtain ⟨head, below⟩ := List.cons.inj values
      refine ⟨⟨rest, tail, (List.nodup_cons.mp nodup).2, ?_, ?_⟩, value, rfl, head⟩
      · have found' : Lifo.replay stack.commits = value :: contents := found
        simpa [LfStack.contents, found'] using below
      · exact fun node member => published node (List.mem_cons_of_mem _ member)

/-- A load of `top` finds the null pointer only when the abstract stack is empty. -/
theorem Whole.top {owner : Address → Option Thread} (whole : Whole owner stack) :
    if stack.top = 0 then stack.contents.head? = none else Holds owner none stack stack.top := by
  obtain ⟨nodes, list, -, values, published⟩ := whole
  cases nodes with
  | nil =>
    have null : stack.top = 0 := list
    have empty : stack.contents = [] := by simpa using values.symm
    rw [if_pos null, empty, List.head?_nil]
  | cons node rest =>
    obtain ⟨rfl, after, link, -⟩ := list
    have notNull : stack.top ≠ 0 := by
      intro null
      rw [null, Heap.next_null] at link
      cases link
    rw [if_neg notNull]
    exact ⟨published _ List.mem_cons_self, by simp [link]⟩

theorem push_moves [DecidableEq Thread] {owner : Address → Option Thread} {point : Push}
    (whole : Whole owner stack) (knows : Knows owner self stack (.push point))
    (moved : lfStackPush stack point action = some (stack', own)) :
    ∃ owner' : Address → Option Thread, Whole owner' stack' ∧ Knows owner' self stack' own ∧
      Spares self owner stack owner' stack' := by
  cases action with
  | call call => cases point <;> cases moved
  | malloc newNode garbage =>
    cases point with
    | malloc value =>
      obtain ⟨heap, done, same⟩ := Option.map_eq_some_iff.mp moved
      cases same
      obtain ⟨unused, links, values⟩ := Heap.malloc_node done
      have spares : Spares self owner stack (Function.update owner newNode (some self))
          { stack with heap } := by
        intro node used _
        have apart : node ≠ newNode := by
          rintro rfl
          exact used unused
        simp [links, values, apart]
      exact ⟨_, whole.spared spares rfl rfl, by simp [Knows, Holds, links], spares⟩
    | _ => cases moved
  | go =>
    cases point with
    | malloc value => cases moved
    | setValue value newNode =>
      obtain ⟨heap, done, same⟩ := Option.map_eq_some_iff.mp moved
      cases same
      obtain ⟨links, values⟩ := Heap.setValue_eq_some done
      have spares : Spares self owner stack owner { stack with heap } :=
        .store knows.1 fun node apart => by simp [links, values, apart]
      refine ⟨owner, whole.spared spares rfl rfl, ⟨⟨knows.1, ?_⟩, ?_⟩, spares⟩
      · simpa [links] using knows.2
      · simp [values]
    | loadTop value newNode =>
      cases moved
      exact ⟨owner, whole, knows, .refl self owner stack⟩
    | storeNext value newNode oldTop =>
      obtain ⟨heap, done, same⟩ := Option.map_eq_some_iff.mp moved
      cases same
      obtain ⟨links, values⟩ := Heap.setNext_eq_some done
      have spares : Spares self owner stack owner { stack with heap } :=
        .store knows.1.1 fun node apart => by simp [links, values, apart]
      refine ⟨owner, whole.spared spares rfl rfl, ⟨⟨knows.1.1, ?_⟩, ?_, ?_⟩, spares⟩
      · simp [links]
      · simpa [values] using knows.2
      · simp [links]
    | swapTop value newNode oldTop =>
      simp only [lfStackPush] at moved
      split at moved <;> cases moved
      · rename_i same
        subst same
        refine ⟨_, whole.push knows.1 knows.2.1 knows.2.2, trivial, ?_⟩
        intro node _ notMine
        have apart : node ≠ newNode := by
          rintro rfl
          exact notMine knows.1.1
        simp [apart]
      · exact ⟨owner, whole, ⟨knows.1, knows.2.1⟩, .refl self owner stack⟩
    | loadSize =>
      cases moved
      exact ⟨owner, whole, trivial, .refl self owner stack⟩
    | storeSize seen =>
      cases moved
      exact ⟨owner, whole, trivial, .refl self owner stack⟩

/-- A step of `lf_stack_pop` keeps the outline and touches no node. -/
theorem pop_moves {owner : Address → Option Thread} {point : Pop}
    (whole : Whole owner stack) (knows : Knows owner self stack (.pop point))
    (moved : lfStackPop stack point action = some (stack', own)) :
    Whole owner stack' ∧ Knows owner self stack' own ∧ stack'.heap = stack.heap := by
  cases action with
  | call call => cases point <;> cases moved
  | malloc node garbage => cases point <;> cases moved
  | go =>
    cases point with
    | loadTop =>
      cases moved
      exact ⟨whole, whole.top, rfl⟩
    | test oldTop answer =>
      simp only [lfStackPop] at moved
      simp only [Knows] at knows
      split at moved <;> rename_i null <;> cases moved
      · rw [if_pos null] at knows
        exact ⟨whole, ⟨rfl, knows⟩, rfl⟩
      · rw [if_neg null] at knows
        exact ⟨whole, knows, rfl⟩
    | loadNext oldTop =>
      obtain ⟨topNext, link, same⟩ := Option.map_eq_some_iff.mp moved
      cases same
      exact ⟨whole, ⟨knows, link⟩, rfl⟩
    | swapTop oldTop topNext =>
      simp only [lfStackPop] at moved
      split at moved <;> cases moved
      · rename_i same
        subst same
        obtain ⟨whole', value, answer, carried⟩ := whole.pop knows.2
        exact ⟨whole', ⟨knows.1, value, answer, carried⟩, rfl⟩
      · exact ⟨whole, trivial, rfl⟩
    | loadSize oldTop answer =>
      cases moved
      exact ⟨whole, knows, rfl⟩
    | storeSize oldTop seen answer =>
      cases moved
      exact ⟨whole, knows, rfl⟩
    | loadValue oldTop answer =>
      obtain ⟨value, found, same⟩ := Option.map_eq_some_iff.mp moved
      cases same
      obtain ⟨-, value', answer', carried⟩ := knows
      refine ⟨whole, ?_, rfl⟩
      change answer = some value
      rw [answer', ← carried, found]

theorem thread_moves [DecidableEq Thread] {owner : Address → Option Thread}
    (whole : Whole owner stack) (knows : Knows owner self stack own)
    (moved : thread stack own action = some (stack', own')) :
    ∃ owner' : Address → Option Thread, Whole owner' stack' ∧ Knows owner' self stack' own' ∧
      ∀ other theirs, other ≠ self → Knows owner other stack theirs →
        Knows owner' other stack' theirs := by
  have same : ∀ other theirs, other ≠ self → Knows owner other stack theirs →
      Knows owner other stack theirs := fun _ _ _ known => known
  cases own with
  | idle =>
    cases action with
    | call call =>
      cases moved
      exact ⟨owner, whole, by cases call <;> trivial, same⟩
    | malloc node garbage => cases moved
    | go => cases moved
  | push point =>
    obtain ⟨owner', whole', mine, spares⟩ := push_moves whole knows moved
    exact ⟨owner', whole', mine, fun _ _ apart known => spares.knows apart known⟩
  | pop point =>
    obtain ⟨whole', mine, heap⟩ := pop_moves whole knows moved
    have spares : Spares self owner stack owner stack' := by
      intro node _ _
      rw [heap]
      exact ⟨rfl, rfl, rfl⟩
    exact ⟨owner, whole', mine, fun _ _ apart known => spares.knows apart known⟩
  | size =>
    cases action with
    | call call => cases moved
    | malloc node garbage => cases moved
    | go =>
      cases moved
      exact ⟨owner, whole, trivial, same⟩
  | returned outcome =>
    cases action with
    | call call => cases moved
    | malloc node garbage => cases moved
    | go =>
      cases moved
      exact ⟨owner, whole, trivial, same⟩

theorem start_outline (heap : Heap Node) :
    Outline Whole Knows (start (lfStackInit heap) : State Thread LfStack Local) := by
  refine ⟨fun _ => none, ⟨[], rfl, List.nodup_nil, rfl, ?_⟩, fun _ => trivial⟩
  exact fun node member => absurd member List.not_mem_nil

/-- In every state that threads using the stack can reach, the list from `top`
is the abstract stack and every pop has answered as it did. -/
theorem linearizable [DecidableEq Thread] (heap : Heap Node)
    {state : State Thread LfStack Local}
    (reachable : Reachable threads (start (lfStackInit heap)) state) : Linear state := by
  have outline : Outline Whole Knows state := by
    refine reachable.invariant (start_outline heap) ?_
    intro state event after outline stepped
    exact outline.step (fun _ _ whole knows moved => thread_moves whole knows moved) stepped
  obtain ⟨owner, ⟨nodes, list, nodup, values, -⟩, knows⟩ := outline
  refine ⟨⟨nodes, list, nodup, values⟩, ?_, Lifo.conserved _⟩
  intro self outcome returned
  have known := knows self
  rw [returned] at known
  exact known

/-- A pop whose first exchange fails because of the push of 8 returns the 8. -/
theorem linearizable_retry :
    ∃ state : State (Fin 2) LfStack Local,
      state.locals 1 = .returned (.popped 8 (some 8)) ∧ state.shared.contents = [7] ∧
        Linear state := by
  refine ⟨_, ?_, ?_, linearizable Heap.empty (reachable_get
    [(0, .call (.push 7)), (0, .malloc 1 ⟨5, 5⟩), (0, .go), (0, .go), (0, .go), (0, .go),
      (1, .call .pop), (1, .go), (1, .go), (1, .go), (0, .go), (0, .go), (0, .go),
      (0, .call (.push 8)), (0, .malloc 2 ⟨5, 5⟩), (0, .go), (0, .go), (0, .go), (0, .go),
      (1, .go), (1, .go), (1, .go), (1, .go), (1, .go), (1, .go), (1, .go), (1, .go)] rfl)⟩
  · rfl
  · rfl

end CssLab.LockFree.Stack
