import CssLab.Lib.Counter
import CssLab.Lib.Mutex
import CssLab.Locked.Stack

namespace CssLab.Locked.Stack

open Chain Transition Interleaving LockFree

variable {Thread : Type*} {owner : Address → Option Thread} {self : Thread}
  {stack stack' : ConcurStack}

/-- The list from `top` ends, carries the abstract stack and is as long as `size` says. -/
def Represents (stack : ConcurStack) : Prop :=
  ∃ nodes, Segment stack.heap.next stack.top nodes 0 ∧
    nodes.map stack.heap.value = stack.contents.map some ∧ stack.size.toInt = nodes.length

/-- A pop returns the abstract top, or -1 from its first `return` exactly when there is
none. -/
def Outcome.Correct : Outcome → Prop
  | .pushed => True
  | .empty value answer => value = -1 ∧ answer = none
  | .popped value answer => answer = some value

structure Linear (state : State Thread ConcurStack Local) : Prop where
  represents : state.shared.mu = false → Represents state.shared
  correct : ∀ self outcome, state.locals self = .returned outcome → outcome.Correct
  faultless : ∀ self, (state.locals self).waits = false →
    (thread state.shared (state.locals self) .go).isSome

/-- So many values that an `int` cannot count them. -/
def Crowded (state : State Thread ConcurStack Local) : Prop :=
  2 ^ 31 ≤ state.shared.contents.length

/-- The list from `top` carries the abstract stack, and none of its nodes is a thread's. -/
def Carries (owner : Address → Option Thread) (stack : ConcurStack) : Prop :=
  ∃ nodes, Segment stack.heap.next stack.top nodes 0 ∧
    nodes.map stack.heap.value = stack.contents.map some ∧ ∀ node ∈ nodes, owner node = none

/-- This number is the size of the abstract stack. -/
def Counts (stack : ConcurStack) (size : BitVec 32) : Prop :=
  size = BitVec.ofNat 32 stack.contents.length

/-- An allocated node that is the thread's own. -/
def Owns (owner : Address → Option Thread) (self : Thread) (stack : ConcurStack)
    (p : Address) : Prop :=
  owner p = some self ∧ ∃ value, stack.heap.value p = some value

def Whole (owner : Address → Option Thread) (stack : ConcurStack) : Prop :=
  Carries owner stack ∧ Counts stack stack.size

/-- What a thread knows of its node and of its result. -/
def Outside (owner : Address → Option Thread) (self : Thread) (stack : ConcurStack) :
    Local → Prop
  | .push (.setValue _ p) => Owns owner self stack p
  | .push (.lock value p) => owner p = some self ∧ stack.heap.value p = some value
  | .returned outcome => outcome.Correct
  | _ => True

/-- How far the holder of the mutex has come. -/
def Progress (owner : Address → Option Thread) (self : Thread) (stack : ConcurStack) :
    Local → Prop
  | .push (.loadTop value p) =>
    owner p = some self ∧ stack.heap.value p = some value ∧ Counts stack stack.size
  | .push (.storeNext value p top) =>
    owner p = some self ∧ stack.heap.value p = some value ∧ Counts stack stack.size ∧
      top = stack.top
  | .push (.storeTop value p) =>
    owner p = some self ∧ stack.heap.value p = some value ∧ Counts stack stack.size ∧
      stack.heap.next p = some stack.top
  | .push .loadSize => Counts stack (stack.size + 1)
  | .push (.storeSize seen) => Counts stack (seen + 1)
  | .pop (.test size) => Counts stack stack.size ∧ size = stack.size
  | .pop (.unlockEmpty answer) => Counts stack stack.size ∧ answer = none
  | .pop .loadTop => Counts stack stack.size ∧ stack.contents ≠ []
  | .pop (.loadValue p) => Counts stack stack.size ∧ stack.contents ≠ [] ∧ p = stack.top
  | .pop (.loadNext p value) =>
    Counts stack stack.size ∧ stack.contents.head? = some value ∧ p = stack.top
  | .pop (.storeTop p value next) =>
    Counts stack stack.size ∧ stack.contents.head? = some value ∧ p = stack.top ∧
      stack.heap.next p = some next
  | .pop (.loadSize p value answer) =>
    Counts stack (stack.size - 1) ∧ Owns owner self stack p ∧ answer = some value
  | .pop (.storeSize p value seen answer) =>
    Counts stack (seen - 1) ∧ Owns owner self stack p ∧ answer = some value
  | .pop (.free p value answer) =>
    Counts stack stack.size ∧ Owns owner self stack p ∧ answer = some value
  | .pop (.unlock value answer) => Counts stack stack.size ∧ answer = some value
  | _ => Counts stack stack.size

def guard : Guard Thread ConcurStack Local (Address → Option Thread) where
  held := ConcurStack.mu
  inside := Local.inside
  resource := Whole
  holding owner self stack own := Carries owner stack ∧ Progress owner self stack own
  outside := Outside

/-- A step changes no node but its own thread's, and gives away no other one. -/
def Spares (self : Thread) (owner : Address → Option Thread) (stack : ConcurStack)
    (owner' : Address → Option Thread) (stack' : ConcurStack) : Prop :=
  ∀ node value, stack.heap.value node = some value → owner node ≠ some self →
    owner' node = owner node ∧ stack'.heap.next node = stack.heap.next node ∧
      stack'.heap.value node = some value

theorem Spares.refl (self : Thread) (owner : Address → Option Thread) (stack : ConcurStack) :
    Spares self owner stack owner stack := fun _ _ found _ => ⟨rfl, rfl, found⟩

theorem Spares.store {heap : Ledger Node} (mine : owner p = some self)
    (same : ∀ node, node ≠ p →
      heap.next node = stack.heap.next node ∧ heap.value node = stack.heap.value node) :
    Spares self owner stack owner { stack with heap } := by
  intro node value found notMine
  have apart : node ≠ p := by
    rintro rfl
    exact notMine mine
  exact ⟨rfl, (same node apart).1, (same node apart).2.trans found⟩

theorem Spares.yields (spares : Spares self owner stack owner' stack') :
    guard.Yields self owner stack owner' stack' := by
  intro other theirs apart known
  have notMine : some other ≠ some self := fun same => apart (Option.some.inj same)
  cases theirs with
  | idle => trivial
  | pop point => trivial
  | returned outcome => exact known
  | push point =>
    cases point with
    | setValue value p =>
      obtain ⟨owned, word, found⟩ := known
      obtain ⟨owned', -, found'⟩ := spares p word found (owned ▸ notMine)
      exact ⟨owned'.trans owned, word, found'⟩
    | lock value p =>
      obtain ⟨owned, found⟩ := known
      obtain ⟨owned', -, found'⟩ := spares p value found (owned ▸ notMine)
      exact ⟨owned'.trans owned, found'⟩
    | _ => trivial

theorem Carries.nodup (carries : Carries owner stack) :
    ∃ nodes, Segment stack.heap.next stack.top nodes 0 ∧ nodes.Nodup ∧
      nodes.map stack.heap.value = stack.contents.map some ∧ ∀ node ∈ nodes, owner node = none := by
  obtain ⟨nodes, list, values, published⟩ := carries
  exact ⟨nodes, list, list.nodup (Heap.next_null _), values, published⟩

theorem value_of_mem {nodes : List Address} {values : List (BitVec 32)} (member : node ∈ nodes)
    (carried : nodes.map stack.heap.value = values.map some) :
    ∃ value, stack.heap.value node = some value := by
  have listed : stack.heap.value node ∈ values.map some := by
    rw [← carried]
    exact List.mem_map_of_mem member
  obtain ⟨value, -, same⟩ := List.mem_map.mp listed
  exact ⟨value, same.symm⟩

theorem Carries.spared (carries : Carries owner stack)
    (spares : Spares self owner stack owner' stack') (top : stack'.top = stack.top)
    (contents : stack'.contents = stack.contents) : Carries owner' stack' := by
  obtain ⟨nodes, list, values, published⟩ := carries
  have spared : ∀ node ∈ nodes, owner' node = owner node ∧
      stack'.heap.next node = stack.heap.next node ∧
      stack'.heap.value node = stack.heap.value node := by
    intro node member
    obtain ⟨value, found⟩ := value_of_mem member values
    have notMine : owner node ≠ some self := by
      rw [published node member]
      nofun
    obtain ⟨owned, link, kept⟩ := spares node value found notMine
    exact ⟨owned, link, kept.trans found.symm⟩
  refine ⟨nodes, ?_, ?_, fun node member => (spared node member).1.trans (published node member)⟩
  · rw [top]
    exact list.frame fun node member => (spared node member).2.1
  · rw [contents, ← values]
    exact List.map_congr_left fun node member => (spared node member).2.2

/-- Storing the new node in `top` puts it in front of the list. -/
theorem Carries.push (carries : Carries owner stack)
    (found : stack.heap.value p = some value) (link : stack.heap.next p = some stack.top) :
    Carries (Function.update owner p none)
      { stack with top := p, commits := stack.commits ++ [.push value] } := by
  obtain ⟨nodes, list, values, published⟩ := carries
  refine ⟨p :: nodes, ⟨rfl, _, link, list⟩, ?_, ?_⟩
  · simpa [ConcurStack.contents, found] using values
  · intro node member
    by_cases same : node = p
    · rw [same, Function.update_self]
    · rw [Function.update_of_ne same]
      exact published node ((List.mem_cons.mp member).resolve_left same)

/-- Storing the next node in `top` takes the first one out of the list. -/
theorem Carries.pop (self : Thread) (carries : Carries owner stack)
    (link : stack.heap.next stack.top = some next) :
    Carries (Function.update owner stack.top (some self))
        { stack with top := next, commits := stack.commits ++ [.pop] } ∧
      owner stack.top = none := by
  obtain ⟨nodes, list, nodup, values, published⟩ := carries.nodup
  cases nodes with
  | nil =>
    have null : stack.top = 0 := list
    rw [null, Heap.next_null] at link
    cases link
  | cons node rest =>
    obtain ⟨rfl, after, link', tail⟩ := list
    obtain rfl := Option.some.inj (link'.symm.trans link)
    obtain ⟨absent, -⟩ := List.nodup_cons.mp nodup
    refine ⟨⟨rest, tail, ?_, ?_⟩, published _ List.mem_cons_self⟩
    · have below := congrArg List.tail values
      rw [List.map_cons, List.tail_cons, ← List.map_tail] at below
      simpa [ConcurStack.contents] using below
    · intro node member
      have apart : node ≠ stack.top := by
        rintro rfl
        exact absent member
      rw [Function.update_of_ne apart]
      exact published node (List.mem_cons_of_mem _ member)

/-- With anything on the abstract stack, `top` is a node, and its value is on top. -/
theorem Carries.top (carries : Carries owner stack) (nonempty : stack.contents ≠ []) :
    ∃ value next, stack.heap.value stack.top = some value ∧
      stack.heap.next stack.top = some next ∧ stack.contents.head? = some value ∧
      owner stack.top = none := by
  obtain ⟨nodes, list, values, published⟩ := carries
  cases nodes with
  | nil => exact absurd (List.map_eq_nil_iff.mp values.symm) nonempty
  | cons node rest =>
    obtain ⟨rfl, next, link, -⟩ := list
    cases found : stack.contents with
    | nil => exact absurd found nonempty
    | cons value below =>
      rw [found] at values
      exact ⟨value, next, (List.cons.inj values).1, link, rfl, published _ List.mem_cons_self⟩

theorem lock_eq_some (moved : lock stack own = some (stack', own')) :
    stack.mu = false ∧ stack' = { stack with mu := true } ∧ own' = own := by
  unfold lock at moved
  split at moved <;> cases moved
  rename_i free
  exact ⟨by simpa using free, rfl, rfl⟩

theorem Spares.of_heap (heap : stack'.heap = stack.heap) :
    Spares self owner stack owner stack' := by
  intro node value found _
  rw [heap]
  exact ⟨rfl, rfl, found⟩

theorem within_of_heap {own own' : Local} (before : own.inside = true) (after : own'.inside = true)
    (held : stack'.mu = stack.mu) (heap : stack'.heap = stack.heap)
    (carries : Carries owner stack') (progress : Progress owner self stack' own') :
    guard.Moves self owner stack own stack' own' :=
  .within owner before after held ⟨carries, progress⟩ (Spares.of_heap heap).yields

theorem unlock_moves {own own' : Local} (before : own.inside = true)
    (after : own'.inside = false) (whole : Whole owner stack)
    (mine : Outside owner self { stack with mu := false } own') :
    guard.Moves self owner stack own { stack with mu := false } own' :=
  .unlock owner before after rfl whole mine (Spares.of_heap rfl).yields

theorem lock_moves {own next own' : Local} (before : own.inside = false)
    (after : next.inside = true) (moved : lock stack next = some (stack', own'))
    (progress : Counts stack stack.size →
      Progress owner self { stack with mu := true } next) :
    guard.Moves self owner stack own stack' own' := by
  obtain ⟨free, rfl, rfl⟩ := lock_eq_some moved
  exact .lock before after free rfl fun whole =>
    ⟨owner, ⟨whole.1, progress whole.2⟩, (Spares.of_heap rfl).yields⟩

theorem away_moves {own own' : Local} {heap : Ledger Node} (before : own.inside = false)
    (after : own'.inside = false) (mine : Outside owner' self { stack with heap } own')
    (spares : Spares self owner stack owner' { stack with heap }) :
    guard.Moves self owner stack own { stack with heap } own' := by
  refine .away owner' before after rfl mine
    (fun whole => ⟨whole.1.spared spares rfl rfl, whole.2⟩) ?_ spares.yields
  rintro other theirs apart ⟨carries, progress⟩
  have notMine : some other ≠ some self := fun same => apart (Option.some.inj same)
  have owned {p} (owns : Owns owner other stack p) : Owns owner' other { stack with heap } p := by
    obtain ⟨held, value, found⟩ := owns
    obtain ⟨held', -, found'⟩ := spares p value found (held ▸ notMine)
    exact ⟨held'.trans held, value, found'⟩
  have atTop (nonempty : stack.contents ≠ []) {p : Address} (isTop : p = stack.top) :
      heap.next p = stack.heap.next p := by
    obtain ⟨value, next, found, -, -, published⟩ := carries.top nonempty
    have notMine : owner stack.top ≠ some self := by
      rw [published]
      nofun
    rw [isTop]
    exact (spares stack.top value found notMine).2.1
  refine ⟨carries.spared spares rfl rfl, ?_⟩
  cases theirs with
  | idle => exact progress
  | returned outcome => exact progress
  | push point =>
    cases point with
    | loadTop value p =>
      obtain ⟨held, found, counts⟩ := progress
      obtain ⟨held', -, found'⟩ := spares p value found (held ▸ notMine)
      exact ⟨held'.trans held, found', counts⟩
    | storeNext value p top =>
      obtain ⟨held, found, counts, isTop⟩ := progress
      obtain ⟨held', -, found'⟩ := spares p value found (held ▸ notMine)
      exact ⟨held'.trans held, found', counts, isTop⟩
    | storeTop value p =>
      obtain ⟨held, found, counts, link⟩ := progress
      obtain ⟨held', same, found'⟩ := spares p value found (held ▸ notMine)
      exact ⟨held'.trans held, found', counts, same.trans link⟩
    | _ => exact progress
  | pop point =>
    cases point with
    | storeTop p value next =>
      obtain ⟨counts, first, isTop, link⟩ := progress
      have nonempty : stack.contents ≠ [] := by
        rintro empty
        rw [empty] at first
        cases first
      exact ⟨counts, first, isTop, (atTop nonempty isTop).trans link⟩
    | loadSize p value answer => exact ⟨progress.1, owned progress.2.1, progress.2.2⟩
    | storeSize p value seen answer => exact ⟨progress.1, owned progress.2.1, progress.2.2⟩
    | free p value answer => exact ⟨progress.1, owned progress.2.1, progress.2.2⟩
    | _ => exact progress

theorem counts_push {value : BitVec 32} {top : Address} (counts : Counts stack size) :
    Counts { stack with top, commits := stack.commits ++ [.push value] } (size + 1) := by
  rw [Counts, counts]
  simp [ConcurStack.contents, BitVec.ofNat_add]

theorem counts_pop {top : Address} (counts : Counts stack size) (nonempty : stack.contents ≠ []) :
    Counts { stack with top, commits := stack.commits ++ [.pop] } (size - 1) := by
  have longer : stack.contents.length = stack.contents.tail.length + 1 := by
    rw [List.length_tail]
    have := List.length_pos_iff.mpr nonempty
    omega
  rw [Counts, counts, longer, BitVec.ofNat_add]
  simp [ConcurStack.contents]

theorem push_moves {point : Push}
    (holding : Local.inside (.push point) = true →
      Carries owner stack ∧ Progress owner self stack (.push point))
    (outside : Local.inside (.push point) = false → Outside owner self stack (.push point))
    (moved : concurStackPush stack point action = some (stack', own')) :
    guard.Moves self owner stack (.push point) stack' own' := by
  cases action with
  | call call => cases point <;> cases moved
  | malloc p garbage =>
    cases point with
    | malloc value =>
      obtain ⟨heap, done, same⟩ := Option.map_eq_some_iff.mp moved
      cases same
      obtain ⟨-, allocated, -⟩ := Ledger.malloc_eq_some done
      obtain ⟨unused, links, values⟩ := Heap.malloc_node allocated
      have spares : Spares self owner stack (Function.update owner p (some self))
          { stack with heap } := by
        intro node word found _
        have absent : stack.heap.value p = none :=
          Heap.field_eq_none.mpr (Heap.field_eq_none.mp unused)
        have apart : node ≠ p := by
          rintro rfl
          rw [absent] at found
          cases found
        simp [links, values, apart, found]
      exact away_moves rfl rfl ⟨Function.update_self .., garbage.value, by simp [values]⟩ spares
    | _ => cases moved
  | go =>
    cases point with
    | malloc value => cases moved
    | setValue value p =>
      obtain ⟨heap, done, same⟩ := Option.map_eq_some_iff.mp moved
      cases same
      have mine := (outside rfl).1
      obtain ⟨links, values⟩ := Heap.setValue_eq_some (Ledger.modify_eq_some done).1
      refine away_moves rfl rfl ⟨mine, by simp [values]⟩ (.store mine fun node apart => ?_)
      simp [links, values, apart]
    | lock value p =>
      have known := outside rfl
      exact lock_moves rfl rfl moved fun counts => ⟨known.1, known.2, counts⟩
    | loadTop value p =>
      cases moved
      obtain ⟨carries, mine, found, counts⟩ := holding rfl
      exact within_of_heap rfl rfl rfl rfl carries ⟨mine, found, counts, rfl⟩
    | storeNext value p top =>
      obtain ⟨heap, done, same⟩ := Option.map_eq_some_iff.mp moved
      cases same
      obtain ⟨carries, mine, found, counts, rfl⟩ := holding rfl
      obtain ⟨links, values⟩ := Heap.setNext_eq_some (Ledger.modify_eq_some done).1
      have spares : Spares self owner stack owner { stack with heap } :=
        .store mine fun node apart => by simp [links, values, apart]
      refine .within owner rfl rfl rfl ⟨carries.spared spares rfl rfl, mine, ?_, counts, ?_⟩
        spares.yields
      · simpa [values] using found
      · simp [links]
    | storeTop value p =>
      cases moved
      obtain ⟨carries, mine, found, counts, link⟩ := holding rfl
      refine .within _ rfl rfl rfl ⟨carries.push found link, counts_push counts⟩
        (Spares.yields ?_)
      intro node word there notMine
      have apart : node ≠ p := by
        rintro rfl
        exact notMine mine
      exact ⟨Function.update_of_ne apart .., rfl, there⟩
    | loadSize =>
      cases moved
      obtain ⟨carries, counts⟩ := holding rfl
      exact within_of_heap rfl rfl rfl rfl carries counts
    | storeSize seen =>
      cases moved
      obtain ⟨carries, counts⟩ := holding rfl
      exact within_of_heap rfl rfl rfl rfl carries counts
    | unlock =>
      cases moved
      exact unlock_moves rfl rfl (holding rfl) trivial

/-- A step of `concur_stack_pop`. What `size` says decides whether the stack is empty,
since an `int` can count its values. -/
theorem pop_moves {point : Pop} (few : stack.contents.length < 2 ^ 31)
    (holding : Local.inside (.pop point) = true →
      Carries owner stack ∧ Progress owner self stack (.pop point))
    (moved : concurStackPop stack point action = some (stack', own')) :
    guard.Moves self owner stack (.pop point) stack' own' := by
  cases action with
  | call call => cases point <;> cases moved
  | malloc p garbage => cases point <;> cases moved
  | go =>
    cases point with
    | lock => exact lock_moves rfl rfl moved id
    | readSize =>
      cases moved
      obtain ⟨carries, counts⟩ := holding rfl
      exact within_of_heap rfl rfl rfl rfl carries ⟨counts, rfl⟩
    | test size =>
      obtain ⟨carries, counts, rfl⟩ := holding rfl
      have zero : stack.size = 0 ↔ stack.contents = [] := by
        rw [counts, ← BitVec.toNat_inj, BitVec.toNat_ofNat, ← List.length_eq_zero_iff]
        change stack.contents.length % 2 ^ 32 = 0 ↔ _
        omega
      simp only [concurStackPop] at moved
      split at moved <;> rename_i test <;> cases moved
      · have empty := zero.mp test
        have same : ConcurStack.contents { stack with commits := stack.commits ++ [.pop] } =
            stack.contents := by
          have empty' : Lifo.replay stack.commits = [] := empty
          simp [ConcurStack.contents, empty']
        refine within_of_heap rfl rfl rfl rfl ?_ ⟨?_, by rw [empty]; rfl⟩
        · exact carries.spared (Spares.of_heap rfl : Spares self owner stack owner _) rfl same
        · rw [Counts, same]
          exact counts
      · exact within_of_heap rfl rfl rfl rfl carries ⟨counts, fun empty => test (zero.mpr empty)⟩
    | unlockEmpty answer =>
      cases moved
      obtain ⟨carries, counts, none⟩ := holding rfl
      exact unlock_moves rfl rfl ⟨carries, counts⟩ ⟨rfl, none⟩
    | loadTop =>
      cases moved
      obtain ⟨carries, counts, nonempty⟩ := holding rfl
      exact within_of_heap rfl rfl rfl rfl carries ⟨counts, nonempty, rfl⟩
    | loadValue p =>
      obtain ⟨value, found, same⟩ := Option.map_eq_some_iff.mp moved
      cases same
      obtain ⟨carries, counts, nonempty, rfl⟩ := holding rfl
      obtain ⟨first, next, found', -, head, -⟩ := carries.top nonempty
      obtain rfl := Option.some.inj (found'.symm.trans found)
      exact within_of_heap rfl rfl rfl rfl carries ⟨counts, head, rfl⟩
    | loadNext p value =>
      obtain ⟨next, link, same⟩ := Option.map_eq_some_iff.mp moved
      cases same
      obtain ⟨carries, counts, head, isTop⟩ := holding rfl
      exact within_of_heap rfl rfl rfl rfl carries ⟨counts, head, isTop, link⟩
    | storeTop p value next =>
      cases moved
      obtain ⟨carries, counts, head, rfl, link⟩ := holding rfl
      have nonempty : stack.contents ≠ [] := by
        intro empty
        rw [empty] at head
        cases head
      obtain ⟨first, -, found, -⟩ := carries.top nonempty
      obtain ⟨carries', published⟩ := carries.pop self link
      refine .within _ rfl rfl rfl ⟨carries', counts_pop counts nonempty,
        ⟨Function.update_self .., first, found⟩, head⟩ ?_
      -- nobody owned the node that is taken
      intro other theirs apart known
      cases theirs with
      | idle => trivial
      | pop point => trivial
      | returned outcome => exact known
      | push point =>
        have stays {q : Address} (owned : owner q = some other) :
            Function.update owner stack.top (some self) q = some other := by
          have apart : q ≠ stack.top := by
            rintro rfl
            rw [published] at owned
            cases owned
          rwa [Function.update_of_ne apart]
        cases point with
        | setValue word q => exact ⟨stays known.1, known.2⟩
        | lock word q => exact ⟨stays known.1, known.2⟩
        | _ => trivial
    | loadSize p value answer =>
      cases moved
      obtain ⟨carries, counts, owns, isAnswer⟩ := holding rfl
      exact within_of_heap rfl rfl rfl rfl carries ⟨counts, owns, isAnswer⟩
    | storeSize p value seen answer =>
      cases moved
      obtain ⟨carries, counts, owns, isAnswer⟩ := holding rfl
      exact within_of_heap rfl rfl rfl rfl carries ⟨counts, owns, isAnswer⟩
    | free p value answer =>
      obtain ⟨heap, done, same⟩ := Option.map_eq_some_iff.mp moved
      cases same
      obtain ⟨carries, counts, ⟨mine, -⟩, isAnswer⟩ := holding rfl
      obtain ⟨released, -⟩ := Ledger.free_eq_some done
      have spares : Spares self owner stack owner { stack with heap } :=
        .store mine fun node apart => by
          simp [Heap.free_eq_some released, apart]
      exact .within owner rfl rfl rfl ⟨carries.spared spares rfl rfl, counts, isAnswer⟩
        spares.yields
    | unlock value answer =>
      cases moved
      obtain ⟨carries, counts, isAnswer⟩ := holding rfl
      exact unlock_moves rfl rfl ⟨carries, counts⟩ isAnswer

theorem thread_moves (few : stack.contents.length < 2 ^ 31)
    (holding : own.inside = true → Carries owner stack ∧ Progress owner self stack own)
    (outside : own.inside = false → Outside owner self stack own)
    (moved : thread stack own action = some (stack', own')) :
    guard.Moves self owner stack own stack' own' := by
  have stays (before : own.inside = false) (after : own'.inside = false)
      (known : Outside owner self stack own') : guard.Moves self owner stack own stack own' :=
    away_moves before after known (Spares.of_heap rfl)
  cases own with
  | idle =>
    cases action with
    | call call =>
      cases moved
      cases call with
      | push value => exact stays rfl rfl trivial
      | pop => exact stays rfl rfl trivial
    | malloc p garbage => cases moved
    | go => cases moved
  | push point => exact push_moves holding outside moved
  | pop point => exact pop_moves few holding moved
  | returned outcome =>
    cases action with
    | call call => cases moved
    | malloc p garbage => cases moved
    | go =>
      cases moved
      exact stays rfl rfl trivial

theorem enabled (active : own.waits = false)
    (holding : own.inside = true → Carries owner stack ∧ Progress owner self stack own)
    (outside : own.inside = false → Outside owner self stack own) :
    (thread stack own .go).isSome := by
  have stores {p : Address} {value : BitVec 32} (found : stack.heap.value p = some value)
      (change : Node → Node) : (stack.heap.modify p change).isSome :=
    Option.isSome_iff_exists.mpr (Ledger.modify_cell found change)
  cases own with
  | idle => cases active
  | returned outcome => rfl
  | push point =>
    cases point with
    | malloc value => cases active
    | setValue value p =>
      obtain ⟨-, word, found⟩ := outside rfl
      exact (Option.isSome_map ..).trans (stores found _)
    | lock value p => cases active
    | loadTop value p => rfl
    | storeNext value p top =>
      obtain ⟨-, -, found, -⟩ := holding rfl
      exact (Option.isSome_map ..).trans (stores found _)
    | storeTop value p => rfl
    | loadSize => rfl
    | storeSize seen => rfl
    | unlock => rfl
  | pop point =>
    cases point with
    | lock => cases active
    | readSize => rfl
    | test size =>
      simp only [thread, concurStackPop]
      split <;> rfl
    | unlockEmpty answer => rfl
    | loadTop => rfl
    | loadValue p =>
      obtain ⟨carries, -, nonempty, rfl⟩ := holding rfl
      obtain ⟨value, -, found, -⟩ := carries.top nonempty
      simp [thread, concurStackPop, found]
    | loadNext p value =>
      obtain ⟨carries, -, head, rfl⟩ := holding rfl
      have nonempty : stack.contents ≠ [] := by
        intro empty
        rw [empty] at head
        cases head
      obtain ⟨-, next, -, link, -⟩ := carries.top nonempty
      simp [thread, concurStackPop, link]
    | storeTop p value next => rfl
    | loadSize p value answer => rfl
    | storeSize p value seen answer => rfl
    | free p value answer =>
      obtain ⟨-, -, ⟨-, word, found⟩, -⟩ := holding rfl
      obtain ⟨heap, released⟩ := Ledger.free_cell found
      simp [thread, concurStackPop, released]
    | unlock value answer => rfl

theorem start_outline (heap : Ledger Node) :
    Outline guard.invariant guard.asserts
      (start (concurStackInit heap) : State Thread ConcurStack Local) := by
  refine ⟨(none, fun _ => none), ⟨rfl, fun _ => ⟨⟨[], rfl, rfl, ?_⟩, rfl⟩⟩,
    fun self => ⟨?_, trivial⟩⟩
  · exact fun node member => absurd member List.not_mem_nil
  · intro holds
    cases holds

/-- The outline, as long as an `int` can count the values. -/
def Sound (state : State Thread ConcurStack Local) : Prop :=
  Outline guard.invariant guard.asserts state ∧ ¬ Crowded state

theorem start_sound (heap : Ledger Node) :
    Sound (start (concurStackInit heap) : State Thread ConcurStack Local) :=
  ⟨start_outline heap, by simp [Crowded, start, concurStackInit, ConcurStack.contents,
    Lifo.replay]⟩

theorem sound_of_reachable [DecidableEq Thread] {heap : Ledger Node}
    {state : State Thread ConcurStack Local}
    (reachable : ReachableBefore threads Crowded (start (concurStackInit heap)) state) :
    Sound state := by
  refine reachable.invariant (start_sound heap) ?_
  rintro before ⟨who, action⟩ after ⟨outline, few⟩ stepped
  by_cases crowded : Crowded after
  · exact .inr crowded
  · refine .inl ⟨?_, crowded⟩
    exact Guard.keeps_outline outline (fun owner own holding outside moved =>
      thread_moves (Nat.lt_of_not_le few) holding outside moved) stepped

/-- In every state that threads pushing and popping can reach before the stack holds
more values than an `int` can count, the stack is linear. -/
theorem locked_linearizable [DecidableEq Thread] (heap : Ledger Node)
    {state : State Thread ConcurStack Local}
    (reachable : ReachableBefore threads Crowded (start (concurStackInit heap)) state) :
    Linear state := by
  obtain ⟨outline, few⟩ := sound_of_reachable reachable
  refine ⟨fun free => ?_, fun self outcome returned => ?_, fun self active => ?_⟩
  · obtain ⟨owner, ⟨nodes, list, values, -⟩, counts⟩ := Guard.resource_of_outline outline free
    refine ⟨nodes, list, values, ?_⟩
    have lengths := congrArg List.length values
    rw [List.length_map, List.length_map] at lengths
    have few' : state.shared.contents.length < 2 ^ 31 := Nat.lt_of_not_le few
    rw [counts, lengths]
    exact (Counter.toInt_eq_iff _).mpr few'
  · obtain ⟨⟨holder, owner⟩, -, knows⟩ := outline
    have known := knows self
    rw [returned] at known
    exact known.2
  · obtain ⟨⟨holder, owner⟩, -, knows⟩ := outline
    have known := knows self
    exact enabled active (fun here => ((Guard.asserts_inside here).mp known).2)
      fun there => ((Guard.asserts_outside there).mp known).2

instance : DecidablePred (Crowded : State Thread ConcurStack Local → Prop) := fun state =>
  inferInstanceAs (Decidable (2 ^ 31 ≤ state.shared.contents.length))

/-- A pop that waits for the push of 7 returns the 7. -/
theorem locked_linearizable_seven :
    ∃ state : State (Fin 2) ConcurStack Local,
      state.locals 1 = .returned (.popped 7 (some 7)) ∧ state.shared.contents = [] ∧
        Linear state := by
  refine ⟨_, ?_, ?_, locked_linearizable Ledger.empty (reachableBefore_get
    [(0, .call (.push 7)), (0, .malloc 1 ⟨5, 5⟩), (0, .go), (0, .go), (1, .call .pop), (0, .go),
      (0, .go), (0, .go), (0, .go), (0, .go), (0, .go), (1, .go), (1, .go), (1, .go), (1, .go),
      (1, .go), (1, .go), (1, .go), (1, .go), (1, .go), (1, .go), (1, .go)] rfl (by decide))⟩
  · rfl
  · rfl

/-- A stack at rest with so many nodes, the first ones that can be allocated. -/
structure Filled (count : Nat) (stack : ConcurStack) : Prop where
  free : stack.mu = false
  size : stack.size = BitVec.ofNat 32 count
  list : ∃ nodes, Segment stack.heap.next stack.top nodes 0 ∧ nodes.length = count ∧
    ∀ node ∈ nodes, node ≤ count
  unused : ∀ p, count < p → stack.heap.cells p = none ∧ p ∉ stack.heap.freed

/-- One more push, by a thread that has the stack for itself. -/
theorem Filled.push (filled : Filled count stack) (value : BitVec 32) (garbage : Node) :
    ∃ stack', Filled (count + 1) stack' ∧
      follow (fun now => thread now.1 now.2) (stack, .idle)
        (.call (.push value) :: .malloc (count + 1) garbage :: List.replicate 9 .go) =
        some (stack', .idle) := by
  obtain ⟨nodes, list, length, bound⟩ := filled.list
  obtain ⟨unused, fresh⟩ := filled.unused (count + 1) (Nat.lt_succ_self count)
  have notNull : count + 1 ≠ 0 := Nat.succ_ne_zero count
  obtain ⟨heap1, allocated⟩ := Ledger.malloc_fresh notNull unused fresh garbage
  obtain ⟨-, malloc, freed1⟩ := Ledger.malloc_eq_some allocated
  obtain ⟨-, links1, values1⟩ := Heap.malloc_node malloc
  have found1 : heap1.value (count + 1) = some garbage.value := by simp [values1]
  obtain ⟨heap2, stored⟩ :=
    Ledger.modify_cell found1 fun node : Node => { node with value }
  obtain ⟨setValue, freed2⟩ := Ledger.modify_eq_some stored
  obtain ⟨links2, values2⟩ := Heap.setValue_eq_some setValue
  have found2 : heap2.value (count + 1) = some value := by simp [values2]
  obtain ⟨heap3, linked⟩ :=
    Ledger.modify_cell found2 fun node : Node => { node with next := stack.top }
  obtain ⟨setNext, freed3⟩ := Ledger.modify_eq_some linked
  obtain ⟨links3, values3⟩ := Heap.setNext_eq_some setNext
  have links : heap3.next = Function.update stack.heap.next (count + 1) (some stack.top) := by
    rw [links3, links2, links1, Function.update_idem]
  have apart : ∀ node ∈ nodes, node ≠ count + 1 := fun node member =>
    Nat.ne_of_lt (Nat.lt_succ_of_le (bound node member))
  refine ⟨{ stack with
    mu := false
    top := count + 1
    size := stack.size + 1
    heap := heap3
    commits := stack.commits ++ [.push value] }, ⟨rfl, ?_, ?_, ?_⟩, ?_⟩
  · change stack.size + 1 = _
    rw [filled.size, BitVec.ofNat_add]
    rfl
  · refine ⟨(count + 1) :: nodes, ⟨rfl, stack.top, by simp [links], ?_⟩, by simp [length], ?_⟩
    · exact list.frame fun node member => by simp [links, apart node member]
    · intro node member
      rcases List.mem_cons.mp member with rfl | old
      · exact Nat.le_refl _
      · exact Nat.le_succ_of_le (bound node old)
  · intro p beyond
    obtain ⟨absent, never⟩ := filled.unused p (Nat.lt_of_succ_lt beyond)
    have other : p ≠ count + 1 := Nat.ne_of_gt beyond
    have missing : heap3.next p = none := by
      rw [links, Function.update_of_ne other]
      exact Heap.field_eq_none.mpr absent
    exact ⟨Heap.field_eq_none.mp missing, by rw [freed3, freed2, freed1]; exact never⟩
  · refine follow_step rfl ?_
    refine follow_step (congrArg (Option.map _) allocated) ?_
    refine follow_step (congrArg (Option.map _) stored) ?_
    refine follow_step (if_neg (by simp [filled.free])) ?_
    refine follow_step rfl ?_
    refine follow_step (congrArg (Option.map _) linked) ?_
    rfl

theorem reachable_filled (count : Nat) :
    ∃ stack, Filled count stack ∧
      Reachable threads (start (concurStackInit Ledger.empty) : State Unit ConcurStack Local)
        (start stack) := by
  apply reachable_repeat ()
  · refine ⟨rfl, rfl, ⟨[], rfl, rfl, ?_⟩, fun p _ => ⟨rfl, List.not_mem_nil⟩⟩
    exact fun node member => absurd member List.not_mem_nil
  · intro count stack filled
    exact ⟨_, filled.push 0 ⟨0, 0⟩⟩

/-- With 2^31 nodes `size` is negative. -/
theorem size_overflows :
    ¬ ∀ state : State Unit ConcurStack Local,
      Reachable threads (start (concurStackInit Ledger.empty)) state → Linear state := by
  intro always
  obtain ⟨stack, filled, reachable⟩ := reachable_filled (2 ^ 31)
  obtain ⟨nodes, list, -, size⟩ := (always _ reachable).represents filled.free
  obtain ⟨nodes', list', length, -⟩ := filled.list
  have same : nodes' = nodes := list'.unique list (Heap.next_null _)
  have counted : stack.size.toInt = nodes.length := size
  rw [filled.size, ← same, length] at counted
  exact absurd counted (by decide)

end CssLab.Locked.Stack
