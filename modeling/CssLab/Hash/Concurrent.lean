import CssLab.Hash.Guarded
import CssLab.Lib.Counter

namespace CssLab.Hash.Threads

open Chain Transition Interleaving

variable {Thread : Type*}

/-! ### Inserts and lookups -/

/-- A call other than `hash_delete`. -/
def Adds (event : Thread × Action) : Prop := ∀ key, event.2 ≠ .call (.delete key)

/-- Nothing is taken out and nobody is about to. -/
def Growing (state : State Thread Shared Local) : Prop :=
  Undeleted state.shared ∧ ∀ self, (state.locals self).deletes = false

theorem growing_thread {table table' : Shared} {own own' : Local} (undeleted : Undeleted table)
    (adds : ∀ key, action ≠ .call (.delete key)) (idle : own.deletes = false)
    (moved : thread table own action = some (table', own')) :
    Undeleted table' ∧ own'.deletes = false := by
  cases thread_effect moved with
  | link key value newNode before => exact ⟨congrArg (newNode :: ·) undeleted, rfl⟩
  | unlink key prev p after before => cases idle
  | free key p before => cases idle
  | calm calm =>
    refine ⟨?_, ?_⟩
    · rw [Undeleted, calm.linked, calm.inserts]
      exact undeleted
    · by_contra here
      rcases calm.enters (by simpa using here) with already | rfl
      · rw [idle] at already
        cases already
      · cases action with
        | call call =>
          cases moved
          cases call with
          | insert key value => exact here rfl
          | lookup key => exact here rfl
          | delete key => exact adds key rfl
        | _ => cases moved

theorem growing_of_run [DecidableEq Thread] {heap : Heap Node} {state : State Thread Shared Local}
    (only : ∀ event ∈ actions, Adds event)
    (run : follow threads (start heap) actions = some state) : Growing state := by
  have initial : Growing (start heap : State Thread Shared Local) := ⟨rfl, fun _ => rfl⟩
  refine follow_keeps_allowed (fun before event after growing adds stepped => ?_) only initial run
  obtain ⟨own, moved, locals⟩ := step_eq_some stepped
  obtain ⟨undeleted, idle⟩ := growing_thread growing.1 adds (growing.2 event.1) moved
  refine ⟨undeleted, fun self => ?_⟩
  rw [locals]
  by_cases same : self = event.1
  · rw [same, Function.update_self]
    exact idle
  · rw [Function.update_of_ne same]
    exact growing.2 self

/-- By steps of its own alone a lookup comes to its return. -/
def Ends (key : CString) (seen : List Insert) (table : Shared) (own : Local) : Prop :=
  ∃ steps table' found, follow (fun now => thread now.1 now.2) (table, own)
    (List.replicate steps .go) = some (table', .returned (.looked key found seen))

theorem Ends.step {table table' : Shared} {own own' : Local}
    (moved : thread table own .go = some (table', own')) (ends : Ends key seen table' own') :
    Ends key seen table own := by
  obtain ⟨steps, last, found, run⟩ := ends
  exact ⟨steps + 1, last, found, follow_step moved run⟩

section Search

variable {owner : Address → Option Thread} {table : Shared}

theorem test_node (wired : Wired owner pending table) (seen : List Insert)
    (split : chain table (bucket key) = front ++ p :: rest) :
    thread table (.searching key (.test p) seen) .go =
      some (table, .searching key (.compare p) seen) := by
  have inChain : p ∈ chain table (bucket key) := by simp [split]
  obtain ⟨-, cell, allocated⟩ := wired.allocated (Wired.mem_linked inChain)
  simp [thread, hashLookup, Heap.ne_null allocated]

/-- A node with the key ends the loop; another one leads to the next node. -/
theorem ends_of_compare (allocated : table.heap.cells p = some cell) (seen : List Insert)
    (other : cell.key ≠ key → Ends key seen table (.searching key (.test cell.next) seen)) :
    Ends key seen table (.searching key (.compare p) seen) := by
  by_cases hit : cell.key = key
  · refine ⟨3, { table with mu := false }, some cell.value, ?_⟩
    simp [follow, thread, hashLookup, Heap.field, allocated, hit]
  · have compared : thread table (.searching key (.compare p) seen) .go =
        some (table, .searching key (.loadNext p) seen) := by
      simp [thread, hashLookup, Heap.field, allocated, hit]
    have followed : thread table (.searching key (.loadNext p) seen) .go =
        some (table, .searching key (.test cell.next) seen) := by
      simp [thread, hashLookup, Heap.field, allocated]
    exact .step compared (.step followed (other hit))

theorem ends_of_null (table : Shared) (key : CString) (seen : List Insert) :
    Ends key seen table (.searching key (.test 0) seen) :=
  ⟨2, { table with mu := false }, none, rfl⟩

theorem ends_of_split (wired : Wired owner pending table) (seen : List Insert)
    (split : chain table (bucket key) = front ++ p :: rest) :
    Ends key seen table (.searching key (.compare p) seen) := by
  induction rest generalizing front p with
  | nil =>
    have inChain : p ∈ chain table (bucket key) := by simp [split]
    obtain ⟨-, cell, allocated⟩ := wired.allocated (Wired.mem_linked inChain)
    have link : table.heap.field Node.next p = some cell.next := by simp [Heap.field, allocated]
    have null : cell.next = 0 := next_of_split wired split link
    apply ends_of_compare allocated
    intro _
    rw [null]
    exact ends_of_null table key seen
  | cons node rest ih =>
    have inChain : p ∈ chain table (bucket key) := by simp [split]
    obtain ⟨-, cell, allocated⟩ := wired.allocated (Wired.mem_linked inChain)
    have link : table.heap.field Node.next p = some cell.next := by simp [Heap.field, allocated]
    have isNode : cell.next = node := next_of_split wired split link
    have split' : chain table (bucket key) = (front ++ [p]) ++ node :: rest := by simp [split]
    apply ends_of_compare allocated
    intro _
    rw [isNode]
    exact .step (test_node wired seen split') (ih split')

theorem ends_of_reaches (wired : Wired owner pending table) (seen : List Insert)
    (reaches : Reaches table key front p) :
    Ends key seen table (.searching key (.test p) seen) := by
  obtain ⟨rest, split, isHead⟩ := reaches
  cases rest with
  | nil =>
    subst isHead
    exact ends_of_null table key seen
  | cons node rest =>
    have same : p = node := isHead
    subst same
    exact .step (test_node wired seen split) (ends_of_split wired seen split)

theorem searching_ends (wired : Wired owner pending table)
    (progress : point.Progress table key seen) :
    Ends key seen table (.searching key point seen) := by
  cases point with
  | loadBucket =>
    obtain ⟨head, found, -⟩ := wired.chains (bucket key) (bucket_lt key)
    have moved : thread table (.searching key .loadBucket seen) .go =
        some (table, .searching key (.test head) seen) := by
      simp [thread, hashLookup, found]
    exact .step moved (ends_of_reaches wired seen (reaches_head wired found))
  | test p =>
    obtain ⟨-, -, front, reaches, -⟩ := progress
    exact ends_of_reaches wired seen reaches
  | compare p =>
    obtain ⟨-, -, front, ⟨rest, split⟩, -⟩ := progress
    exact ends_of_split wired seen split
  | loadNext p =>
    obtain ⟨-, -, front, stands, -⟩ := progress
    obtain ⟨rest, split⟩ := id stands
    have inChain : p ∈ chain table (bucket key) := by simp [split]
    obtain ⟨-, cell, allocated⟩ := wired.allocated (Wired.mem_linked inChain)
    have link : table.heap.field Node.next p = some cell.next := by simp [Heap.field, allocated]
    have moved : thread table (.searching key (.loadNext p) seen) .go =
        some (table, .searching key (.test cell.next) seen) := by
      simp [thread, hashLookup, link]
    exact .step moved (ends_of_reaches wired seen (stands.next wired link))
  | unlockFound p =>
    obtain ⟨-, -, front, -, -, found⟩ := progress
    obtain ⟨cell, allocated⟩ := Heap.field_eq_some found
    refine ⟨2, { table with mu := false }, some cell.value, ?_⟩
    simp [follow, thread, hashLookup, Heap.field, allocated]
  | unlockMissing => exact ⟨1, { table with mu := false }, none, rfl⟩

end Search

/-- What lookups find: they return the value of the last of the inserts that took the
mutex before them, and with the mutex they do return. -/
structure Refines (state : State Thread Shared Local) : Prop where
  returned : ∀ self key found seen, state.locals self = .returned (.looked key found seen) →
    seen <:+ state.shared.inserts ∧ found = latest seen key
  locks : ∀ self key, state.locals self = .lookupLock key → state.shared.mu = false →
    Ends key state.shared.inserts state.shared (.lookupLock key)
  ends : ∀ self key point seen, state.locals self = .searching key point seen →
    seen = state.shared.inserts ∧ Ends key seen state.shared (.searching key point seen)

/-- Threads that only insert and look up, in any run, see a map of which the last writer
of each key determines the value. -/
theorem lookup_last_writer [DecidableEq Thread] (heap : Heap Node)
    (actions : List (Thread × Action)) (only : ∀ event ∈ actions, Adds event)
    (state : State Thread Shared Local)
    (run : follow threads (start heap) actions = some state) : Refines state := by
  obtain ⟨undeleted, -⟩ := growing_of_run only run
  have outline := outline_of_reachable ⟨actions, run⟩
  obtain ⟨⟨holder, owner⟩, -, knows⟩ := id outline
  refine ⟨?_, ?_, ?_⟩
  · intro self key found seen returned
    have known := knows self
    rw [returned] at known
    obtain ⟨-, -, isSuffix, answer⟩ := known
    exact ⟨isSuffix, answer undeleted⟩
  · intro self key _ free
    obtain ⟨owner, wired, counts⟩ := Guard.resource_of_outline outline free
    have taken : thread state.shared (.lookupLock key) .go =
        some ({ state.shared with mu := true },
          .searching key .loadBucket state.shared.inserts) := by
      simp [thread, lock, free]
    have wired' : Wired owner [] { state.shared with mu := true } :=
      ⟨wired.buckets, wired.chains, wired.entries, wired.nodup, wired.account⟩
    exact .step taken (searching_ends wired' ⟨rfl, counts⟩)
  · intro self key point seen searching
    have known := knows self
    rw [searching] at known
    obtain ⟨-, wired, progress⟩ := known
    have isSeen : seen = state.shared.inserts := by cases point <;> exact progress.1
    exact ⟨isSeen, searching_ends wired progress⟩

/-- The insert of a thread that has the table for itself, up to its return. -/
private def insertion (self : Thread) (key value : CString) (newNode : Address) :
    List (Thread × Action) :=
  (.call (.insert key value) :: .malloc newNode ⟨key, value, 0⟩ :: List.replicate 10 .go).map
    (self, ·)

/-- Of two inserts of one key the lookup finds the second. -/
theorem lookup_last_writer_second :
    ∃ state : State (Fin 2) Shared Local,
      state.locals 1 = .returned (.looked keyA (some keyB) state.shared.inserts) ∧
        Refines state := by
  have run : (follow threads (start Heap.empty : State (Fin 2) Shared Local)
    (insertion 0 keyA keyA 1 ++ [(0, .go)] ++ insertion 0 keyA keyB 2 ++
      ((1, .call (.lookup keyA)) :: List.replicate 6 (1, .go)))).isSome := rfl
  refine ⟨_, ?_, lookup_last_writer Heap.empty _ ?_ _ (Option.some_get run).symm⟩
  · rfl
  · simp [insertion, Adds]

/-! ### The representation -/

/-- The lists that the buckets lead to. -/
def Chained (table : Shared) (chains : Nat → List Address) : Prop :=
  ∀ index < 128, ∃ head, table.buckets[index]? = some head ∧
    Segment (table.heap.field Node.next) head (chains index) 0

/-- All nodes of the buckets' lists. -/
def nodes (chains : Nat → List Address) : List Address := (List.range 128).flatMap chains

/-- What the table is while nobody has the mutex: every bucket leads to a list that ends,
of nodes whose keys belong there and that are in no other place; what was ever inserted is
in a list or was freed; `size` is right as far as an `int` can be. -/
structure Represents (table : Shared) (chains : Nat → List Address) : Prop where
  chained : Chained table chains
  keyed : ∀ index < 128, ∀ node ∈ chains index,
    ∃ key, table.heap.field Node.key node = some key ∧ bucket key = index
  once : (nodes chains).Nodup
  linked : table.linked.Perm (nodes chains)
  inserted : (table.inserts.map Insert.node).Nodup
  conserved : (table.inserts.map Insert.node).Perm (nodes chains ++ table.heap.freed)
  size : (nodes chains).length < 2 ^ 31 → table.size.toInt = (nodes chains).length

theorem represents_of_wired {owner : Address → Option Thread} {table : Shared}
    (wired : Wired owner [] table) (counts : Counts table table.size) :
    Represents table (chain table) where
  chained := wired.chains
  keyed _ _ _ member := wired.key_of_mem member
  once := wired.perm_chains.nodup_iff.mp wired.linked_nodup.of_append_left
  linked := wired.perm_chains
  inserted := wired.nodup
  conserved := wired.account.trans (wired.perm_chains.append_right _)
  size few := by
    have length : (nodes (chain table)).length = table.linked.length :=
      wired.perm_chains.length_eq.symm
    rw [length] at few ⊢
    rw [counts]
    exact (Counter.toInt_eq_iff _).mpr few

/-- Whatever calls threads make in whatever order: the table is in order whenever the
mutex is free, an insert has added one node, and a delete has taken out one node if it
returns 0 and none if it returns 1. -/
theorem table_in_order [DecidableEq Thread] (heap : Heap Node)
    (state : State Thread Shared Local) (reachable : Reachable threads (start heap) state) :
    (state.shared.mu = false → ∃ chains, Represents state.shared chains) ∧
      ∀ self outcome, state.locals self = .returned outcome → outcome.Changes := by
  have outline := outline_of_reachable reachable
  constructor
  · intro free
    obtain ⟨owner, wired, counts⟩ := Guard.resource_of_outline outline free
    exact ⟨_, represents_of_wired wired counts⟩
  · obtain ⟨⟨holder, owner⟩, -, knows⟩ := outline
    intro self outcome returned
    have known := knows self
    rw [returned] at known
    exact known.2.1

private def keyOther : CString := ⟨[225], by decide⟩

/-- "a" and "\xe1" have one bucket, and deleting the second takes out the first. -/
theorem table_in_order_delete :
    ∃ state : State (Fin 2) Shared Local,
      state.locals 1 = .returned (.deleted 0 [1] []) ∧ state.shared.heap.freed = [1] ∧
        ∃ chains, Represents state.shared chains := by
  have run : (follow threads (start Heap.empty : State (Fin 2) Shared Local)
    (insertion 0 keyA keyA 1 ++
      ((1, .call (.delete keyOther)) :: List.replicate 10 (1, .go)))).isSome := rfl
  refine ⟨_, ?_, ?_, (table_in_order Heap.empty _ (reachable_get _ run)).1 ?_⟩
  · rfl
  · rfl
  · rfl

/-- A table at rest with so many nodes, the first ones that can be allocated. -/
structure Filled (count : Nat) (table : Shared) : Prop where
  free : table.mu = false
  buckets : table.buckets.length = 128
  linked : table.linked.length = count
  unused : ∀ p, count < p → table.heap.cells p = none ∧ p ∉ table.heap.freed

/-- One more insert, by a thread that has the table for itself. -/
theorem Filled.insert (filled : Filled count table) (key value : CString) (garbage : Node) :
    ∃ table', Filled (count + 1) table' ∧
      follow (fun now => thread now.1 now.2) (table, .idle)
        (.call (.insert key value) :: .malloc (count + 1) garbage :: List.replicate 11 .go) =
        some (table', .idle) := by
  obtain ⟨unused, fresh⟩ := filled.unused (count + 1) (Nat.lt_succ_self count)
  have notNull : count + 1 ≠ 0 := Nat.succ_ne_zero count
  obtain ⟨heap0, allocated⟩ := Ledger.malloc_fresh notNull unused fresh garbage
  have cells0 := Ledger.malloc_cells allocated
  have freed0 := (Ledger.malloc_eq_some allocated).2.2
  have found0 : heap0.cells (count + 1) = some garbage := by rw [cells0, Function.update_self]
  obtain ⟨heap1, setKey, cells1, freed1⟩ :=
    Ledger.modify_found found0 fun node => { node with key }
  have found1 := (congrFun cells1 (count + 1)).trans (Function.update_self ..)
  obtain ⟨heap2, setValue, cells2, freed2⟩ :=
    Ledger.modify_found found1 fun node => { node with value }
  have found2 := (congrFun cells2 (count + 1)).trans (Function.update_self ..)
  obtain ⟨heap3, clearNext, cells3, freed3⟩ :=
    Ledger.modify_found found2 fun node => { node with next := 0 }
  have found3 := (congrFun cells3 (count + 1)).trans (Function.update_self ..)
  obtain ⟨head, first⟩ : ∃ head, table.buckets[bucket key]? = some head := by
    have inside := bucket_lt key
    exact ⟨_, List.getElem?_eq_getElem (by rw [filled.buckets]; exact inside)⟩
  obtain ⟨heap4, setNext, cells4, freed4⟩ :=
    Ledger.modify_found found3 fun node => { node with next := head }
  refine ⟨{ table with
    mu := false
    buckets := table.buckets.set (bucket key) (count + 1)
    size := table.size + 1
    heap := heap4
    inserts := ⟨count + 1, key, value⟩ :: table.inserts
    linked := (count + 1) :: table.linked },
    ⟨rfl, by simp [filled.buckets], by simp [filled.linked], fun p beyond => ?_⟩, ?_⟩
  · obtain ⟨absent, never⟩ := filled.unused p (Nat.lt_of_succ_lt beyond)
    have other : p ≠ count + 1 := Nat.ne_of_gt beyond
    refine ⟨?_, by rw [freed4, freed3, freed2, freed1, freed0]; exact never⟩
    rw [cells4, cells3, cells2, cells1, cells0]
    simp [other, absent]
  · refine follow_step rfl ?_
    refine follow_step (congrArg (Option.map _) allocated) ?_
    refine follow_step (congrArg (Option.map _) setKey) ?_
    refine follow_step (congrArg (Option.map _) setValue) ?_
    refine follow_step (congrArg (Option.map _) clearNext) ?_
    refine follow_step (if_neg (by simp [filled.free])) ?_
    refine follow_step (congrArg (Option.map _) first) ?_
    refine follow_step (congrArg (Option.map _) setNext) ?_
    rfl

theorem reachable_filled (count : Nat) :
    ∃ table, Filled count table ∧
      Reachable threads (start Heap.empty : State Unit Shared Local) ⟨table, fun _ => .idle⟩ := by
  apply reachable_repeat ()
  · exact ⟨rfl, List.length_replicate, rfl, fun p _ => ⟨rfl, List.not_mem_nil⟩⟩
  · intro count table filled
    exact ⟨_, filled.insert keyA keyA ⟨keyA, keyA, 0⟩⟩

/-- With 2^31 nodes `size` is negative. -/
theorem table_size_overflows :
    ¬ ∀ state : State Unit Shared Local, Reachable threads (start Heap.empty) state →
      state.shared.mu = false → ∃ chains, Chained state.shared chains ∧
        state.shared.size.toInt = (nodes chains).length := by
  intro always
  obtain ⟨table, filled, reachable⟩ := reachable_filled (2 ^ 31)
  obtain ⟨chains, chained, size⟩ := always _ reachable filled.free
  obtain ⟨owner, wired, counts⟩ :=
    Guard.resource_of_outline (outline_of_reachable reachable) filled.free
  have same : nodes chains = nodes (chain table) := by
    refine List.flatMap_congr fun index inside => ?_
    obtain ⟨head, found, list⟩ := chained index (List.mem_range.mp inside)
    obtain ⟨head', found', list'⟩ := wired.chains index (List.mem_range.mp inside)
    obtain rfl := Option.some.inj (found.symm.trans found')
    exact list.unique list' (Heap.field_null _ _)
  have length : (nodes (chain table)).length = 2 ^ 31 :=
    wired.perm_chains.length_eq.symm.trans filled.linked
  have counted : table.size = BitVec.ofNat 32 table.linked.length := counts
  have counted' : table.size.toInt = (nodes chains).length := size
  rw [counted, filled.linked, same, length] at counted'
  exact absurd counted' (by decide)

/-! ### Reads of freed nodes -/

/-- The node of which a lookup reads a field next. -/
def Local.reads : Local → Option Address
  | .searching _ (.compare p) _ | .searching _ (.loadNext p) _ | .loadValue _ p _ => some p
  | _ => none

/-- No lookup is about to read a freed node. -/
def Safe (state : State Thread Shared Local) : Prop :=
  ∀ self, ∀ p ∈ (state.locals self).reads, p ∉ state.shared.heap.freed

/-- This step is no read of a freed node by a lookup. -/
def ReadsLive (state : State Thread Shared Local) (event : Thread × Action) : Prop :=
  ∀ p ∈ (state.locals event.1).reads, p ∉ state.shared.heap.freed

/-- This step does not free a node that a lookup found and has still to read, after it
gave the mutex back. -/
def KeepsFound (state : State Thread Shared Local) (event : Thread × Action) : Prop :=
  ∀ key p before, state.locals event.1 = .deleting key (.free p) before →
    ∀ other key' seen, state.locals other ≠ .loadValue key' p seen

theorem live_of_stands {owner : Address → Option Thread} {table : Shared}
    (wired : Wired owner pending table) (stands : Stands table key front p) :
    p ∉ table.heap.freed := by
  obtain ⟨rest, split⟩ := stands
  have inChain : p ∈ chain table (bucket key) := by simp [split]
  obtain ⟨-, cell, allocated⟩ := wired.allocated (Wired.mem_linked inChain)
  intro freed
  rw [table.heap.gone p freed] at allocated
  cases allocated

theorem live_of_holding {owner : Address → Option Thread} {table : Shared} {own : Local}
    (wired : Wired owner own.pending table) (progress : Progress owner self table own)
    (inside : own.inside = true) : ∀ p ∈ own.reads, p ∉ table.heap.freed := by
  intro p reads
  cases own with
  | searching key point seen =>
    cases point with
    | compare q =>
      cases reads
      obtain ⟨-, -, front, stands, -⟩ := progress
      exact live_of_stands wired stands
    | loadNext q =>
      cases reads
      obtain ⟨-, -, front, stands, -⟩ := progress
      exact live_of_stands wired stands
    | _ => cases reads
  | loadValue => cases inside
  | _ => cases reads

theorem reads_outside {own : Local} (outside : own.inside = false) (reads : p ∈ own.reads) :
    ∃ key seen, own = .loadValue key p seen := by
  cases own with
  | loadValue key q seen =>
    cases reads
    exact ⟨key, seen, rfl⟩
  | searching key point seen => cases outside
  | _ => cases reads

/-- A step that frees no found node leaves none freed before a lookup has read it. -/
theorem safe_step [DecidableEq Thread] {state after : State Thread Shared Local}
    (outline : Outline guard.invariant guard.asserts state)
    (outline' : Outline guard.invariant guard.asserts after) (safe : Safe state)
    (keeps : KeepsFound state event) (stepped : threads state event = some after) :
    Safe after := by
  obtain ⟨own, moved, locals⟩ := step_eq_some stepped
  obtain ⟨⟨holder, owner⟩, -, knows⟩ := outline
  obtain ⟨⟨holder', owner'⟩, -, knows'⟩ := outline'
  intro reader p reads
  cases inside : (after.locals reader).inside with
  | true =>
    obtain ⟨-, wired, progress⟩ := (Guard.asserts_inside inside).mp (knows' reader)
    exact live_of_holding wired progress inside p reads
  | false =>
    obtain ⟨key, seen, found⟩ := reads_outside inside reads
    have effect := thread_effect moved
    by_cases same : reader = event.1
    · subst same
      rw [locals, Function.update_self] at found
      obtain ⟨searching, freed⟩ := effect.found found
      have known := knows event.1
      rw [searching] at known
      obtain ⟨-, wired, -, -, front, stands, -⟩ := known
      rw [freed]
      exact live_of_stands wired stands
    · rw [locals, Function.update_of_ne same] at found
      have before : p ∉ state.shared.heap.freed := safe reader p (by rw [found]; rfl)
      rcases effect.freed with kept | ⟨key', q, nodes, deleting, freed⟩
      · rw [kept]
        exact before
      · rw [freed]
        intro member
        rcases List.mem_cons.mp member with rfl | already
        · exact keeps key' p nodes deleting reader key seen found
        · exact before already

/-- Where a step does free such a node, a read of a freed node comes next. -/
theorem unsafe_step [DecidableEq Thread] {state after : State Thread Shared Local}
    (loses : ¬ KeepsFound state event) (stepped : threads state event = some after) :
    ¬ Safe after := by
  simp only [KeepsFound, not_forall, not_not] at loses
  obtain ⟨key, p, nodes, deleting, reader, key', seen, found⟩ := loses
  obtain ⟨own, moved, locals⟩ := step_eq_some stepped
  have apart : reader ≠ event.1 := by
    intro same
    rw [same, deleting] at found
    cases found
  intro safe
  have live := safe reader p (by
    rw [locals, Function.update_of_ne apart, found]
    rfl)
  rw [deleting] at moved
  cases action : event.2 with
  | go =>
    rw [action] at moved
    obtain ⟨heap, released, same⟩ := Option.map_eq_some_iff.mp moved
    obtain ⟨shared, -⟩ := Prod.mk.inj same
    rw [← shared] at live
    refine live ?_
    change p ∈ heap.freed
    rw [(Ledger.free_eq_some released).2]
    exact List.mem_cons_self
  | _ =>
    rw [action] at moved
    cases moved

/-- In a run no lookup comes to read a freed node exactly when no delete of the run frees
a node that a lookup has found and, since it gave the mutex back, still has to read. -/
theorem lookup_reads_live_iff [DecidableEq Thread] (heap : Heap Node)
    (actions : List (Thread × Action)) :
    (Always threads Safe (start heap) actions ↔
      EachStep threads KeepsFound (start heap) actions) ∧
    (EachStep threads KeepsFound (start heap) actions →
      EachStep threads ReadsLive (start heap) actions) := by
  have initial : Reachable threads (start heap) (start heap : State Thread Shared Local) ∧
      Safe (start heap : State Thread Shared Local) := ⟨⟨[], rfl⟩, fun _ _ => nofun⟩
  have both : Always threads Safe (start heap) actions ↔
      EachStep threads KeepsFound (start heap) actions := by
    refine always_iff_eachStep
      (fun state => Reachable threads (start heap) state ∧ Safe state) ?_ ?_ ?_ initial actions
    · rintro state event after ⟨reachable, safe⟩ keeps stepped
      have reachable' := reachable.follow
        ((by rw [follow, stepped]; rfl : follow threads state [event] = some after))
      exact ⟨reachable', safe_step (outline_of_reachable reachable)
        (outline_of_reachable reachable') safe keeps stepped⟩
    · exact fun state now => now.2
    · exact fun state event after _ loses stepped => unsafe_step loses stepped
  exact ⟨both, fun keeps => (both.mpr keeps).eachStep fun state event safe => safe event.1⟩

instance (state : State Thread Shared Local) (event : Thread × Action) :
    Decidable (ReadsLive state event) :=
  inferInstanceAs
    (Decidable (∀ p ∈ (state.locals event.1).reads, p ∉ state.shared.heap.freed))

/-- Between the mutex and the read of the value of "a" comes a delete of "\xe1". -/
theorem lookup_reads_freed :
    ¬ ∀ actions, EachStep threads ReadsLive (start Heap.empty : State (Fin 2) Shared Local)
      actions := by
  intro always
  have live := always (insertion 0 keyA keyB 1 ++
    ((1, .call (.lookup keyA)) :: List.replicate 5 (1, .go)) ++
    ((0, .go) :: (0, .call (.delete keyOther)) :: List.replicate 7 (0, .go)) ++
    [(1, .stale keyA)])
  exact absurd live (by decide)

end CssLab.Hash.Threads
