import CssLab.Hash.Concurrent
import CssLab.Lib.Callers

namespace CssLab.Hash.Threads

open Chain Transition Interleaving Callers
open Ledger (Roomy)

variable {Thread : Type*} {owner : Address → Option Thread} {self : Thread}
  {table table' : Shared} {own own' : Local}

def Local.isReturned : Local → Bool
  | .returned _ => true
  | _ => false

/-- A loop of calls. -/
abbrev calls (call : Nat → Call) (rounds : Nat) : Shared → Caller Local → Action →
    Option (Shared × Caller Local) :=
  repeats thread Local.isReturned (fun i => enter (call i)) rounds

/-- In `malloc` or `pthread_mutex_lock`. -/
def Local.waits : Local → Bool
  | .malloc _ _ | .insertLock _ _ _ | .lookupLock _ | .deleteLock _ => true
  | _ => false

/-! ### The steps that are left of a call -/

/-- The number of nodes of its bucket from `p` on. -/
def ahead (table : Shared) (key : CString) (p : Address) : Nat :=
  ((chain table (bucket key)).dropWhile (· ≠ p)).length

def Linking.rank : Linking → Nat
  | .loadBucket => 7
  | .storeNext _ => 6
  | .storeBucket => 5
  | .loadSize => 4
  | .storeSize _ => 3
  | .unlock => 2

def Searching.rank (most : Nat) (table : Shared) (key : CString) : Searching → Nat
  | .loadBucket => 3 * most + 6
  | .test p => 3 * ahead table key p + 5
  | .compare p => 3 * ahead table key p + 4
  | .loadNext p => 3 * ahead table key p + 3
  | .unlockFound _ => 3
  | .unlockMissing => 2

def Deleting.rank (most : Nat) (table : Shared) (key : CString) : Deleting → Nat
  | .loadBucket => 3 * most + 11
  | .test _ p => 3 * ahead table key p + 10
  | .compare _ p => 3 * ahead table key p + 9
  | .loadNext _ p => 3 * ahead table key p + 8
  | .loadLink _ _ => 7
  | .storeLink _ _ _ => 6
  | .free _ => 5
  | .loadSize => 4
  | .storeSize _ => 3
  | .unlock => 2
  | .unlockMissing => 2

/-- A bound on the steps that are left of a call where no chain has more than `most` nodes. -/
def Local.rank (most : Nat) (table : Shared) : Local → Nat
  | .idle => 0
  | .malloc _ _ => 12
  | .setKey _ _ _ => 11
  | .setValue _ _ _ => 10
  | .clearNext _ _ _ => 9
  | .insertLock _ _ _ => 8
  | .linking _ _ _ point _ => point.rank
  | .lookupLock _ => 3 * most + 7
  | .searching key point _ => point.rank most table key
  | .loadValue _ _ _ => 2
  | .deleteLock _ => 3 * most + 12
  | .deleting key point _ => point.rank most table key
  | .returned _ => 1

theorem ahead_of_split (wired : Wired owner pending table)
    (split : chain table (bucket key) = front ++ rest) :
    ahead table key (rest.head?.getD 0) = rest.length := by
  have skip (node : Address) (apart : ∀ other ∈ front, other ≠ node) :
      ahead table key node = (rest.dropWhile (· ≠ node)).length := by
    rw [ahead, split, List.dropWhile_append_of_pos]
    simpa using apart
  cases rest with
  | nil =>
    refine skip 0 fun other here => ?_
    have inChain : other ∈ chain table (bucket key) := by simp [split, here]
    obtain ⟨-, cell, allocated⟩ := wired.allocated (Wired.mem_linked inChain)
    exact Heap.ne_null allocated
  | cons p rest =>
    have nodup := wired.chain_nodup (bucket key)
    rw [split] at nodup
    have apart (other : Address) (here : other ∈ front) : other ≠ p := by
      rintro rfl
      exact (List.nodup_append.mp nodup).2.2 other here other (by simp) rfl
    exact (skip p apart).trans (by simp)

theorem Stands.ahead_pos (wired : Wired owner pending table) (stands : Stands table key front p) :
    ∃ rest, chain table (bucket key) = front ++ p :: rest ∧
      ahead table key p = rest.length + 1 := by
  obtain ⟨rest, split⟩ := stands
  exact ⟨rest, split, ahead_of_split wired split⟩

theorem ahead_next (wired : Wired owner pending table) (stands : Stands table key front p)
    (link : table.heap.field Node.next p = some after) :
    ahead table key after + 1 = ahead table key p := by
  obtain ⟨rest, split, here⟩ := stands.ahead_pos wired
  have split' : chain table (bucket key) = (front ++ [p]) ++ rest := by simp [split]
  rw [here, next_of_split wired split link, ahead_of_split wired split']

theorem ahead_le (wired : Wired owner pending table) (few : table.linked.length ≤ most)
    (key : CString) (p : Address) : ahead table key p ≤ most := by
  have within : (chain table (bucket key)).length ≤ table.linked.length :=
    (List.subperm_of_subset (wired.chain_nodup _) fun _ => Wired.mem_linked).length_le
  exact ((List.dropWhile_sublist _).length_le.trans within).trans few

theorem searching_rank {point : Searching} (wired : Wired owner [] table)
    (few : table.linked.length ≤ most) (progress : point.Progress table key seen)
    (moved : hashLookup table key point seen = some (table', own')) :
    own'.rank most table' < point.rank most table key := by
  cases point with
  | loadBucket =>
    obtain ⟨head, -, same⟩ := Option.map_eq_some_iff.mp moved
    cases same
    have within := ahead_le wired few key head
    simp only [Local.rank, Searching.rank]
    omega
  | test p =>
    cases moved
    by_cases null : p = 0
    · simp [Local.rank, Searching.rank, null]
    · simp [Local.rank, Searching.rank, null]
  | compare p =>
    obtain ⟨found, -, same⟩ := Option.map_eq_some_iff.mp moved
    cases same
    by_cases hit : found = key
    · simp only [Local.rank, Searching.rank, hit, if_true]
      omega
    · simp [Local.rank, Searching.rank, hit]
  | loadNext p =>
    obtain ⟨after, link, same⟩ := Option.map_eq_some_iff.mp moved
    cases same
    obtain ⟨-, -, front, stands, -⟩ := progress
    have next := ahead_next wired stands link
    simp only [Local.rank, Searching.rank]
    omega
  | unlockFound p =>
    cases moved
    exact Nat.lt_succ_self 2
  | unlockMissing =>
    cases moved
    exact Nat.lt_succ_self 1

theorem deleting_rank {point : Deleting}
    (wired : Wired owner (Local.deleting key point before).pending table)
    (few : table.linked.length ≤ most) (progress : point.Progress owner self table key before)
    (moved : hashDelete table key point before = some (table', own')) :
    own'.rank most table' < point.rank most table key := by
  cases point with
  | loadBucket =>
    obtain ⟨head, -, same⟩ := Option.map_eq_some_iff.mp moved
    cases same
    have within := ahead_le wired few key head
    simp only [Local.rank, Deleting.rank]
    omega
  | test prev p =>
    cases moved
    by_cases null : p = 0
    · simp [Local.rank, Deleting.rank, null]
    · simp [Local.rank, Deleting.rank, null]
  | compare prev p =>
    obtain ⟨found, -, same⟩ := Option.map_eq_some_iff.mp moved
    cases same
    by_cases hit : found = key
    · simp [Local.rank, Deleting.rank, hit]
    · simp only [Local.rank, Deleting.rank, hit, if_false]
      omega
  | loadNext prev p =>
    obtain ⟨after, link, same⟩ := Option.map_eq_some_iff.mp moved
    cases same
    obtain ⟨-, -, front, stands, -⟩ := progress
    have next := ahead_next wired stands link
    simp only [Local.rank, Deleting.rank]
    omega
  | loadLink prev p =>
    obtain ⟨after, -, same⟩ := Option.map_eq_some_iff.mp moved
    cases same
    exact Nat.lt_succ_self 6
  | storeLink prev p after =>
    simp only [hashDelete] at moved
    split at moved
    · cases moved
      exact Nat.lt_succ_self 5
    · obtain ⟨heap, -, same⟩ := Option.map_eq_some_iff.mp moved
      cases same
      exact Nat.lt_succ_self 5
  | free p =>
    obtain ⟨heap, -, same⟩ := Option.map_eq_some_iff.mp moved
    cases same
    exact Nat.lt_succ_self 4
  | loadSize =>
    cases moved
    exact Nat.lt_succ_self 3
  | storeSize seen =>
    cases moved
    exact Nat.lt_succ_self 2
  | unlock =>
    cases moved
    exact Nat.lt_succ_self 1
  | unlockMissing =>
    cases moved
    exact Nat.lt_succ_self 1

theorem linking_rank {point : Linking}
    (moved : hashInsert table key value newNode point before = some (table', own')) :
    own'.rank most table' < point.rank := by
  cases point with
  | loadBucket =>
    obtain ⟨head, -, same⟩ := Option.map_eq_some_iff.mp moved
    cases same
    exact Nat.lt_succ_self 6
  | storeNext head =>
    obtain ⟨heap, -, same⟩ := Option.map_eq_some_iff.mp moved
    cases same
    exact Nat.lt_succ_self 5
  | storeBucket =>
    cases moved
    exact Nat.lt_succ_self 4
  | loadSize =>
    cases moved
    exact Nat.lt_succ_self 3
  | storeSize seen =>
    cases moved
    exact Nat.lt_succ_self 2
  | unlock =>
    cases moved
    exact Nat.lt_succ_self 1

theorem lock_eq_some {next : Local} (moved : lock table next = some (table', own')) :
    table.mu = false ∧ table' = { table with mu := true } ∧ own' = next := by
  unfold lock at moved
  split at moved
  · cases moved
  · rename_i free
    cases moved
    exact ⟨by simpa using free, rfl, rfl⟩

theorem thread_rank (few : table.linked.length ≤ most)
    (holding : own.inside = true → Wired owner own.pending table ∧ Progress owner self table own)
    (idle : own ≠ .idle) (active : own.isReturned = false)
    (moved : thread table own action = some (table', own')) :
    own'.rank most table' < own.rank most table := by
  cases own with
  | idle => exact absurd rfl idle
  | returned outcome => cases active
  | malloc key value =>
    cases action with
    | malloc newNode garbage =>
      obtain ⟨heap, -, same⟩ := Option.map_eq_some_iff.mp moved
      cases same
      exact Nat.lt_succ_self 11
    | _ => cases moved
  | loadValue key p seen =>
    cases action with
    | go =>
      obtain ⟨value, -, same⟩ := Option.map_eq_some_iff.mp moved
      cases same
      exact Nat.lt_succ_self 1
    | stale garbage =>
      simp only [thread] at moved
      split at moved <;> cases moved
      exact Nat.lt_succ_self 1
    | _ => cases moved
  | setKey key value newNode | setValue key value newNode | clearNext key value newNode =>
    cases action with
    | go =>
      obtain ⟨heap, -, same⟩ := Option.map_eq_some_iff.mp moved
      cases same
      exact Nat.lt_succ_self _
    | _ => cases moved
  | insertLock key value newNode =>
    cases action with
    | go =>
      obtain ⟨-, rfl, rfl⟩ := lock_eq_some moved
      exact Nat.lt_succ_self 7
    | _ => cases moved
  | lookupLock key =>
    cases action with
    | go =>
      obtain ⟨-, rfl, rfl⟩ := lock_eq_some moved
      exact Nat.lt_succ_self _
    | _ => cases moved
  | deleteLock key =>
    cases action with
    | go =>
      obtain ⟨-, rfl, rfl⟩ := lock_eq_some moved
      exact Nat.lt_succ_self _
    | _ => cases moved
  | linking key value newNode point before =>
    cases action with
    | go => exact linking_rank moved
    | _ => cases moved
  | searching key point seen =>
    obtain ⟨wired, progress⟩ := holding rfl
    cases action with
    | go => exact searching_rank wired few progress moved
    | _ => cases moved
  | deleting key point before =>
    obtain ⟨wired, progress⟩ := holding rfl
    cases action with
    | go => exact deleting_rank wired few progress moved
    | _ => cases moved

theorem rank_outside (outside : own.inside = false) :
    own.rank most table' = own.rank most table := by
  cases own with
  | linking | searching | deleting => cases outside
  | _ => rfl

theorem rank_congr (inserts : table'.inserts = table.inserts)
    (linked : table'.linked = table.linked) (own : Local) :
    own.rank most table' = own.rank most table := by
  have chains (index : Nat) : chain table' index = chain table index := by
    rw [chain, chain, inserts, linked]
  have same (key : CString) (p : Address) : ahead table' key p = ahead table key p := by
    rw [ahead, ahead, chains]
  cases own with
  | searching key point seen => cases point <;> simp [Local.rank, Searching.rank, same]
  | deleting key point before => cases point <;> simp [Local.rank, Deleting.rank, same]
  | _ => rfl

theorem outside_still (outside : own.inside = false)
    (moved : thread table own action = some (table', own')) :
    table'.inserts = table.inserts ∧ table'.linked = table.linked := by
  cases thread_effect moved with
  | link | unlink | free => cases outside
  | calm calm => exact ⟨calm.inserts, calm.linked⟩

/-! ### What a thread needs for its next step -/

theorem searching_enabled {point : Searching} (wired : Wired owner [] table)
    (progress : point.Progress table key seen) : (hashLookup table key point seen).isSome := by
  have stood {front : List Address} {p : Address} (stands : Stands table key front p) :
      ∃ cell, table.heap.cells p = some cell := by
    obtain ⟨rest, split⟩ := stands
    have inChain : p ∈ chain table (bucket key) := by simp [split]
    exact (wired.allocated (Wired.mem_linked inChain)).2
  cases point with
  | loadBucket =>
    obtain ⟨head, found, -⟩ := wired.chains (bucket key) (bucket_lt key)
    simp [hashLookup, found]
  | compare p =>
    obtain ⟨-, -, front, stands, -⟩ := progress
    obtain ⟨cell, allocated⟩ := stood stands
    simp [hashLookup, Heap.field, allocated]
  | loadNext p =>
    obtain ⟨-, -, front, stands, -⟩ := progress
    obtain ⟨cell, allocated⟩ := stood stands
    simp [hashLookup, Heap.field, allocated]
  | test p => rfl
  | unlockFound p => rfl
  | unlockMissing => rfl

theorem deleting_enabled {point : Deleting}
    (wired : Wired owner (Local.deleting key point before).pending table)
    (progress : point.Progress owner self table key before) :
    (hashDelete table key point before).isSome := by
  have stood {p : Address} (inChain : p ∈ chain table (bucket key)) :
      ∃ cell, table.heap.cells p = some cell := (wired.allocated (Wired.mem_linked inChain)).2
  cases point with
  | loadBucket =>
    obtain ⟨head, found, -⟩ := wired.chains (bucket key) (bucket_lt key)
    simp [hashDelete, found]
  | compare prev p | loadNext prev p | loadLink prev p =>
    obtain ⟨-, -, front, ⟨rest, split⟩, -⟩ := progress
    obtain ⟨cell, allocated⟩ := stood (p := p) (by simp [split])
    simp [hashDelete, Heap.field, allocated]
  | storeLink prev p after =>
    obtain ⟨-, -, front, ⟨rest, split⟩, rfl, -⟩ := progress
    rcases List.eq_nil_or_concat' front with rfl | ⟨front, prev, rfl⟩
    · simp [hashDelete]
    · obtain ⟨cell, allocated⟩ := stood (p := prev) (by simp [split])
      obtain ⟨heap, done, -⟩ :=
        Ledger.modify_found allocated fun node => { node with next := after }
      simp [hashDelete, Heap.ne_null allocated, store, done]
  | free p =>
    obtain ⟨-, -, -, cell, allocated, -⟩ := progress
    have found : table.heap.field Node.key p = some cell.key := by
      rw [Heap.field, allocated]
      rfl
    obtain ⟨heap, released⟩ := Ledger.free_cell found
    simp [hashDelete, released]
  | test prev p => rfl
  | loadSize => rfl
  | storeSize seen => rfl
  | unlock => rfl
  | unlockMissing => rfl

theorem linking_enabled {point : Linking} (wired : Wired owner [] table)
    (progress : point.Progress owner self table key value newNode before) :
    (hashInsert table key value newNode point before).isSome := by
  cases point with
  | loadBucket =>
    obtain ⟨head, found, -⟩ := wired.chains (bucket key) (bucket_lt key)
    simp [hashInsert, found]
  | storeNext head =>
    obtain ⟨⟨-, cell, allocated, -⟩, -⟩ := progress
    obtain ⟨heap, done, -⟩ := Ledger.modify_found allocated fun node => { node with next := head }
    simp [hashInsert, store, done]
  | storeBucket => rfl
  | loadSize => rfl
  | storeSize seen => rfl
  | unlock => rfl

/-- A thread in a call that does not wait can go on; a lookup that has given the mutex back can
as long as no node is taken out. -/
theorem thread_enabled (idle : own ≠ .idle) (goes : own.waits = false)
    (safe : ∀ key p seen, own = .loadValue key p seen → Undeleted table)
    (holding : own.inside = true → Wired owner own.pending table ∧ Progress owner self table own)
    (outside : own.inside = false → Outside owner self table own) :
    (thread table own .go).isSome := by
  have owned {content : Node → Prop} {node : Address} {change : Node → Node} {next : Local}
      (owns : Owns owner self table node content) : (store table node change next).isSome := by
    obtain ⟨-, cell, allocated, -⟩ := owns
    obtain ⟨heap, done, -⟩ := Ledger.modify_found allocated change
    simp [store, done]
  cases own with
  | idle => exact absurd rfl idle
  | malloc | insertLock | lookupLock | deleteLock => cases goes
  | setKey key value newNode => exact owned (outside rfl)
  | setValue key value newNode => exact owned (outside rfl)
  | clearNext key value newNode => exact owned (outside rfl)
  | loadValue key p seen =>
    obtain ⟨-, value, found, -⟩ := (outside rfl).2 (safe key p seen rfl)
    simp [thread, found]
  | returned outcome => rfl
  | linking key value newNode point before =>
    exact linking_enabled (holding rfl).1 (holding rfl).2
  | searching key point seen => exact searching_enabled (holding rfl).1 (holding rfl).2
  | deleting key point before => exact deleting_enabled (holding rfl).1 (holding rfl).2

theorem thread_roomy (roomy : Roomy table.heap)
    (moved : thread table own action = some (table', own')) : Roomy table'.heap := by
  have stored {node : Address} {change : Node → Node} {next : Local}
      (stored : store table node change next = some (table', own')) : Roomy table'.heap := by
    obtain ⟨heap, done, same⟩ := Option.map_eq_some_iff.mp stored
    cases same
    exact roomy.modify done
  cases action with
  | call call =>
    cases own with
    | idle =>
      cases moved
      exact roomy
    | _ => cases moved
  | malloc newNode garbage =>
    cases own with
    | malloc key value =>
      obtain ⟨heap, done, same⟩ := Option.map_eq_some_iff.mp moved
      cases same
      exact roomy.malloc done
    | _ => cases moved
  | stale garbage =>
    cases own with
    | loadValue key p seen =>
      simp only [thread] at moved
      split at moved <;> cases moved
      exact roomy
    | _ => cases moved
  | go =>
    cases own with
    | idle | malloc => cases moved
    | setKey | setValue | clearNext => exact stored moved
    | insertLock | lookupLock | deleteLock =>
      obtain ⟨-, rfl, -⟩ := lock_eq_some moved
      exact roomy
    | loadValue =>
      obtain ⟨value, -, same⟩ := Option.map_eq_some_iff.mp moved
      cases same
      exact roomy
    | returned =>
      cases moved
      exact roomy
    | linking key value newNode point before =>
      cases point with
      | loadBucket =>
        obtain ⟨head, -, same⟩ := Option.map_eq_some_iff.mp moved
        cases same
        exact roomy
      | storeNext head => exact stored moved
      | _ =>
        cases moved
        exact roomy
    | searching key point seen =>
      cases point with
      | loadBucket | compare | loadNext =>
        obtain ⟨found, -, same⟩ := Option.map_eq_some_iff.mp moved
        cases same
        exact roomy
      | _ =>
        cases moved
        exact roomy
    | deleting key point before =>
      cases point with
      | loadBucket | compare | loadNext | loadLink =>
        obtain ⟨found, -, same⟩ := Option.map_eq_some_iff.mp moved
        cases same
        exact roomy
      | storeLink prev p after =>
        simp only [thread, hashDelete] at moved
        split at moved
        · cases moved
          exact roomy
        · obtain ⟨heap, done, same⟩ := Option.map_eq_some_iff.mp moved
          cases same
          exact roomy.modify done
      | free p =>
        obtain ⟨heap, released, same⟩ := Option.map_eq_some_iff.mp moved
        cases same
        exact roomy.free released
      | _ =>
        cases moved
        exact roomy

/-! ### The loops of all threads -/

section Loops

variable [DecidableEq Thread] {entry : Thread → Nat → Call} {rounds most : Nat}
  {inner : Local} {state after : State Thread Shared (Caller Local)}

/-- One step of one of the threads. -/
abbrev loops (entry : Thread → Nat → Call) (rounds : Nat) :
    State Thread Shared (Caller Local) → Thread × Action →
      Option (State Thread Shared (Caller Local)) :=
  Interleaving.step fun self => calls (entry self) rounds

/-- A table in order that nobody uses. -/
structure Rested (Thread : Type*) (table : Shared) : Prop where
  free : table.mu = false
  wired : ∃ owner : Address → Option Thread, Wired owner [] table
  counts : Counts table table.size
  roomy : Roomy table.heap

/-- What holds however the threads use the table. -/
structure Looping (rounds : Nat) (state : State Thread Shared (Caller Local)) : Prop where
  outline : Outline guard.invariant guard.asserts (view .idle state)
  within : ∀ self, (state.locals self).Within rounds
  roomy : Roomy state.shared.heap

/-- With these bounds every thread that does not wait can go on. A lookup that has given the mutex
back and has still to read does so while no node is taken out. -/
structure Working (rounds most : Nat) (state : State Thread Shared (Caller Local)) : Prop where
  looping : Looping rounds state
  few : state.shared.linked.length ≤ most
  busy : ∀ self, (state.locals self).Inside (· ≠ .idle)
  safe : ∀ self key p seen, (state.locals self).place = .calls (.loadValue key p seen) →
    Undeleted state.shared

omit [DecidableEq Thread] in
theorem Rested.looping (rested : Rested Thread table) (rounds : Nat) :
    Looping rounds (⟨table, fun _ => begun⟩ : State Thread Shared (Caller Local)) := by
  obtain ⟨free, ⟨owner, wired⟩, counts, roomy⟩ := rested
  exact ⟨⟨(none, owner), ⟨free, fun _ => ⟨wired, counts⟩⟩, fun self =>
      (Guard.asserts_outside rfl).mpr ⟨(by simp), trivial⟩⟩, fun _ => Nat.zero_le rounds, roomy⟩

omit [DecidableEq Thread] in
theorem Looping.knows (looping : Looping rounds state)
    (place : (state.locals self).place = .calls inner) : ∃ owner,
      (inner.inside = true → Wired owner inner.pending state.shared ∧
        Progress owner self state.shared inner) ∧
      (inner.inside = false → Outside owner self state.shared inner) := by
  obtain ⟨⟨holder, owner⟩, -, knows⟩ := looping.outline
  have known := knows self
  have inside : (state.locals self).inner .idle = inner := by rw [Caller.inner, place]
  dsimp only [view] at known
  rw [inside] at known
  exact ⟨owner, fun here => ((Guard.asserts_inside here).mp known).2,
    fun there => ((Guard.asserts_outside there).mp known).2⟩

omit [DecidableEq Thread] in
theorem Looping.single {other : Thread} {theirs : Local} (looping : Looping rounds state)
    (place : (state.locals self).place = .calls inner) (inside : inner.inside = true)
    (place' : (state.locals other).place = .calls theirs) (inside' : theirs.inside = true) :
    other = self := by
  obtain ⟨⟨holder, owner⟩, -, knows⟩ := looping.outline
  have holds {self : Thread} {inner : Local} (place : (state.locals self).place = .calls inner)
      (inside : inner.inside = true) : holder = some self := by
    have known := knows self
    have seen : (state.locals self).inner .idle = inner := by rw [Caller.inner, place]
    dsimp only [view] at known
    rw [seen] at known
    exact ((Guard.asserts_inside inside).mp known).1
  exact Option.some.inj ((holds place' inside').symm.trans (holds place inside))

theorem Looping.step (looping : Looping rounds state)
    (stepped : loops entry rounds state (self, action) = some after) :
    Looping rounds after := by
  obtain ⟨own, moves, locals⟩ := step_eq_some stepped
  have moved := moved_of_repeats moves
  have enters (table : Shared) (i : Nat) : ∃ action, thread table .idle action =
      some (table, enter (entry self i)) := ⟨.call _, rfl⟩
  have leaves (table : Shared) (inner : Local) (returned : inner.isReturned = true) :
      ∃ action, thread table inner action = some (table, .idle) := by
    cases inner with
    | returned outcome => exact ⟨.go, rfl⟩
    | _ => cases returned
  refine ⟨?_, fun other => ?_, ?_⟩
  · rcases view_step (by exact enters) leaves stepped with same | ⟨action', used⟩
    · rw [same]
      exact looping.outline
    · exact Guard.keeps_outline looping.outline (fun _ _ holding outside moved =>
        thread_moves holding outside moved) used
  · rw [locals]
    by_cases which : other = self
    · subst which
      simpa using moved.within (looping.within other)
    · simpa [which] using looping.within other
  · exact moved.keeps (fun table => Roomy table.heap) looping.roomy
      fun inner table' inner' place active went => thread_roomy looping.roomy went

omit [DecidableEq Thread] in
/-- While one thread is in the critical section the others leave the chains as they are. -/
theorem Looping.still {call : Nat → Call} {own : Caller Local} {other : Thread} {theirs : Local}
    (looping : Looping rounds state)
    (moves : calls call rounds state.shared (state.locals self) action =
      some (table', own)) (apart : other ≠ self)
    (place' : (state.locals other).place = .calls theirs) (inside' : theirs.inside = true) :
    table'.inserts = state.shared.inserts ∧ table'.linked = state.shared.linked := by
  generalize placed : (state.locals self).place = place at *
  cases placed ▸ moved_of_repeats moves with
  | enters | exits | returns => exact ⟨rfl, rfl⟩
  | goes active went =>
    rename_i inner inner'
    cases inside : inner.inside with
    | false => exact outside_still inside went
    | true => exact absurd (looping.single placed inside place' inside') apart

/-- The steps that are left of all the loops. -/
def workLeft [Fintype Thread] (rounds most : Nat) (state : State Thread Shared (Caller Local)) :
    Nat :=
  total (Caller.left (Local.rank most state.shared) (3 * most + 12) rounds) state.locals

theorem Working.shortens [Fintype Thread] (working : Working rounds most state)
    (stepped : loops entry rounds state (self, action) = some after) :
    workLeft rounds most after < workLeft rounds most state := by
  obtain ⟨own, moves, locals⟩ := step_eq_some stepped
  have moved := moved_of_repeats moves
  have entered (call : Call) (table : Shared) :
      (enter call).rank most table ≤ 3 * most + 12 := by
    cases call with
    | insert key value => exact Nat.le_add_left 12 _
    | lookup key => exact Nat.add_le_add_left (Nat.le_of_lt (by decide)) _
    | delete key => exact le_rfl
  have ended (inner : Local) (returned : inner.isReturned = true) :
      0 < inner.rank most state.shared := by
    cases inner with
    | returned outcome => exact Nat.succ_pos 0
    | _ => cases returned
  have less := moved.left (Local.rank most state.shared) (Local.rank most after.shared)
    (entered _ _) ended fun inner inner' place active went => by
      obtain ⟨owner, holding, -⟩ := working.looping.knows place
      exact thread_rank working.few holding (working.busy self inner place) active went
  rw [workLeft, workLeft, locals]
  refine left_lt less fun other apart => le_of_eq ?_
  cases place' : (state.locals other).place with
  | loop | exited => simp only [Caller.left, place']
  | calls theirs =>
    have same : theirs.rank most after.shared = theirs.rank most state.shared := by
      cases inside : theirs.inside with
      | false => exact rank_outside inside
      | true =>
        obtain ⟨inserts, linked⟩ := working.looping.still moves apart place' inside
        exact rank_congr inserts linked theirs
    simp only [Caller.left, place', same]

omit [DecidableEq Thread] in
/-- Nobody has the mutex who is not in the critical section. -/
theorem Looping.unlocked (looping : Looping rounds state)
    (outside : ∀ self inner, (state.locals self).place = .calls inner → inner.inside = false) :
    state.shared.mu = false := by
  obtain ⟨⟨holder, owner⟩, ⟨held, -⟩, knows⟩ := looping.outline
  have held : state.shared.mu = holder.isSome := held
  rw [held]
  cases holder with
  | none => rfl
  | some self =>
    have there : ((state.locals self).inner .idle).inside = false := by
      rw [Caller.inner]
      split
      · rename_i inner place
        exact outside self inner place
      · rfl
    exact absurd rfl ((Guard.asserts_outside there).mp (knows self)).1

theorem isSome_loops (moves : (repeats thread Local.isReturned (fun i => enter (entry self i))
    rounds state.shared (state.locals self) action).isSome) :
    (loops entry rounds state (self, action)).isSome :=
  (Option.isSome_map ..).trans moves

/-- A thread goes on in a call when the steps of the call allow it. -/
theorem isSome_calls (place : (state.locals self).place = .calls inner)
    (goes : inner.isReturned = true ∨ (thread state.shared inner action).isSome) :
    (loops entry rounds state (self, action)).isSome := by
  apply isSome_loops
  rw [repeats, place]
  dsimp only
  split
  · rfl
  · rename_i active
    exact (Option.isSome_map ..).trans (goes.resolve_left active)

/-- Until all threads have come to their ends one of them can take a step. -/
theorem Working.progress (entry : Thread → Nat → Call) (working : Working rounds most state)
    (active : (state.locals self).place ≠ .exited) :
    ∃ event, (loops entry rounds state event).isSome := by
  have goes {self : Thread} {inner : Local} (place : (state.locals self).place = .calls inner)
      (ready : inner.waits = false) : (loops entry rounds state (self, .go)).isSome := by
    obtain ⟨owner, holding, outside⟩ := working.looping.knows place
    refine isSome_calls place (.inr (thread_enabled (working.busy self inner place) ready ?_
      holding outside))
    rintro key p seen rfl
    exact working.safe self key p seen place
  by_cases held : ∃ holder inner, (state.locals holder).place = .calls inner ∧ inner.inside = true
  · obtain ⟨holder, inner, place, inside⟩ := held
    refine ⟨_, goes place ?_⟩
    cases inner with
    | linking | searching | deleting => rfl
    | _ => cases inside
  · push Not at held
    have free : state.shared.mu = false :=
      working.looping.unlocked fun self inner place => by simpa using held self inner place
    cases place : (state.locals self).place with
    | exited => exact absurd place active
    | loop =>
      refine ⟨(self, .go), isSome_loops ?_⟩
      rw [repeats, place]
      dsimp only
      split <;> rfl
    | calls inner =>
      have locks (next : Local) : (lock state.shared next).isSome := by
        rw [lock, free]
        rfl
      cases inner with
      | malloc key value =>
        obtain ⟨newNode, heap, done⟩ := working.looping.roomy.exists_malloc ⟨key, key, 0⟩
        refine ⟨(self, .malloc newNode ⟨key, key, 0⟩), isSome_calls place (.inr ?_)⟩
        exact (Option.isSome_map ..).trans (Option.isSome_of_eq_some done)
      | insertLock | lookupLock | deleteLock =>
        exact ⟨(self, .go), isSome_calls place (.inr (locks _))⟩
      | _ => exact ⟨_, goes place rfl⟩

omit [DecidableEq Thread] in
theorem Looping.rested (looping : Looping rounds state)
    (exited : ∀ self, (state.locals self).place = .exited) : Rested Thread state.shared := by
  have free : state.shared.mu = false := looping.unlocked fun self inner place => by
    rw [exited self] at place
    cases place
  obtain ⟨owner, wired, counts⟩ := Guard.resource_of_outline looping.outline free
  exact ⟨free, ⟨owner, wired⟩, counts, looping.roomy⟩

/-- Loops of calls are short, and where none can go on all are at their ends. -/
def LoopsEnd [Fintype Thread] (entry : Thread → Nat → Call) (rounds most : Nat) (table : Shared) :
    Prop :=
  ∀ actions state, follow (loops entry rounds) ⟨table, fun _ => begun⟩ actions = some state →
    actions.length ≤ Fintype.card Thread * (rounds * (3 * most + 13) + 1) ∧
      ((∀ event, loops entry rounds state event = none) →
        ∀ self, (state.locals self).place = .exited)

theorem loops_end [Fintype Thread] {holds : State Thread Shared (Caller Local) → Prop}
    (start : holds ⟨table, fun _ => begun⟩)
    (keeps : ∀ state event after, holds state → loops entry rounds state event = some after →
      holds after)
    (working : ∀ state, holds state → Working rounds most state) :
    LoopsEnd entry rounds most table := by
  intro actions state run
  have each (state : State Thread Shared (Caller Local)) (event : Thread × Action)
      (after : State Thread Shared (Caller Local)) (held : holds state)
      (stepped : loops entry rounds state event = some after) :
      holds after ∧ workLeft rounds most after < workLeft rounds most state :=
    ⟨keeps state event after held stepped, (working state held).shortens stepped⟩
  have short := follow_length_le (workLeft rounds most) each start run
  have whole : workLeft rounds most
      (⟨table, fun _ => begun⟩ : State Thread Shared (Caller Local)) =
        Fintype.card Thread * (rounds * (3 * most + 13) + 1) := by
    simp [workLeft, total, begun, Caller.left]
  refine ⟨by omega, fun stuck self => ?_⟩
  by_contra active
  have held := follow_keeps keeps start run
  obtain ⟨event, goes⟩ := (working state held).progress entry active
  rw [stuck event] at goes
  cases goes

theorem loops_finish [Fintype Thread] {holds : State Thread Shared (Caller Local) → Prop}
    (start : holds ⟨table, fun _ => begun⟩)
    (keeps : ∀ state event after, holds state → loops entry rounds state event = some after →
      holds after)
    (working : ∀ state, holds state → Working rounds most state) :
    ∃ state, Reachable (loops entry rounds) ⟨table, fun _ => begun⟩ state ∧
      ∀ self, (state.locals self).place = .exited := by
  have next (state : State Thread Shared (Caller Local)) (held : holds state)
      (more : ¬∀ self, (state.locals self).place = .exited) : ∃ event after,
        loops entry rounds state event = some after ∧ holds after ∧
          workLeft rounds most after < workLeft rounds most state := by
    rw [not_forall] at more
    obtain ⟨self, active⟩ := more
    obtain ⟨event, goes⟩ := (working state held).progress entry active
    obtain ⟨after, stepped⟩ := Option.isSome_iff_exists.mp goes
    exact ⟨event, after, stepped, keeps state event after held stepped,
      (working state held).shortens stepped⟩
  obtain ⟨actions, state, run, exited⟩ := follow_finishes (workLeft rounds most) next start
  exact ⟨state, ⟨actions, run⟩, exited⟩

end Loops

end CssLab.Hash.Threads
