import CssLab.Hash.Loops
import Mathlib.Data.List.TakeWhile

namespace CssLab.Hash.Threads

open Chain Transition Interleaving Callers

variable {Thread : Type*} {table table' : Shared} {own own' : Local}

/-- Past the store that links a node, or the one that takes one out. -/
def Local.past : Local → Bool
  | .linking _ _ _ .loadSize _ | .linking _ _ _ (.storeSize _) _ | .linking _ _ _ .unlock _ => true
  | .deleting _ (.free _) _ | .deleting _ .loadSize _ | .deleting _ (.storeSize _) _ => true
  | .deleting _ .unlock _ | .deleting _ .unlockMissing _ => true
  | .returned _ => true
  | _ => false

theorem past_of_returned (inner : Local) (returned : inner.isReturned = true) :
    inner.past = true := by
  cases inner with
  | returned outcome => rfl
  | _ => cases returned

/-! ### Inserts -/

/-- In a call that inserts these. -/
def Inserts (key value : CString) : Local → Prop
  | .malloc key' value' | .setKey key' value' _ | .setValue key' value' _
  | .clearNext key' value' _ | .insertLock key' value' _ | .linking key' value' _ _ _ =>
    key' = key ∧ value' = value
  | .returned _ => True
  | _ => False

/-- What a step of such a call does to the nodes in the table. -/
def Gains (key value : CString) (table table' : Shared) : Prop :=
  ∃ node, table'.inserts = ⟨node, key, value⟩ :: table.inserts ∧
    table'.linked = node :: table.linked

def Still (table table' : Shared) : Prop :=
  table'.inserts = table.inserts ∧ table'.linked = table.linked

theorem inserts_thread (inserts : Inserts key value own) (active : own.isReturned = false)
    (moved : thread table own action = some (table', own')) :
    Inserts key value own' ∧ (own'.past = own.past ∧ Still table table' ∨
      own.past = false ∧ own'.past = true ∧ Gains key value table table') := by
  have stored {node : Address} {change : Node → Node} {next : Local}
      (done : store table node change next = some (table', own')) (goes : Inserts key value next)
      (past : next.past = own.past) : Inserts key value own' ∧ (own'.past = own.past ∧
        Still table table' ∨ own.past = false ∧ own'.past = true ∧
          Gains key value table table') := by
    obtain ⟨heap, -, same⟩ := Option.map_eq_some_iff.mp done
    cases same
    exact ⟨goes, .inl ⟨past, rfl, rfl⟩⟩
  cases own with
  | malloc key' value' =>
    cases action with
    | malloc newNode garbage =>
      obtain ⟨heap, -, same⟩ := Option.map_eq_some_iff.mp moved
      cases same
      exact ⟨inserts, .inl ⟨rfl, rfl, rfl⟩⟩
    | _ => cases moved
  | setKey key' value' newNode | setValue key' value' newNode | clearNext key' value' newNode =>
    cases action with
    | go => exact stored moved inserts rfl
    | _ => cases moved
  | insertLock key' value' newNode =>
    cases action with
    | go =>
      obtain ⟨-, rfl, rfl⟩ := lock_eq_some moved
      exact ⟨inserts, .inl ⟨rfl, rfl, rfl⟩⟩
    | _ => cases moved
  | linking key' value' newNode point before =>
    cases action with
    | go =>
      obtain ⟨rfl, rfl⟩ := inserts
      cases point with
      | loadBucket =>
        obtain ⟨head, -, same⟩ := Option.map_eq_some_iff.mp moved
        cases same
        exact ⟨⟨rfl, rfl⟩, .inl ⟨rfl, rfl, rfl⟩⟩
      | storeNext head => exact stored moved ⟨rfl, rfl⟩ rfl
      | storeBucket =>
        cases moved
        exact ⟨⟨rfl, rfl⟩, .inr ⟨rfl, rfl, newNode, rfl, rfl⟩⟩
      | loadSize | storeSize =>
        cases moved
        exact ⟨⟨rfl, rfl⟩, .inl ⟨rfl, rfl, rfl⟩⟩
      | unlock =>
        cases moved
        exact ⟨trivial, .inl ⟨rfl, rfl, rfl⟩⟩
    | _ => cases moved
  | returned outcome => cases active
  | _ => exact inserts.elim

/-! ### Lookups -/

/-- In a call that looks this up, once it has the mutex among these inserts. -/
def Looks (key : CString) (inserts : List Insert) : Local → Prop
  | .lookupLock key' => key' = key
  | .searching key' _ seen | .loadValue key' _ seen | .returned (.looked key' _ seen) =>
    key' = key ∧ seen = inserts
  | _ => False

theorem looks_thread (looks : Looks key table.inserts own) (active : own.isReturned = false)
    (moved : thread table own action = some (table', own')) :
    Looks key table.inserts own' ∧ Still table table' := by
  cases own with
  | lookupLock key' =>
    cases action with
    | go =>
      obtain ⟨-, rfl, rfl⟩ := lock_eq_some moved
      exact ⟨⟨looks, rfl⟩, rfl, rfl⟩
    | _ => cases moved
  | searching key' point seen =>
    cases action with
    | go =>
      cases point with
      | loadBucket | compare | loadNext =>
        obtain ⟨found, -, same⟩ := Option.map_eq_some_iff.mp moved
        cases same
        exact ⟨looks, rfl, rfl⟩
      | test | unlockFound | unlockMissing =>
        cases moved
        exact ⟨looks, rfl, rfl⟩
    | _ => cases moved
  | loadValue key' p seen =>
    cases action with
    | go =>
      obtain ⟨value, -, same⟩ := Option.map_eq_some_iff.mp moved
      cases same
      exact ⟨looks, rfl, rfl⟩
    | stale garbage =>
      simp only [thread] at moved
      split at moved <;> cases moved
      exact ⟨looks, rfl, rfl⟩
    | _ => cases moved
  | returned outcome => cases active
  | _ => exact looks.elim

/-! ### Deletes -/

/-- The inserts whose nodes are in the bucket, the last one first. -/
def entries (table : Shared) (index : Nat) : List Insert :=
  table.inserts.filter fun insert => bucket insert.key = index ∧ insert.node ∈ table.linked

def keysIn (table : Shared) (index : Nat) : List CString := (entries table index).map Insert.key

/-- What `hash_delete` leaves of the keys in a bucket: it passes those that are the given one and
takes out what comes behind. -/
def skipDelete (key : CString) (keys : List CString) : List CString :=
  keys.takeWhile (· = key) ++ (keys.dropWhile (· = key)).tail

/-- `p` is behind inserts of the key, or the end of the bucket. -/
def Arrives (table : Shared) (key : CString) (p : Address) : Prop :=
  ∃ front rest, entries table (bucket key) = front ++ rest ∧
    p = (rest.map Insert.node).head?.getD 0 ∧ ∀ insert ∈ front, insert.key = key

/-- The same where `p` is a node, of whose key this holds. -/
def StandsAt (table : Shared) (key : CString) (p : Address) (holds : CString → Prop) : Prop :=
  ∃ front insert rest, entries table (bucket key) = front ++ insert :: rest ∧
    insert.node = p ∧ (∀ insert ∈ front, insert.key = key) ∧ holds insert.key

/-- Where the loop of `hash_delete` has come to. -/
def Deleting.Skips (table : Shared) (key : CString) : Deleting → Prop
  | .test _ p => Arrives table key p
  | .compare _ p => StandsAt table key p fun _ => True
  | .loadNext _ p => StandsAt table key p (· = key)
  | .loadLink _ p | .storeLink _ p _ => StandsAt table key p (· ≠ key)
  | _ => True

/-- In a call that deletes this. -/
def Deletes (key : CString) (table : Shared) : Local → Prop
  | .deleteLock key' => key' = key
  | .deleting key' point _ => key' = key ∧ point.Skips table key
  | .returned _ => True
  | _ => False

/-- What a step of such a call does to the nodes in the table. -/
def Skipped (key : CString) (table table' : Shared) : Prop :=
  table'.inserts = table.inserts ∧ table'.linked.length ≤ table.linked.length ∧
    ∀ index, keysIn table' index =
      if index = bucket key then skipDelete key (keysIn table index) else keysIn table index

theorem chain_entries (table : Shared) (index : Nat) :
    chain table index = (entries table index).map Insert.node := rfl

theorem mem_entries {insert : Insert} : insert ∈ entries table index ↔
    insert ∈ table.inserts ∧ bucket insert.key = index ∧ insert.node ∈ table.linked := by
  simp [entries]

theorem entries_congr (still : Still table table') (index : Nat) :
    entries table' index = entries table index := by
  rw [entries, entries, still.1, still.2]

theorem skipDelete_split (front : List CString) {rest : List CString}
    (same : ∀ other ∈ front, other = key) (other : next ≠ key) :
    skipDelete key (front ++ next :: rest) = front ++ rest := by
  have early : ∀ other ∈ front, decide (other = key) = true := by simpa using same
  rw [skipDelete, List.takeWhile_append_of_pos early, List.dropWhile_append_of_pos early]
  simp [other]

theorem skipDelete_all {keys : List CString} (same : ∀ other ∈ keys, other = key) :
    skipDelete key keys = keys := by
  have all : ∀ other ∈ keys, decide (other = key) = true := by simpa using same
  rw [skipDelete, List.takeWhile_eq_self_iff.mpr all, List.dropWhile_eq_nil_iff.mpr all]
  exact List.append_nil keys

theorem StandsAt.imp {holds holds' : CString → Prop} (stands : StandsAt table key p holds)
    (implies : ∀ other, holds other → holds' other) : StandsAt table key p holds' := by
  obtain ⟨front, insert, rest, split, here, same, held⟩ := stands
  exact ⟨front, insert, rest, split, here, same, implies _ held⟩

theorem StandsAt.skipped {owner : Address → Option Thread} (wired : Wired owner [] table)
    (stands : StandsAt table key p (· ≠ key)) (inserts : table'.inserts = table.inserts)
    (linked : table'.linked = table.linked.erase p) : Skipped key table table' := by
  obtain ⟨front, insert, rest, split, rfl, same, other⟩ := stands
  have nodup := wired.linked_nodup.of_append_left
  have erased (index : Nat) : entries table' index =
      (entries table index).filter fun other => other.node ≠ insert.node := by
    rw [entries, entries, List.filter_filter, inserts]
    refine List.filter_congr fun other _ => ?_
    rw [linked, Bool.eq_iff_iff]
    simp only [decide_eq_true_eq, Bool.and_eq_true, nodup.mem_erase_iff, ne_eq]
    tauto
  have member : insert.node ∈ chain table (bucket key) := by simp [chain_entries, split]
  refine ⟨inserts, linked ▸ List.length_erase_le, fun index => ?_⟩
  rw [keysIn, erased]
  by_cases here : index = bucket key
  · have apart := wired.chain_nodup (bucket key)
    rw [chain_entries, split, List.map_append, List.map_cons, List.nodup_middle,
      List.nodup_cons] at apart
    have others (other : Insert) (inside : other ∈ front ++ rest) :
        decide (other.node ≠ insert.node) = true := by
      simp only [ne_eq, decide_eq_true_eq]
      intro same
      exact apart.1 (same ▸ (by simpa using List.mem_map_of_mem (f := Insert.node) inside))
    have early := List.filter_eq_self.mpr fun other here =>
      others other (List.mem_append_left rest here)
    have late := List.filter_eq_self.mpr fun other here =>
      others other (List.mem_append_right front here)
    rw [if_pos here, here, keysIn, split, List.map_append, List.map_cons,
      skipDelete_split _ (by simpa using same) other, List.filter_append, List.filter_cons_of_neg
        (by simp), early, late, List.map_append]
  · rw [if_neg here, keysIn, List.filter_eq_self.mpr]
    intro other inside
    simp only [ne_eq, decide_eq_true_eq]
    intro same
    have there : insert.node ∈ chain table index := by
      rw [← same, chain_entries]
      exact List.mem_map_of_mem inside
    exact here (wired.chain_unique there member)

theorem skipped_all (same : ∀ insert ∈ entries table (bucket key), insert.key = key)
    (still : Still table table') : Skipped key table table' := by
  refine ⟨still.1, still.2 ▸ le_rfl, fun index => ?_⟩
  rw [keysIn, entries_congr still]
  by_cases here : index = bucket key
  · rw [if_pos here, here, skipDelete_all (by simpa [keysIn] using same), keysIn]
  · rw [if_neg here, keysIn]

theorem deletes_thread {owner : Address → Option Thread} (deletes : Deletes key table own)
    (holding : own.inside = true → Wired owner own.pending table)
    (active : own.isReturned = false)
    (moved : thread table own action = some (table', own')) :
    Deletes key table' own' ∧ (own'.past = own.past ∧ Still table table' ∨
      own.past = false ∧ own'.past = true ∧ Skipped key table table') := by
  cases own with
  | deleteLock key' =>
    cases action with
    | go =>
      obtain ⟨-, rfl, rfl⟩ := lock_eq_some moved
      exact ⟨⟨deletes, trivial⟩, .inl ⟨rfl, rfl, rfl⟩⟩
    | _ => cases moved
  | deleting key' point before =>
    cases action with
    | go =>
      obtain ⟨rfl, skips⟩ := deletes
      have wired := holding rfl
      cases point with
      | loadBucket =>
        obtain ⟨head, found, same⟩ := Option.map_eq_some_iff.mp moved
        cases same
        obtain ⟨rest, split, isHead⟩ := reaches_head wired found
        have first : head = ((entries table (bucket key')).map Insert.node).head?.getD 0 := by
          rw [isHead, ← chain_entries, split, List.nil_append]
        exact ⟨⟨rfl, [], _, rfl, first, by simp⟩, .inl ⟨rfl, rfl, rfl⟩⟩
      | test prev p =>
        cases moved
        obtain ⟨front, rest, split, isHead, passed⟩ := skips
        cases rest with
        | nil =>
          obtain rfl : p = 0 := isHead
          rw [if_pos rfl]
          refine ⟨⟨rfl, trivial⟩, .inr ⟨rfl, rfl, skipped_all ?_ ⟨rfl, rfl⟩⟩⟩
          rw [split, List.append_nil]
          exact passed
        | cons insert rest =>
          obtain rfl : p = insert.node := isHead
          have inChain : insert.node ∈ chain table (bucket key') := by simp [chain_entries, split]
          obtain ⟨-, cell, allocated⟩ := wired.allocated (Wired.mem_linked inChain)
          rw [if_neg (Heap.ne_null allocated)]
          exact ⟨⟨rfl, front, insert, rest, split, rfl, passed, trivial⟩, .inl ⟨rfl, rfl, rfl⟩⟩
      | compare prev p =>
        obtain ⟨found, load, same⟩ := Option.map_eq_some_iff.mp moved
        cases same
        obtain ⟨front, insert, rest, split, rfl, passed, -⟩ := skips
        have member : insert ∈ entries table (bucket key') := by simp [split]
        obtain ⟨inserted, -, linked⟩ := mem_entries.mp member
        have isKey := Option.some.inj ((wired.entries insert inserted linked).2.1.symm.trans load)
        have stands (holds : CString → Prop) (held : holds found) :
            StandsAt table key' insert.node holds :=
          ⟨front, insert, rest, split, rfl, passed, isKey ▸ held⟩
        by_cases hit : found = key'
        · rw [if_pos hit]
          exact ⟨⟨rfl, stands (· = key') hit⟩, .inl ⟨rfl, rfl, rfl⟩⟩
        · rw [if_neg hit]
          exact ⟨⟨rfl, stands (· ≠ key') hit⟩, .inl ⟨rfl, rfl, rfl⟩⟩
      | loadNext prev p =>
        obtain ⟨after, link, same⟩ := Option.map_eq_some_iff.mp moved
        cases same
        obtain ⟨front, insert, rest, split, rfl, passed, hit⟩ := skips
        have chained : chain table (bucket key') =
            front.map Insert.node ++ insert.node :: rest.map Insert.node := by
          simp [chain_entries, split]
        refine ⟨⟨rfl, front ++ [insert], rest, by simp [split], next_of_split wired chained link,
          fun other here => ?_⟩, .inl ⟨rfl, rfl, rfl⟩⟩
        rcases List.mem_append.mp here with early | last
        · exact passed other early
        · rw [List.mem_singleton.mp last, hit]
      | loadLink prev p =>
        obtain ⟨after, -, same⟩ := Option.map_eq_some_iff.mp moved
        cases same
        exact ⟨⟨rfl, skips⟩, .inl ⟨rfl, rfl, rfl⟩⟩
      | storeLink prev p after =>
        simp only [thread, hashDelete] at moved
        split at moved
        · cases moved
          exact ⟨⟨rfl, trivial⟩, .inr ⟨rfl, rfl, StandsAt.skipped wired skips rfl rfl⟩⟩
        · obtain ⟨heap, -, same⟩ := Option.map_eq_some_iff.mp moved
          cases same
          exact ⟨⟨rfl, trivial⟩, .inr ⟨rfl, rfl, StandsAt.skipped wired skips rfl rfl⟩⟩
      | free p =>
        obtain ⟨heap, -, same⟩ := Option.map_eq_some_iff.mp moved
        cases same
        exact ⟨⟨rfl, trivial⟩, .inl ⟨rfl, rfl, rfl⟩⟩
      | loadSize | storeSize =>
        cases moved
        exact ⟨⟨rfl, trivial⟩, .inl ⟨rfl, rfl, rfl⟩⟩
      | unlock | unlockMissing =>
        cases moved
        exact ⟨trivial, .inl ⟨rfl, rfl, rfl⟩⟩
    | _ => cases moved
  | returned outcome => cases active
  | _ => exact deletes.elim

theorem Deletes.congr (deletes : Deletes key table own)
    (still : own.inside = true → Still table table') : Deletes key table' own := by
  cases own with
  | deleting key' point before =>
    obtain ⟨rfl, skips⟩ := deletes
    have same := entries_congr (still rfl) (bucket key')
    refine ⟨rfl, ?_⟩
    cases point with
    | test prev p =>
      change Arrives table' key' p
      rw [Arrives, same]
      exact skips
    | compare prev p | loadNext prev p | loadLink prev p | storeLink prev p after =>
      obtain ⟨front, insert, rest, split, found⟩ := skips
      exact ⟨front, insert, rest, same.trans split, found⟩
    | _ => trivial
  | deleteLock key' => exact deletes
  | returned outcome => trivial
  | _ => exact deletes.elim

/-- A bucket that is to be emptied, with the keys that are still to be deleted: of two nodes or more
the one that was linked first stays until the last. -/
structure Emptying (keys : List CString) (left : Finset CString) (first : Option CString) :
    Prop where
  fits : keys.length ≤ left.card
  last : keys = [] ∨ keys.getLast? = first ∨ ∃ key ∉ left, keys = [key]

/-- Another delete takes a node out, unless the only one that is left has its key, and that one is
the first, which is then not the only key to be deleted. -/
theorem Emptying.delete (emptying : Emptying keys left first) (nodup : keys.Nodup)
    (member : key ∈ left)
    (companion : ∀ oldest ∈ first, oldest ∈ left → ∃ other ∈ left, other ≠ oldest) :
    Emptying (skipDelete key keys) (left.erase key) first := by
  obtain ⟨fits, last⟩ := emptying
  have card := Finset.card_erase_of_mem member
  -- with two nodes or more the first one is where it was
  have oldest {head next : CString} {rest : List CString}
      (last : head :: next :: rest = [] ∨ (head :: next :: rest).getLast? = first ∨
        ∃ key ∉ left, head :: next :: rest = [key]) :
      (next :: rest).getLast? = first := by
    rcases last with none | isLast | ⟨other, -, isOnly⟩
    · cases none
    · rwa [List.getLast?_cons_cons] at isLast
    · cases isOnly
  cases keys with
  | nil => exact ⟨Nat.zero_le _, .inl rfl⟩
  | cons head keys =>
    rw [List.length_cons] at fits
    by_cases hit : head = key
    · subst hit
      cases keys with
      | nil =>
        have same : skipDelete head [head] = [head] := skipDelete_all (by simp)
        rw [same]
        refine ⟨?_, .inr (.inr ⟨head, Finset.notMem_erase head left, rfl⟩)⟩
        rcases last with none | isFirst | ⟨other, gone, isOnly⟩
        · cases none
        · obtain ⟨other, there, apart⟩ := companion head isFirst.symm member
          have two : 1 < left.card := Finset.one_lt_card.mpr ⟨other, there, head, member, apart⟩
          rw [List.length_singleton]
          omega
        · cases isOnly
          exact absurd member gone
      | cons next keys =>
        have apart : next ≠ head := fun same => by simp [same] at nodup
        have without : skipDelete head (head :: next :: keys) = head :: keys :=
          skipDelete_split [head] (by simp) apart
        rw [without]
        refine ⟨by rw [List.length_cons] at *; omega, .inr ?_⟩
        have isLast := oldest last
        cases keys with
        | nil => exact .inr ⟨head, Finset.notMem_erase head left, rfl⟩
        | cons other keys =>
          rw [List.getLast?_cons_cons] at isLast
          exact .inl (by rwa [List.getLast?_cons_cons])
    · have without : skipDelete key (head :: keys) = keys :=
        skipDelete_split [] (by simp) hit
      rw [without]
      refine ⟨by omega, ?_⟩
      cases keys with
      | nil => exact .inl rfl
      | cons next keys => exact .inr (.inl (oldest last))

/-! ### The loops of the threads that insert, look up and delete -/

section Phases

variable [DecidableEq Thread] {key : Thread → Nat → CString}
  {value : Thread → CString} {rounds : Nat} {self : Thread} {base : Shared}
  {state after : State Thread Shared (Caller Local)}

/-- No key is used twice. -/
def Distinct (key : Thread → Nat → CString) : Prop :=
  ∀ self i other j, key self i = key other j → self = other ∧ i = j

/-- Of the keys of one thread the later ones come first. -/
def Ordered (key : Thread → Nat → CString) (keys : List CString) : Prop :=
  keys.Pairwise fun later earlier =>
    ∀ self i j, later = key self i → earlier = key self j → j < i

/-- The table with all keys and the value of its thread for each. -/
structure Holds [Fintype Thread] (key : Thread → Nat → CString) (value : Thread → CString)
    (rounds : Nat) (table : Shared) : Prop where
  undeleted : Undeleted table
  ordered : Ordered key (table.inserts.map Insert.key)
  keys : ∀ word, word ∈ table.inserts.map Insert.key ↔ ∃ self i, i < rounds ∧ word = key self i
  values : ∀ insert ∈ table.inserts, ∀ self i, insert.key = key self i →
    insert.value = value self
  length : table.inserts.length = Fintype.card Thread * rounds

/-- What holds while all threads insert. -/
structure Filling (key : Thread → Nat → CString) (value : Thread → CString) (rounds : Nat)
    (state : State Thread Shared (Caller Local)) : Prop where
  looping : Looping rounds state
  calls : ∀ self, (state.locals self).InRound fun i => Inserts (key self i) (value self)
  undeleted : Undeleted state.shared
  log : ∃ log, Logged Local.past state.locals log ∧
    state.shared.inserts.map (fun insert => (insert.key, insert.value)) =
      log.map fun call => (key call.1 call.2, value call.1)

omit [DecidableEq Thread] in
theorem Rested.filling (rested : Rested Thread table) (empty : table.inserts = [])
    (undeleted : Undeleted table) (key : Thread → Nat → CString) (value : Thread → CString)
    (rounds : Nat) : Filling key value rounds ⟨table, fun _ => begun⟩ :=
  ⟨rested.looping rounds, fun _ _ at' => (by cases at'), undeleted, [], logged_begun _,
    by simp [empty]⟩

/-- What holds of the calls holds on when it does for the thread that moves. -/
theorem inRound_update (holds : Thread → Nat → Local → Prop) {locals : Thread → Caller Local}
    {own : Caller Local} (mine : own.InRound (holds self))
    (others : ∀ other, other ≠ self → (locals other).InRound (holds other)) (other : Thread) :
    (Function.update locals self own other).InRound (holds other) := by
  by_cases which : other = self
  · rw [which, Function.update_self]
    exact mine
  · rw [Function.update_of_ne which]
    exact others other which

theorem Filling.step (filling : Filling key value rounds state)
    (stepped : loops (fun self i => .insert (key self i) (value self)) rounds state
      (self, action) = some after) : Filling key value rounds after := by
  have looping := filling.looping.step stepped
  obtain ⟨own, moves, locals⟩ := step_eq_some stepped
  have moved := moved_of_repeats moves
  have goes (inner inner' : Local) (place : (state.locals self).place = .calls inner)
      (active : inner.isReturned = false)
      (went : thread state.shared inner action = some (after.shared, inner')) :=
    inserts_thread (filling.calls self inner place) active went
  have entered (i : Nat) : Inserts (key self i) (value self)
      (enter (.insert (key self i) (value self))) := ⟨rfl, rfl⟩
  have mine := moved.inRound (fun i => Inserts (key self i) (value self)) (entered _)
    fun inner inner' place active went => (goes inner inner' place active went).1
  have commits := moved.commits Local.past (Still state.shared)
    (Gains (key self (state.locals self).i) (value self) state.shared) ⟨rfl, rfl⟩ rfl
    past_of_returned fun inner inner' place active went => (goes inner inner' place active went).2
  obtain ⟨log, logged, contents⟩ := filling.log
  refine ⟨looping, ?_, ?_, ?_⟩
  · rw [locals]
    exact inRound_update (fun self i => Inserts (key self i) (value self)) mine
      fun other _ => filling.calls other
  · rcases commits with ⟨-, inserts, linked⟩ | ⟨-, -, node, inserts, linked⟩
    · rw [Undeleted, inserts, linked]
      exact filling.undeleted
    · rw [Undeleted, inserts, linked, List.map_cons]
      exact congrArg (node :: ·) filling.undeleted
  · rw [locals]
    rcases commits with ⟨kept, inserts, -⟩ | ⟨before, past, node, inserts, -⟩
    · exact ⟨log, logged.keep kept, by rw [inserts, contents]⟩
    · exact ⟨_, logged.next before past, by rw [inserts, List.map_cons, contents]; rfl⟩

theorem Filling.length_le [Fintype Thread] (filling : Filling key value rounds state) :
    state.shared.linked.length ≤ Fintype.card Thread * rounds := by
  obtain ⟨log, logged, contents⟩ := filling.log
  have lengths := congrArg List.length contents
  rw [List.length_map, List.length_map] at lengths
  rw [filling.undeleted, List.length_map, lengths]
  exact logged.length_le fun self => (filling.looping.within self).done_le _

theorem Filling.working [Fintype Thread] (filling : Filling key value rounds state) :
    Working rounds (Fintype.card Thread * rounds) state where
  looping := filling.looping
  few := filling.length_le
  busy self inner place := by
    rintro rfl
    exact filling.calls self _ place
  safe self key' p seen place := (filling.calls self _ place).elim

omit [DecidableEq Thread] in
theorem Filling.holds [Fintype Thread] (filling : Filling key value rounds state)
    (distinct : Distinct key)
    (exited : ∀ self, (state.locals self).place = .exited) :
    Holds key value rounds state.shared := by
  classical
  obtain ⟨log, logged, contents⟩ := filling.log
  have done (self : Thread) := (filling.looping.within self).done_eq (exited self) Local.past
  have keys : state.shared.inserts.map Insert.key = log.map fun call => key call.1 call.2 := by
    have firsts := congrArg (List.map Prod.fst) contents
    rwa [List.map_map, List.map_map] at firsts
  refine ⟨filling.undeleted, ?_, fun word => ?_, fun insert member self i isKey => ?_, ?_⟩
  · rw [Ordered, keys, List.pairwise_map]
    refine logged.order.imp fun {later earlier} order self i j isLater isEarlier => ?_
    obtain ⟨rfl, rfl⟩ := distinct _ _ _ _ isLater
    obtain ⟨same, rfl⟩ := distinct _ _ _ _ isEarlier
    exact order same.symm
  · rw [keys, List.mem_map]
    constructor
    · rintro ⟨⟨self, i⟩, member, rfl⟩
      exact ⟨self, i, done self ▸ (logged.mem self i).mp member, rfl⟩
    · rintro ⟨self, i, more, rfl⟩
      exact ⟨(self, i), (logged.mem self i).mpr (done self ▸ more), rfl⟩
  · have pair : (insert.key, insert.value) ∈
        log.map fun call => (key call.1 call.2, value call.1) :=
      contents ▸ List.mem_map_of_mem member
    obtain ⟨call, -, same⟩ := List.mem_map.mp pair
    obtain ⟨isKey', isValue⟩ := Prod.mk.inj same
    rw [← (distinct _ _ _ _ (isKey'.trans isKey)).1]
    exact isValue.symm
  · have lengths := congrArg List.length contents
    rw [List.length_map, List.length_map] at lengths
    rw [lengths, logged.length done]

omit [DecidableEq Thread] in
theorem Holds.congr [Fintype Thread] (holds : Holds key value rounds table)
    (still : Still table table') : Holds key value rounds table' := by
  obtain ⟨inserts, linked⟩ := still
  obtain ⟨undeleted, ordered, keys, values, length⟩ := holds
  rw [← inserts] at ordered keys values length
  exact ⟨by rw [Undeleted, inserts, linked]; exact undeleted, ordered, keys, values, length⟩

/-- What holds while all threads look up. -/
structure Looking (key : Thread → Nat → CString) (rounds : Nat) (base : Shared)
    (state : State Thread Shared (Caller Local)) : Prop where
  looping : Looping rounds state
  calls : ∀ self, (state.locals self).InRound fun i => Looks (key self i) base.inserts
  still : Still base state.shared

omit [DecidableEq Thread] in
theorem Rested.looking (rested : Rested Thread base) (key : Thread → Nat → CString)
    (rounds : Nat) : Looking key rounds base ⟨base, fun _ => begun⟩ :=
  ⟨rested.looping rounds, fun _ _ at' => (by cases at'), rfl, rfl⟩

theorem Looking.step (looking : Looking key rounds base state)
    (stepped : loops (fun self i => .lookup (key self i)) rounds state (self, action) =
      some after) : Looking key rounds base after := by
  have looping := looking.looping.step stepped
  obtain ⟨own, moves, locals⟩ := step_eq_some stepped
  have moved := moved_of_repeats moves
  have goes {table' : Shared} (inner inner' : Local)
      (place : (state.locals self).place = .calls inner) (active : inner.isReturned = false)
      (went : thread state.shared inner action = some (table', inner')) :
      Looks (key self (state.locals self).i) base.inserts inner' ∧ Still state.shared table' := by
    have looks := looking.calls self inner place
    rw [← looking.still.1] at looks ⊢
    exact looks_thread looks active went
  have entered (i : Nat) : Looks (key self i) base.inserts (enter (.lookup (key self i))) := rfl
  have mine := moved.inRound (fun i => Looks (key self i) base.inserts) (entered _)
    fun inner inner' place active went => (goes inner inner' place active went).1
  have still : Still state.shared after.shared := moved.keeps (Still state.shared) ⟨rfl, rfl⟩
    fun inner table' inner' place active went => (goes inner inner' place active went).2
  refine ⟨looping, ?_, still.1.trans looking.still.1, still.2.trans looking.still.2⟩
  rw [locals]
  exact inRound_update (fun self i => Looks (key self i) base.inserts) mine
    fun other _ => looking.calls other

omit [DecidableEq Thread] in
theorem Looking.working (looking : Looking key rounds base state) (undeleted : Undeleted base)
    (few : base.linked.length ≤ most) : Working rounds most state where
  looping := looking.looping
  few := looking.still.2 ▸ few
  busy self inner place := by
    rintro rfl
    exact looking.calls self _ place
  safe self key' p seen place := by
    rw [Undeleted, looking.still.1, looking.still.2]
    exact undeleted

omit [DecidableEq Thread] in
/-- What is looked up is found, with the value of the thread. -/
theorem Looking.found [Fintype Thread] (looking : Looking key rounds base state)
    (holds : Holds key value rounds base)
    (returned : (state.locals self).place = .calls (.returned (.looked word result seen))) :
    result = some (value self) := by
  have looks := looking.calls self _ returned
  obtain ⟨owner, -, outside⟩ := looking.looping.knows returned
  obtain ⟨-, -, answer⟩ := outside rfl
  obtain ⟨rfl, rfl⟩ := looks
  have more := looking.looping.within self
  rw [Caller.Within, returned] at more
  have undeleted : Undeleted state.shared := by
    rw [Undeleted, looking.still.1, looking.still.2]
    exact holds.undeleted
  rw [answer undeleted, latest]
  have member := (holds.keys (key self (state.locals self).i)).mpr ⟨self, _, more, rfl⟩
  obtain ⟨insert, inserted, isKey⟩ := List.mem_map.mp member
  cases search : base.inserts.find? fun insert =>
      insert.key = key self (state.locals self).i with
  | none =>
    have missing := List.find?_eq_none.mp search insert inserted
    simp [isKey] at missing
  | some other =>
    have isKey' := List.find?_some search
    rw [Option.map_some, holds.values other (List.mem_of_find?_eq_some search) self _
      (by simpa using isKey')]

/-- The keys of a bucket whose deletes have not taken their effects. -/
def pendingKeys [Fintype Thread] (key : Thread → Nat → CString) (rounds : Nat)
    (done : Thread → Nat) (index : Nat) : Finset CString :=
  ((Finset.univ ×ˢ Finset.range rounds).filter fun call =>
    done call.1 ≤ call.2 ∧ bucket (key call.1 call.2) = index).image fun call => key call.1 call.2

/-- What holds while all threads delete. -/
structure Clearing [Fintype Thread] (key : Thread → Nat → CString) (rounds : Nat) (base : Shared)
    (state : State Thread Shared (Caller Local)) : Prop where
  looping : Looping rounds state
  calls : ∀ self, (state.locals self).InRound fun i => Deletes (key self i) state.shared
  inserts : state.shared.inserts = base.inserts
  fewer : state.shared.linked.length ≤ base.linked.length
  emptying : ∀ index, Emptying (keysIn state.shared index)
    (pendingKeys key rounds (fun self => (state.locals self).done Local.past) index)
    (keysIn base index).getLast?

omit [DecidableEq Thread] in
theorem mem_pendingKeys [Fintype Thread] {done : Thread → Nat} :
    word ∈ pendingKeys key rounds done index ↔
      ∃ self i, i < rounds ∧ done self ≤ i ∧ bucket word = index ∧ key self i = word := by
  simp only [pendingKeys, Finset.mem_image, Finset.mem_filter, Finset.mem_product,
    Finset.mem_univ, Finset.mem_range, true_and, Prod.exists]
  constructor
  · rintro ⟨self, i, ⟨more, notDone, here⟩, rfl⟩
    exact ⟨self, i, more, notDone, here, rfl⟩
  · rintro ⟨self, i, more, notDone, here, rfl⟩
    exact ⟨self, i, ⟨more, notDone, here⟩, rfl⟩

theorem pendingKeys_next [Fintype Thread] {done : Thread → Nat}
    (distinct : Distinct key)
    (before : done self = i) (index : Nat) :
    pendingKeys key rounds (Function.update done self (i + 1)) index =
      (pendingKeys key rounds done index).erase (key self i) := by
  ext word
  simp only [Finset.mem_erase, mem_pendingKeys]
  constructor
  · rintro ⟨other, j, more, notDone, here, rfl⟩
    by_cases which : other = self
    · subst which
      rw [Function.update_self] at notDone
      refine ⟨fun same => ?_, other, j, more, by omega, here, rfl⟩
      have round := (distinct _ _ _ _ same).2
      omega
    · rw [Function.update_of_ne which] at notDone
      exact ⟨fun same => which (distinct _ _ _ _ same).1, other, j, more, notDone, here, rfl⟩
  · rintro ⟨apart, other, j, more, notDone, here, rfl⟩
    refine ⟨other, j, more, ?_, here, rfl⟩
    by_cases which : other = self
    · subst which
      rw [Function.update_self]
      have different : j ≠ i := fun same => apart (by rw [same])
      omega
    · rwa [Function.update_of_ne which]

omit [DecidableEq Thread] in
theorem Holds.nodup [Fintype Thread] (holds : Holds key value rounds base)
    (inserts : table.inserts = base.inserts) (index : Nat) : (keysIn table index).Nodup := by
  have all : (base.inserts.map Insert.key).Nodup := by
    refine (List.Pairwise.and_mem.mp holds.ordered).imp ?_
    rintro later earlier ⟨member, -, order⟩ rfl
    obtain ⟨self, i, -, isKey⟩ := (holds.keys later).mp member
    exact Nat.lt_irrefl i (order self i i isKey isKey)
  refine all.sublist ?_
  rw [keysIn, entries, inserts]
  exact List.filter_sublist.map _

omit [DecidableEq Thread] in
/-- The node that was linked first has a companion: its thread has another key in the bucket, of a
later round. -/
theorem Holds.companion [Fintype Thread] {done : Thread → Nat}
    (holds : Holds key value rounds base)
    (distinct : Distinct key)
    (paired : ∀ self i, i < rounds →
      ∃ j < rounds, j ≠ i ∧ bucket (key self j) = bucket (key self i))
    (isFirst : (keysIn base index).getLast? = some oldest)
    (member : oldest ∈ pendingKeys key rounds done index) :
    ∃ other ∈ pendingKeys key rounds done index, other ≠ oldest := by
  obtain ⟨self, i, more, notDone, here, rfl⟩ := mem_pendingKeys.mp member
  obtain ⟨j, more', apart, here'⟩ := paired self i more
  have different : key self j ≠ key self i := fun same => apart (distinct _ _ _ _ same).2
  refine ⟨key self j, mem_pendingKeys.mpr ⟨self, j, more', ?_, here'.trans here, rfl⟩, different⟩
  obtain ⟨early, split⟩ := List.getLast?_eq_some_iff.mp isFirst
  obtain ⟨insert, inserted, isKey⟩ := List.mem_map.mp
    ((holds.keys (key self j)).mpr ⟨self, j, more', rfl⟩)
  have linked : insert.node ∈ base.linked := by
    rw [holds.undeleted]
    exact List.mem_map_of_mem inserted
  have inBucket : key self j ∈ keysIn base index :=
    List.mem_map.mpr ⟨insert, mem_entries.mpr
      ⟨inserted, by rw [isKey, here'.trans here], linked⟩, isKey⟩
  have ordered : Ordered key (keysIn base index) :=
    holds.ordered.sublist (List.filter_sublist.map _)
  rw [split] at inBucket ordered
  have isEarly : key self j ∈ early := by
    rcases List.mem_append.mp inBucket with isEarly | isLast
    · exact isEarly
    · exact absurd (List.mem_singleton.mp isLast) different
  have later := (List.pairwise_append.mp ordered).2.2 _ isEarly _ (List.mem_singleton_self _)
    self j i rfl rfl
  omega

omit [DecidableEq Thread] in
theorem Holds.clearing [Fintype Thread] (holds : Holds key value rounds base)
    (rested : Rested Thread base) : Clearing key rounds base ⟨base, fun _ => begun⟩ := by
  refine ⟨rested.looping rounds, fun _ _ at' => (by cases at'), rfl, le_rfl, fun index => ⟨?_, ?_⟩⟩
  · rw [← List.toFinset_card_of_nodup (holds.nodup rfl index)]
    refine Finset.card_le_card fun word member => ?_
    obtain ⟨insert, inside, rfl⟩ := List.mem_map.mp (List.mem_toFinset.mp member)
    obtain ⟨inserted, here, -⟩ := mem_entries.mp inside
    obtain ⟨self, i, more, isKey⟩ := (holds.keys insert.key).mp (List.mem_map_of_mem inserted)
    exact mem_pendingKeys.mpr ⟨self, i, more, Nat.zero_le i, here, isKey.symm⟩
  · exact .inr (.inl rfl)

theorem Clearing.step [Fintype Thread] (clearing : Clearing key rounds base state)
    (holds : Holds key value rounds base)
    (distinct : Distinct key)
    (paired : ∀ self i, i < rounds →
      ∃ j < rounds, j ≠ i ∧ bucket (key self j) = bucket (key self i))
    (stepped : loops (fun self i => .delete (key self i)) rounds state (self, action) =
      some after) : Clearing key rounds base after := by
  have looping := clearing.looping.step stepped
  obtain ⟨own, moves, locals⟩ := step_eq_some stepped
  have moved := moved_of_repeats moves
  have goes (inner inner' : Local) (place : (state.locals self).place = .calls inner)
      (active : inner.isReturned = false)
      (went : thread state.shared inner action = some (after.shared, inner')) :
      Deletes (key self (state.locals self).i) after.shared inner' ∧
        (inner'.past = inner.past ∧ Still state.shared after.shared ∨
          inner.past = false ∧ inner'.past = true ∧
            Skipped (key self (state.locals self).i) state.shared after.shared) := by
    obtain ⟨owner, holding, -⟩ := clearing.looping.knows place
    exact deletes_thread (clearing.calls self inner place) (fun here => (holding here).1) active
      went
  have entered (i : Nat) : Deletes (key self i) after.shared (enter (.delete (key self i))) := rfl
  have mine := moved.inRound (fun i => Deletes (key self i) after.shared) (entered _)
    fun inner inner' place active went => (goes inner inner' place active went).1
  have commits := moved.commits Local.past (Still state.shared)
    (Skipped (key self (state.locals self).i) state.shared) ⟨rfl, rfl⟩ rfl
    past_of_returned fun inner inner' place active went => (goes inner inner' place active went).2
  have calls : ∀ self, (after.locals self).InRound fun i => Deletes (key self i) after.shared := by
    rw [locals]
    refine inRound_update (fun self i => Deletes (key self i) after.shared) mine ?_
    intro other apart inner place
    exact (clearing.calls other inner place).congr fun inside =>
      clearing.looping.still moves apart place inside
  have doneAfter : (fun other => (after.locals other).done Local.past) =
      Function.update (fun other => (state.locals other).done Local.past) self
        (own.done Local.past) := by
    funext other
    rw [locals]
    by_cases which : other = self
    · rw [which, Function.update_self, Function.update_self]
    · rw [Function.update_of_ne which, Function.update_of_ne which]
  rcases commits with ⟨kept, inserts, linked⟩ | ⟨before, past, inserts, fewer, keys⟩
  · refine ⟨looping, calls, inserts.trans clearing.inserts, linked ▸ clearing.fewer,
      fun index => ?_⟩
    have same := clearing.emptying index
    rw [doneAfter, kept, Function.update_eq_self, keysIn, entries_congr ⟨inserts, linked⟩]
    exact same
  · refine ⟨looping, calls, inserts.trans clearing.inserts, fewer.trans clearing.fewer,
      fun index => ?_⟩
    have emptying := clearing.emptying index
    rw [doneAfter, past, pendingKeys_next distinct before, keys]
    by_cases here : index = bucket (key self (state.locals self).i)
    · rw [if_pos here]
      refine emptying.delete (holds.nodup clearing.inserts index) ?_ fun oldest isFirst member =>
        holds.companion distinct paired isFirst member
      have more := (looping.within self).done_le Local.past
      rw [locals, Function.update_self, past] at more
      exact mem_pendingKeys.mpr ⟨self, _, more, before.le, here.symm, rfl⟩
    · rw [if_neg here, Finset.erase_eq_of_notMem]
      · exact emptying
      · intro member
        obtain ⟨-, -, -, -, there, -⟩ := mem_pendingKeys.mp member
        exact here there.symm

omit [DecidableEq Thread] in
theorem Clearing.working [Fintype Thread] (clearing : Clearing key rounds base state)
    (few : base.linked.length ≤ most) : Working rounds most state where
  looping := clearing.looping
  few := clearing.fewer.trans few
  busy self inner place := by
    rintro rfl
    exact clearing.calls self _ place
  safe self key' p seen place := (clearing.calls self _ place).elim

omit [DecidableEq Thread] in
theorem Clearing.empty [Fintype Thread] (clearing : Clearing key rounds base state)
    (exited : ∀ self, (state.locals self).place = .exited) : state.shared.size = 0 := by
  obtain ⟨-, ⟨owner, wired⟩, counts, -⟩ := clearing.looping.rested exited
  have empty (index : Nat) : chain state.shared index = [] := by
    have none : pendingKeys key rounds (fun self => (state.locals self).done Local.past) index =
        ∅ := by
      refine Finset.eq_empty_of_forall_notMem fun word member => ?_
      obtain ⟨self, i, more, notDone, -⟩ := mem_pendingKeys.mp member
      have done := (clearing.looping.within self).done_eq (exited self) Local.past
      omega
    have fits := (clearing.emptying index).fits
    rw [none, Finset.card_empty, keysIn, List.length_map] at fits
    rw [chain_entries, List.eq_nil_of_length_eq_zero (Nat.le_zero.mp fits), List.map_nil]
  have nothing : state.shared.linked = [] := by
    have all := wired.perm_chains
    rw [List.flatMap_eq_nil_iff.mpr fun index _ => empty index] at all
    exact all.eq_nil
  rw [counts, nothing]
  rfl

end Phases

end CssLab.Hash.Threads
