import CssLab.Hash.Table
import CssLab.Lib.Ledger

/-! The calls of `partD/concur-hash.c` by any number of threads, one memory access at a
time. -/

namespace CssLab.Hash.Threads

open Transition Interleaving

/-- What one `hash_insert` put into the table, and where. -/
structure Insert where
  node : Address
  key : CString
  value : CString
  deriving DecidableEq

/-- `hash_t` and its heap, and what the program does not keep: the inserts in lock order,
the last one first, and the nodes that are in the table. -/
structure Shared where
  mu : Bool
  buckets : List Address
  numBuckets : Nat
  size : BitVec 32
  heap : Ledger Node
  inserts : List Insert
  linked : List Address

/-- The points of `hash_insert` inside the critical section. -/
inductive Linking
  | loadBucket
  | storeNext (head : Address)
  | storeBucket
  | loadSize
  | storeSize (seen : BitVec 32)
  | unlock

/-- The points of `hash_lookup` inside the critical section. -/
inductive Searching
  | loadBucket
  | test (p : Address)
  | compare (p : Address)
  | loadNext (p : Address)
  | unlockFound (p : Address)
  | unlockMissing

/-- The points of `hash_delete` inside the critical section. -/
inductive Deleting
  | loadBucket
  | test (prev p : Address)
  | compare (prev p : Address)
  | loadNext (prev p : Address)
  | loadLink (prev p : Address)
  | storeLink (prev p next : Address)
  | free (p : Address)
  | loadSize
  | storeSize (seen : BitVec 32)
  | unlock
  | unlockMissing

inductive Call
  | insert (key value : CString)
  | lookup (key : CString)
  | delete (key : CString)

/-- The return of a call. What the program does not know: the inserts before a lookup in
lock order; the nodes in the table when the other two took the mutex and gave it back. -/
inductive Outcome
  | inserted (before after : List Address)
  | looked (key : CString) (found : Option CString) (seen : List Insert)
  | deleted (result : BitVec 32) (before after : List Address)

/-- A thread between its calls, in one, or at the return of one. -/
inductive Local
  | idle
  | malloc (key value : CString)
  | setKey (key value : CString) (newNode : Address)
  | setValue (key value : CString) (newNode : Address)
  | clearNext (key value : CString) (newNode : Address)
  | insertLock (key value : CString) (newNode : Address)
  | linking (key value : CString) (newNode : Address) (point : Linking) (before : List Address)
  | lookupLock (key : CString)
  | searching (key : CString) (point : Searching) (seen : List Insert)
  | loadValue (key : CString) (p : Address) (seen : List Insert)
  | deleteLock (key : CString)
  | deleting (key : CString) (point : Deleting) (before : List Address)
  | returned (outcome : Outcome)

/-- What the program does not decide: the next call, what `malloc` gives, and what is
read where a node was that has been freed. -/
inductive Action
  | call (call : Call)
  | malloc (newNode : Address) (garbage : Node)
  | stale (garbage : CString)
  | go

/-- A `hash_t` whose bytes are all zero. -/
def zeroed (heap : Heap Node) : Shared where
  mu := false
  buckets := []
  numBuckets := 0
  size := 0
  heap := .of heap
  inserts := []
  linked := []

def hashInit (table : Shared) (numBuckets : Nat) : Shared :=
  { table with mu := false, buckets := List.replicate numBuckets 0, numBuckets }

/-- `pthread_mutex_lock` returns once the mutex is free. -/
def lock (table : Shared) (own : Local) : Option (Shared × Local) :=
  if table.mu then none else some ({ table with mu := true }, own)

def unlock (table : Shared) (outcome : Outcome) : Option (Shared × Local) :=
  some ({ table with mu := false }, .returned outcome)

/-- A store to fields of a node. -/
def store (table : Shared) (node : Address) (change : Node → Node) (own : Local) :
    Option (Shared × Local) :=
  (table.heap.modify node change).map fun heap => ({ table with heap }, own)

def hashInsert (table : Shared) (key value : CString) (newNode : Address) (point : Linking)
    (before : List Address) : Option (Shared × Local) :=
  let next (point : Linking) : Local := .linking key value newNode point before
  match point with
  | .loadBucket => table.buckets[bucket key]?.map fun head => (table, next (.storeNext head))
  | .storeNext head => store table newNode (fun node => { node with next := head })
      (next .storeBucket)
  | .storeBucket =>
    some ({ table with
      buckets := table.buckets.set (bucket key) newNode
      inserts := ⟨newNode, key, value⟩ :: table.inserts
      linked := newNode :: table.linked }, next .loadSize)
  | .loadSize => some (table, next (.storeSize table.size))
  | .storeSize seen => some ({ table with size := seen + 1 }, next .unlock)
  | .unlock => unlock table (.inserted before table.linked)

def hashLookup (table : Shared) (key : CString) (point : Searching) (seen : List Insert) :
    Option (Shared × Local) :=
  let next (point : Searching) : Local := .searching key point seen
  match point with
  | .loadBucket => table.buckets[bucket key]?.map fun p => (table, next (.test p))
  | .test p => some (table, next (if p = 0 then .unlockMissing else .compare p))
  | .compare p =>
    (table.heap.field Node.key p).map fun found =>
      (table, next (if found = key then .unlockFound p else .loadNext p))
  | .loadNext p => (table.heap.field Node.next p).map fun p => (table, next (.test p))
  | .unlockFound p => some ({ table with mu := false }, .loadValue key p seen)
  | .unlockMissing => unlock table (.looked key none seen)

/-- The loop moves on while the key of `p` is the given one. -/
def hashDelete (table : Shared) (key : CString) (point : Deleting) (before : List Address) :
    Option (Shared × Local) :=
  let next (point : Deleting) : Local := .deleting key point before
  match point with
  | .loadBucket => table.buckets[bucket key]?.map fun p => (table, next (.test 0 p))
  | .test prev p => some (table, next (if p = 0 then .unlockMissing else .compare prev p))
  | .compare prev p =>
    (table.heap.field Node.key p).map fun found =>
      (table, next (if found = key then .loadNext prev p else .loadLink prev p))
  | .loadNext _ p => (table.heap.field Node.next p).map fun after => (table, next (.test p after))
  | .loadLink prev p =>
    (table.heap.field Node.next p).map fun after => (table, next (.storeLink prev p after))
  | .storeLink prev p after =>
    let table' := { table with linked := table.linked.erase p }
    if prev = 0 then
      some ({ table' with buckets := table.buckets.set (bucket key) after }, next (.free p))
    else store table' prev (fun node => { node with next := after }) (next (.free p))
  | .free p => (table.heap.free p).map fun heap => ({ table with heap }, next .loadSize)
  | .loadSize => some (table, next (.storeSize table.size))
  | .storeSize seen => some ({ table with size := seen - 1 }, next .unlock)
  | .unlock => unlock table (.deleted 0 before table.linked)
  | .unlockMissing => unlock table (.deleted 1 before table.linked)

/-- The first point of a call. -/
def enter : Call → Local
  | .insert key value => .malloc key value
  | .lookup key => .lookupLock key
  | .delete key => .deleteLock key

/-- One memory access of a thread, or the begin or the end of a call. The read of
`p->value` in `hash_lookup` comes after the mutex was given back. -/
def thread (table : Shared) (own : Local) (action : Action) : Option (Shared × Local) :=
  match own, action with
  | .idle, .call call => some (table, enter call)
  | .malloc key value, .malloc newNode garbage =>
    (table.heap.malloc newNode garbage).map fun heap =>
      ({ table with heap }, .setKey key value newNode)
  | .setKey key value newNode, .go =>
    store table newNode (fun node => { node with key }) (.setValue key value newNode)
  | .setValue key value newNode, .go =>
    store table newNode (fun node => { node with value }) (.clearNext key value newNode)
  | .clearNext key value newNode, .go =>
    store table newNode (fun node => { node with next := 0 }) (.insertLock key value newNode)
  | .insertLock key value newNode, .go =>
    lock table (.linking key value newNode .loadBucket table.linked)
  | .linking key value newNode point before, .go =>
    hashInsert table key value newNode point before
  | .lookupLock key, .go => lock table (.searching key .loadBucket table.inserts)
  | .searching key point seen, .go => hashLookup table key point seen
  | .loadValue key p seen, .go =>
    (table.heap.field Node.value p).map fun value =>
      (table, .returned (.looked key (some value) seen))
  | .loadValue key p seen, .stale garbage =>
    if p ∈ table.heap.freed then some (table, .returned (.looked key (some garbage) seen))
    else none
  | .deleteLock key, .go => lock table (.deleting key .loadBucket table.linked)
  | .deleting key point before, .go => hashDelete table key point before
  | .returned _, .go => some (table, .idle)
  | _, _ => none

/-- One step of any of the threads that use the table. -/
abbrev threads [DecidableEq Thread] :
    State Thread Shared Local → Thread × Action → Option (State Thread Shared Local) :=
  Interleaving.step fun _ => thread

/-- All threads before their first calls on a table with 128 buckets. -/
def start (heap : Heap Node) : State Thread Shared Local :=
  ⟨hashInit (zeroed heap) 128, fun _ => .idle⟩

/-- The value of the last insert of the key. -/
def latest (inserts : List Insert) (key : CString) : Option CString :=
  (inserts.find? fun insert => insert.key = key).map Insert.value

/-! ### What a step can do -/

/-- In `hash_delete`. -/
def Local.deletes : Local → Bool
  | .deleteLock _ | .deleting _ _ _ => true
  | _ => false

/-- A step that neither links nor takes out nor frees a node. -/
structure Calm (table : Shared) (own : Local) (table' : Shared) (own' : Local) : Prop where
  inserts : table'.inserts = table.inserts
  linked : table'.linked = table.linked
  freed : table'.heap.freed = table.heap.freed
  found : ∀ key p seen, own' = .loadValue key p seen → own = .searching key (.unlockFound p) seen
  enters : own'.deletes → own.deletes ∨ own = .idle

/-- The steps that do: the store to the bucket, the one that unlinks, and `free`. -/
inductive Effect (table : Shared) : Local → Shared → Local → Prop
  | calm (calm : Calm table own table' own') : Effect table own table' own'
  | link (key value : CString) (newNode : Address) (before : List Address) :
      Effect table (.linking key value newNode .storeBucket before) { table with
        buckets := table.buckets.set (bucket key) newNode
        inserts := ⟨newNode, key, value⟩ :: table.inserts
        linked := newNode :: table.linked } (.linking key value newNode .loadSize before)
  | unlink (key : CString) (prev p after : Address) (before : List Address)
      (inserts : table'.inserts = table.inserts) (linked : table'.linked = table.linked.erase p)
      (freed : table'.heap.freed = table.heap.freed) :
      Effect table (.deleting key (.storeLink prev p after) before) table'
        (.deleting key (.free p) before)
  | free (key : CString) (p : Address) (before : List Address)
      (released : table.heap.free p = some heap) :
      Effect table (.deleting key (.free p) before) { table with heap }
        (.deleting key .loadSize before)

variable {table table' : Shared} {own own' : Local}

theorem store_calm (moved : store table node change next = some (table', own'))
    (other : ∀ key p seen, next ≠ .loadValue key p seen)
    (enters : next.deletes → own.deletes) : Effect table own table' own' := by
  obtain ⟨heap, done, same⟩ := Option.map_eq_some_iff.mp moved
  cases same
  exact .calm ⟨rfl, rfl, (Ledger.modify_eq_some done).2,
    fun key p seen same => absurd same (other key p seen), fun here => .inl (enters here)⟩

theorem lock_calm (moved : lock table next = some (table', own'))
    (other : ∀ key p seen, next ≠ .loadValue key p seen)
    (enters : next.deletes → own.deletes) : Effect table own table' own' := by
  unfold lock at moved
  split at moved <;> cases moved
  exact .calm ⟨rfl, rfl, rfl, fun key p seen same => absurd same (other key p seen),
    fun here => .inl (enters here)⟩

theorem hashInsert_effect
    (moved : hashInsert table key value newNode point before = some (table', own')) :
    Effect table (.linking key value newNode point before) table' own' := by
  cases point with
  | loadBucket =>
    obtain ⟨head, -, same⟩ := Option.map_eq_some_iff.mp moved
    cases same
    exact .calm ⟨rfl, rfl, rfl, nofun, nofun⟩
  | storeNext head => exact store_calm moved nofun nofun
  | storeBucket =>
    cases moved
    exact .link key value newNode before
  | loadSize | storeSize | unlock =>
    cases moved
    exact .calm ⟨rfl, rfl, rfl, nofun, nofun⟩

theorem hashLookup_effect (moved : hashLookup table key point seen = some (table', own')) :
    Effect table (.searching key point seen) table' own' := by
  cases point with
  | loadBucket | compare | loadNext =>
    obtain ⟨found, -, same⟩ := Option.map_eq_some_iff.mp moved
    cases same
    exact .calm ⟨rfl, rfl, rfl, nofun, nofun⟩
  | test | unlockMissing =>
    cases moved
    exact .calm ⟨rfl, rfl, rfl, nofun, nofun⟩
  | unlockFound p =>
    cases moved
    refine .calm ⟨rfl, rfl, rfl, fun key p seen same => ?_, nofun⟩
    cases same
    rfl

theorem hashDelete_effect (moved : hashDelete table key point before = some (table', own')) :
    Effect table (.deleting key point before) table' own' := by
  cases point with
  | loadBucket | compare | loadNext | loadLink =>
    obtain ⟨found, -, same⟩ := Option.map_eq_some_iff.mp moved
    cases same
    exact .calm ⟨rfl, rfl, rfl, nofun, fun _ => .inl rfl⟩
  | test | loadSize | storeSize | unlock | unlockMissing =>
    cases moved
    exact .calm ⟨rfl, rfl, rfl, nofun, fun _ => .inl rfl⟩
  | storeLink prev p after =>
    simp only [hashDelete] at moved
    split at moved
    · cases moved
      exact .unlink key prev p after before rfl rfl rfl
    · obtain ⟨heap, done, same⟩ := Option.map_eq_some_iff.mp moved
      cases same
      exact .unlink key prev p after before rfl rfl (Ledger.modify_eq_some done).2
  | free p =>
    obtain ⟨heap, released, same⟩ := Option.map_eq_some_iff.mp moved
    cases same
    exact .free key p before released

theorem thread_effect (moved : thread table own action = some (table', own')) :
    Effect table own table' own' := by
  cases action with
  | call call =>
    cases own with
    | idle =>
      cases moved
      cases call <;> exact .calm ⟨rfl, rfl, rfl, nofun, fun _ => .inr rfl⟩
    | _ => cases moved
  | malloc newNode garbage =>
    cases own with
    | malloc key value =>
      obtain ⟨heap, done, same⟩ := Option.map_eq_some_iff.mp moved
      cases same
      exact .calm ⟨rfl, rfl, (Ledger.malloc_eq_some done).2.2, nofun, nofun⟩
    | _ => cases moved
  | stale garbage =>
    cases own with
    | loadValue key p seen =>
      simp only [thread] at moved
      split at moved <;> cases moved
      exact .calm ⟨rfl, rfl, rfl, nofun, nofun⟩
    | _ => cases moved
  | go =>
    cases own with
    | idle | malloc => cases moved
    | setKey | setValue | clearNext => exact store_calm moved nofun nofun
    | insertLock | lookupLock => exact lock_calm moved nofun nofun
    | deleteLock => exact lock_calm moved nofun fun _ => rfl
    | linking => exact hashInsert_effect moved
    | searching => exact hashLookup_effect moved
    | deleting => exact hashDelete_effect moved
    | loadValue =>
      obtain ⟨value, -, same⟩ := Option.map_eq_some_iff.mp moved
      cases same
      exact .calm ⟨rfl, rfl, rfl, nofun, nofun⟩
    | returned =>
      cases moved
      exact .calm ⟨rfl, rfl, rfl, nofun, nofun⟩

/-- Only `free` frees. -/
theorem Effect.freed (effect : Effect table own table' own') :
    table'.heap.freed = table.heap.freed ∨ ∃ key p before,
      own = .deleting key (.free p) before ∧ table'.heap.freed = p :: table.heap.freed := by
  cases effect with
  | calm calm => exact .inl calm.freed
  | link => exact .inl rfl
  | unlink _ _ _ _ _ _ _ freed => exact .inl freed
  | free key p before released =>
    exact .inr ⟨key, p, before, rfl, (Ledger.free_eq_some released).2⟩

/-- A lookup that has still to read a value has just found its node. -/
theorem Effect.found (effect : Effect table own table' own')
    (arrived : own' = .loadValue key p seen) :
    own = .searching key (.unlockFound p) seen ∧ table'.heap.freed = table.heap.freed := by
  cases effect with
  | calm calm => exact ⟨calm.found key p seen arrived, calm.freed⟩
  | link | unlink | free => cases arrived

end CssLab.Hash.Threads
