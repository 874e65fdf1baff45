import CssLab.Hash.Chains
import CssLab.Lib.Mutex

namespace CssLab.Hash.Threads

open Chain Interleaving

variable {Thread : Type*} {owner owner' : Address → Option Thread} {self : Thread}
  {table table' : Shared} {own own' : Local}

/-- This number is the number of nodes in the table. -/
def Counts (table : Shared) (size : BitVec 32) : Prop :=
  size = BitVec.ofNat 32 table.linked.length

/-- A call that adds a node, takes one out, or does neither, as its result says. -/
def Outcome.Changes : Outcome → Prop
  | .inserted before after => ∃ node, after = node :: before
  | .looked _ _ _ => True
  | .deleted result before after =>
    result = 0 ∧ (∃ node ∈ before, after = before.erase node) ∨ result = 1 ∧ after = before

/-- A lookup returns what the last insert before it put there, if nothing was taken out. -/
def Outcome.Answers (table : Shared) : Outcome → Prop
  | .looked key found seen =>
    seen <:+ table.inserts ∧ (Undeleted table → found = latest seen key)
  | _ => True

/-- A node of the thread's own, with its content. -/
def Owns (owner : Address → Option Thread) (self : Thread) (table : Shared) (node : Address)
    (content : Node → Prop) : Prop :=
  owner node = some self ∧ ∃ cell, table.heap.cells node = some cell ∧ content cell

/-- What a thread knows that does not have the mutex. -/
def Outside (owner : Address → Option Thread) (self : Thread) (table : Shared) : Local → Prop
  | .setKey _ _ newNode => Owns owner self table newNode fun _ => True
  | .setValue key _ newNode => Owns owner self table newNode fun node => node.key = key
  | .clearNext key value newNode | .insertLock key value newNode =>
    Owns owner self table newNode fun node => node.key = key ∧ node.value = value
  | .loadValue key p seen =>
    seen <:+ table.inserts ∧ (Undeleted table → owner p = none ∧
      ∃ value, table.heap.field Node.value p = some value ∧ latest seen key = some value)
  | .returned outcome => outcome.Changes ∧ outcome.Answers table
  | _ => True

/-- The nodes before `p` in the bucket of the key; `p` may be the end. -/
def Reaches (table : Shared) (key : CString) (front : List Address) (p : Address) : Prop :=
  ∃ rest, chain table (bucket key) = front ++ rest ∧ p = rest.head?.getD 0

/-- The same when `p` is a node. -/
def Stands (table : Shared) (key : CString) (front : List Address) (p : Address) : Prop :=
  ∃ rest, chain table (bucket key) = front ++ p :: rest

/-- None of the nodes has the key. -/
def Others (table : Shared) (key : CString) (front : List Address) : Prop :=
  ∀ node ∈ front, table.heap.field Node.key node ≠ some key

def Linking.Progress (owner : Address → Option Thread) (self : Thread) (table : Shared)
    (key value : CString) (newNode : Address) (before : List Address) : Linking → Prop
  | .loadBucket =>
    Owns owner self table newNode (fun node => node.key = key ∧ node.value = value) ∧
      before = table.linked ∧ Counts table table.size
  | .storeNext head =>
    Owns owner self table newNode (fun node => node.key = key ∧ node.value = value) ∧
      table.buckets[bucket key]? = some head ∧ before = table.linked ∧ Counts table table.size
  | .storeBucket =>
    (∃ head, Owns owner self table newNode (fun node => node = ⟨key, value, head⟩) ∧
      table.buckets[bucket key]? = some head) ∧ before = table.linked ∧ Counts table table.size
  | .loadSize => (∃ node, table.linked = node :: before) ∧ Counts table (table.size + 1)
  | .storeSize seen => (∃ node, table.linked = node :: before) ∧ Counts table (seen + 1)
  | .unlock => (∃ node, table.linked = node :: before) ∧ Counts table table.size

def Searching.Progress (table : Shared) (key : CString) (seen : List Insert) :
    Searching → Prop
  | .loadBucket => seen = table.inserts ∧ Counts table table.size
  | .test p => seen = table.inserts ∧ Counts table table.size ∧
    ∃ front, Reaches table key front p ∧ Others table key front
  | .compare p => seen = table.inserts ∧ Counts table table.size ∧
    ∃ front, Stands table key front p ∧ Others table key front
  | .loadNext p => seen = table.inserts ∧ Counts table table.size ∧
    ∃ front, Stands table key front p ∧ Others table key (front ++ [p])
  | .unlockFound p => seen = table.inserts ∧ Counts table table.size ∧
    ∃ front, Stands table key front p ∧ Others table key front ∧
      table.heap.field Node.key p = some key
  | .unlockMissing => seen = table.inserts ∧ Counts table table.size ∧
    Others table key (chain table (bucket key))

def Deleting.Progress (owner : Address → Option Thread) (self : Thread) (table : Shared)
    (key : CString) (before : List Address) : Deleting → Prop
  | .loadBucket | .unlockMissing => before = table.linked ∧ Counts table table.size
  | .test prev p => before = table.linked ∧ Counts table table.size ∧
    ∃ front, Reaches table key front p ∧ prev = front.getLast?.getD 0
  | .compare prev p | .loadNext prev p | .loadLink prev p =>
    before = table.linked ∧ Counts table table.size ∧
      ∃ front, Stands table key front p ∧ prev = front.getLast?.getD 0
  | .storeLink prev p after => before = table.linked ∧ Counts table table.size ∧
    ∃ front, Stands table key front p ∧ prev = front.getLast?.getD 0 ∧
      table.heap.field Node.next p = some after
  | .free p => (∃ node ∈ before, table.linked = before.erase node) ∧
    Counts table (table.size - 1) ∧ Owns owner self table p fun _ => True
  | .loadSize =>
    (∃ node ∈ before, table.linked = before.erase node) ∧ Counts table (table.size - 1)
  | .storeSize seen =>
    (∃ node ∈ before, table.linked = before.erase node) ∧ Counts table (seen - 1)
  | .unlock => (∃ node ∈ before, table.linked = before.erase node) ∧ Counts table table.size

/-- How far the holder of the mutex has come. -/
def Progress (owner : Address → Option Thread) (self : Thread) (table : Shared) :
    Local → Prop
  | .linking key value newNode point before =>
    point.Progress owner self table key value newNode before
  | .searching key point seen => point.Progress table key seen
  | .deleting key point before => point.Progress owner self table key before
  | _ => True

/-- The node that has been taken out and not been freed yet. -/
def Local.pending : Local → List Address
  | .deleting _ (.free p) _ => [p]
  | _ => []

/-- Between the return of `pthread_mutex_lock` and `pthread_mutex_unlock`. -/
def Local.inside : Local → Bool
  | .linking _ _ _ _ _ | .searching _ _ _ | .deleting _ _ _ => true
  | _ => false

def guard : Guard Thread Shared Local (Address → Option Thread) where
  held := Shared.mu
  inside := Local.inside
  resource owner table := Wired owner [] table ∧ Counts table table.size
  holding owner self table own := Wired owner own.pending table ∧ Progress owner self table own
  outside := Outside

/-- What a step leaves to the other threads: their own nodes, and of the nodes in the
table, until one is taken out, the values. -/
structure Leaves (mover : Thread) (owner : Address → Option Thread) (table : Shared)
    (owner' : Address → Option Thread) (table' : Shared) : Prop where
  own : ∀ other node cell, other ≠ mover → owner node = some other →
    table.heap.cells node = some cell → owner' node = some other ∧
      table'.heap.cells node = some cell
  inserts : table.inserts <:+ table'.inserts
  undeleted : Undeleted table' → Undeleted table ∧ ∀ node value, owner node = none →
    table.heap.field Node.value node = some value →
      owner' node = none ∧ table'.heap.field Node.value node = some value

theorem Leaves.owns (leaves : Leaves self owner table owner' table') (apart : other ≠ self)
    (owns : Owns owner other table node content) : Owns owner' other table' node content := by
  obtain ⟨owned, cell, found, holds⟩ := owns
  obtain ⟨owned', found'⟩ := leaves.own other node cell apart owned found
  exact ⟨owned', cell, found', holds⟩

theorem Leaves.answers {outcome : Outcome} (leaves : Leaves self owner table owner' table')
    (answers : outcome.Answers table) : outcome.Answers table' := by
  cases outcome with
  | inserted before after => trivial
  | deleted result before after => trivial
  | looked key found seen =>
    exact ⟨answers.1.trans leaves.inserts, fun still => answers.2 (leaves.undeleted still).1⟩

theorem Leaves.yields (leaves : Leaves self owner table owner' table') :
    guard.Yields self owner table owner' table' := by
  intro other theirs apart known
  cases theirs with
  | setKey key value newNode => exact leaves.owns apart known
  | setValue key value newNode => exact leaves.owns apart known
  | clearNext key value newNode => exact leaves.owns apart known
  | insertLock key value newNode => exact leaves.owns apart known
  | loadValue key p seen =>
    refine ⟨known.1.trans leaves.inserts, fun still => ?_⟩
    obtain ⟨before, values⟩ := leaves.undeleted still
    obtain ⟨published, value, found, isLatest⟩ := known.2 before
    obtain ⟨published', found'⟩ := values p value published found
    exact ⟨published', value, found', isLatest⟩
  | returned outcome => exact ⟨known.1, leaves.answers known.2⟩
  | _ => trivial

/-- A step that changes own nodes only, and not what is in the table. -/
theorem Leaves.of_spares (spares : Spares self owner table.heap owner' table'.heap)
    (inserts : table'.inserts = table.inserts) (linked : table'.linked = table.linked) :
    Leaves self owner table owner' table' where
  own other node cell apart owned found := by
    have notMine : owner node ≠ some self := by
      rw [owned]
      exact fun same => apart (Option.some.inj same)
    obtain ⟨owned', found'⟩ := spares node cell found notMine
    exact ⟨owned'.trans owned, found'⟩
  inserts := by
    rw [inserts]
  undeleted still := by
    rw [Undeleted, inserts, linked] at still
    refine ⟨still, fun node value published found => ?_⟩
    have notMine : owner node ≠ some self := by
      rw [published]
      nofun
    obtain ⟨published', found'⟩ := spares.field Node.value found notMine
    exact ⟨published'.trans published, found'⟩

/-! ### Steps of a thread outside -/

theorem others_spared (same : ∀ node ∈ table.linked,
      table'.heap.field Node.key node = table.heap.field Node.key node)
    (split : chain table (bucket key) = front ++ rest) (others : Others table key front) :
    Others table' key front := by
  intro node member found
  have inChain : node ∈ chain table (bucket key) := by simp [split, member]
  have linked := Wired.mem_linked inChain
  exact others node member (by rw [← same node linked, found])

/-- What the holder knows survives what others do to their own nodes. -/
theorem progress_spared (wired : Wired owner pending table) (apart : other ≠ self)
    {heap : Ledger Node} (spares : Spares self owner table.heap owner' heap)
    (progress : Progress owner other table own) :
    Progress owner' other { table with heap } own := by
  have leaves : Leaves self owner table owner' { table with heap } := .of_spares spares rfl rfl
  have kept {Value : Type} (get : Node → Value) : ∀ node ∈ table.linked,
      heap.field get node = table.heap.field get node := by
    intro node linked
    obtain ⟨published, cell, allocated⟩ := wired.allocated linked
    have notMine : owner node ≠ some self := by
      rw [published]
      nofun
    rw [Heap.field, (spares node cell allocated notMine).2, Heap.field, allocated]
  have linked {key : CString} {front : List Address} {node : Address}
      (stands : Stands table key front node) : node ∈ table.linked := by
    obtain ⟨rest, split⟩ := stands
    have inChain : node ∈ chain table (bucket key) := by simp [split]
    exact Wired.mem_linked inChain
  have others {key : CString} {front rest : List Address}
      (split : chain table (bucket key) = front ++ rest) (others : Others table key front) :
      Others { table with heap } key front := others_spared (kept Node.key) split others
  cases own with
  | linking key value newNode point before =>
    cases point with
    | loadBucket => exact ⟨leaves.owns apart progress.1, progress.2⟩
    | storeNext head => exact ⟨leaves.owns apart progress.1, progress.2⟩
    | storeBucket =>
      obtain ⟨⟨head, owns, first⟩, rest⟩ := progress
      exact ⟨⟨head, leaves.owns apart owns, first⟩, rest⟩
    | _ => exact progress
  | searching key point seen =>
    cases point with
    | loadBucket => exact progress
    | test p =>
      obtain ⟨isSeen, counts, front, ⟨rest, split, isHead⟩, no⟩ := progress
      exact ⟨isSeen, counts, front, ⟨rest, split, isHead⟩, others split no⟩
    | compare p =>
      obtain ⟨isSeen, counts, front, ⟨rest, split⟩, no⟩ := progress
      exact ⟨isSeen, counts, front, ⟨rest, split⟩, others split no⟩
    | loadNext p =>
      obtain ⟨isSeen, counts, front, ⟨rest, split⟩, no⟩ := progress
      have split' : chain table (bucket key) = (front ++ [p]) ++ rest := by simp [split]
      exact ⟨isSeen, counts, front, ⟨rest, split⟩, others split' no⟩
    | unlockFound p =>
      obtain ⟨isSeen, counts, front, ⟨rest, split⟩, no, found⟩ := progress
      refine ⟨isSeen, counts, front, ⟨rest, split⟩, others split no, ?_⟩
      exact (kept Node.key p (linked ⟨rest, split⟩)).trans found
    | unlockMissing =>
      obtain ⟨isSeen, counts, no⟩ := progress
      exact ⟨isSeen, counts, others (List.append_nil _).symm no⟩
  | deleting key point before =>
    cases point with
    | storeLink prev p after =>
      obtain ⟨isBefore, counts, front, stands, isPrev, link⟩ := progress
      exact ⟨isBefore, counts, front, stands, isPrev,
        (kept Node.next p (linked stands)).trans link⟩
    | free p => exact ⟨progress.1, progress.2.1, leaves.owns apart progress.2.2⟩
    | _ => exact progress
  | _ => trivial

theorem away_moves {heap : Ledger Node} (before : own.inside = false)
    (after : own'.inside = false) (freed : heap.freed = table.heap.freed)
    (spares : Spares self owner table.heap owner' heap)
    (mine : Outside owner' self { table with heap } own') :
    guard.Moves self owner table own { table with heap } own' := by
  have leaves : Leaves self owner table owner' { table with heap } := .of_spares spares rfl rfl
  refine .away owner' before after rfl mine (fun ⟨wired, counts⟩ => ⟨?_, counts⟩) ?_ leaves.yields
  · exact wired.spared spares rfl rfl rfl (by rw [freed])
  · rintro other theirs apart ⟨wired, progress⟩
    exact ⟨wired.spared spares rfl rfl rfl (by rw [freed]),
      progress_spared wired apart spares progress⟩

theorem store_own {change : Node → Node} (owns : Owns owner self table node content)
    (moved : store table node change next = some (table', own')) :
    ∃ heap : Ledger Node, table' = { table with heap } ∧ own' = next ∧
      heap.freed = table.heap.freed ∧ Spares self owner table.heap owner heap ∧
      Owns owner self { table with heap } node
        fun cell => ∃ old, content old ∧ cell = change old := by
  obtain ⟨heap, done, same⟩ := Option.map_eq_some_iff.mp moved
  cases same
  obtain ⟨modified, freed⟩ := Ledger.modify_eq_some done
  obtain ⟨held, cell, found, holds⟩ := owns
  obtain ⟨cell', notNull, found', put⟩ := Heap.modify_eq_some modified
  obtain rfl := Option.some.inj (found'.symm.trans found)
  have cells : heap.cells = Function.update table.heap.cells node (some (change cell')) := by
    rw [put]
    rfl
  refine ⟨heap, rfl, rfl, freed, ?_, held, change cell', ?_, cell', holds, rfl⟩
  · intro other kept allocated notMine
    have apart : other ≠ node := by
      rintro rfl
      exact notMine held
    exact ⟨rfl, by rw [cells, Function.update_of_ne apart, allocated]⟩
  · change heap.cells node = _
    rw [cells, Function.update_self]

theorem Owns.imp {content content' : Node → Prop} (owns : Owns owner self table node content)
    (implies : ∀ cell, content cell → content' cell) : Owns owner self table node content' := by
  obtain ⟨held, cell, found, holds⟩ := owns
  exact ⟨held, cell, found, implies cell holds⟩

/-! ### Steps of the holder -/

theorem within_moves (before : own.inside = true) (after : own'.inside = true)
    (pending : own'.pending = own.pending) (sized : ∃ size, table' = { table with size })
    (wired : Wired owner own.pending table) (progress : Progress owner self table' own') :
    guard.Moves self owner table own table' own' := by
  obtain ⟨size, rfl⟩ := sized
  have spares := Spares.refl self owner table.heap
  exact .within owner before after rfl
    ⟨wired.spared spares rfl rfl rfl (by rw [pending]), progress⟩
    (Leaves.of_spares spares rfl rfl).yields

theorem lock_moves (before : own.inside = false) (after : next.inside = true)
    (pending : next.pending = []) (moved : lock table next = some (table', own'))
    (progress : Counts table table.size → Progress owner self { table with mu := true } next) :
    guard.Moves self owner table own table' own' := by
  unfold lock at moved
  split at moved <;> cases moved
  rename_i locked
  have free : table.mu = false := by simpa using locked
  have spares := Spares.refl self owner table.heap
  refine .lock before after free rfl fun ⟨wired, counts⟩ =>
    ⟨owner, ⟨?_, progress counts⟩, (Leaves.of_spares spares rfl rfl).yields⟩
  rw [pending]
  exact wired.spared spares rfl rfl rfl rfl

theorem unlock_moves (before : own.inside = true) (after : own'.inside = false)
    (wired : Wired owner [] table) (counts : Counts table table.size)
    (mine : Outside owner self { table with mu := false } own') :
    guard.Moves self owner table own { table with mu := false } own' := by
  have spares := Spares.refl self owner table.heap
  exact .unlock owner before after rfl ⟨wired.spared spares rfl rfl rfl rfl, counts⟩ mine
    (Leaves.of_spares spares rfl rfl).yields

theorem linking_moves {point : Linking} (wired : Wired owner [] table)
    (progress : point.Progress owner self table key value newNode before)
    (moved : hashInsert table key value newNode point before = some (table', own')) :
    guard.Moves self owner table (.linking key value newNode point before) table' own' := by
  cases point with
  | loadBucket =>
    obtain ⟨head, found, same⟩ := Option.map_eq_some_iff.mp moved
    cases same
    obtain ⟨owns, isBefore, counts⟩ := progress
    exact within_moves rfl rfl rfl ⟨_, rfl⟩ wired ⟨owns, found, isBefore, counts⟩
  | storeNext head =>
    obtain ⟨owns, first, isBefore, counts⟩ := progress
    obtain ⟨heap, rfl, rfl, freed, spares, owns'⟩ := store_own owns moved
    have leaves : Leaves self owner table owner { table with heap } := .of_spares spares rfl rfl
    refine .within owner rfl rfl rfl ⟨wired.spared spares rfl rfl rfl (by rw [freed]; rfl),
      ⟨head, owns'.imp ?_, first⟩, isBefore, counts⟩ leaves.yields
    rintro cell ⟨old, ⟨rfl, rfl⟩, rfl⟩
    rfl
  | storeBucket =>
    cases moved
    obtain ⟨⟨head, ⟨held, _, found, rfl⟩, first⟩, rfl, counts⟩ := progress
    refine .within _ rfl rfl rfl ⟨wired.link held found first, ⟨newNode, rfl⟩, ?_⟩
      (Leaves.yields ⟨?_, List.suffix_cons .., fun still => ?_⟩)
    · change table.size + 1 = BitVec.ofNat 32 (table.linked.length + 1)
      rw [counts, BitVec.ofNat_add]
      rfl
    · intro other node cell apart owned allocated
      have different : node ≠ newNode := by
        rintro rfl
        exact apart (Option.some.inj (owned.symm.trans held))
      exact ⟨by rw [Function.update_of_ne different, owned], allocated⟩
    · refine ⟨(List.cons.inj still).2, fun node word published carried => ⟨?_, carried⟩⟩
      have different : node ≠ newNode := by
        rintro rfl
        rw [published] at held
        cases held
      rw [Function.update_of_ne different, published]
  | loadSize =>
    cases moved
    exact within_moves rfl rfl rfl ⟨_, rfl⟩ wired progress
  | storeSize seen =>
    cases moved
    exact within_moves rfl rfl rfl ⟨_, rfl⟩ wired progress
  | unlock =>
    cases moved
    exact unlock_moves rfl rfl wired progress.2 ⟨progress.1, trivial⟩

theorem reaches_head (wired : Wired owner pending table)
    (found : table.buckets[bucket key]? = some head) : Reaches table key [] head := by
  obtain ⟨head', found', list⟩ := wired.chains (bucket key) (bucket_lt key)
  obtain rfl := Option.some.inj (found'.symm.trans found)
  exact ⟨chain table (bucket key), rfl, list.first_eq⟩

/-- The test for the null pointer tells whether the chain goes on. -/
theorem Reaches.test (wired : Wired owner pending table) (reaches : Reaches table key front p) :
    if p = 0 then chain table (bucket key) = front else Stands table key front p := by
  obtain ⟨rest, split, rfl⟩ := reaches
  cases rest with
  | nil =>
    rw [List.head?_nil, Option.getD_none, if_pos rfl, split, List.append_nil]
  | cons node rest =>
    have inChain : node ∈ chain table (bucket key) := by simp [split]
    obtain ⟨-, cell, allocated⟩ := wired.allocated (Wired.mem_linked inChain)
    rw [List.head?_cons, Option.getD_some, if_neg (Heap.ne_null allocated)]
    exact ⟨rest, split⟩

theorem next_of_split (wired : Wired owner pending table)
    (split : chain table (bucket key) = front ++ p :: rest)
    (link : table.heap.field Node.next p = some after) : after = rest.head?.getD 0 := by
  obtain ⟨head, -, list⟩ := wired.chains (bucket key) (bucket_lt key)
  rw [split] at list
  obtain ⟨middle, -, -, after', link', tail⟩ := segment_append.mp list
  obtain rfl := Option.some.inj (link'.symm.trans link)
  exact tail.first_eq

theorem Stands.next (wired : Wired owner pending table) (stands : Stands table key front p)
    (link : table.heap.field Node.next p = some after) :
    Reaches table key (front ++ [p]) after := by
  obtain ⟨rest, split⟩ := stands
  exact ⟨rest, by simp [split], next_of_split wired split link⟩

theorem searching_moves {point : Searching} (wired : Wired owner [] table)
    (progress : point.Progress table key seen)
    (moved : hashLookup table key point seen = some (table', own')) :
    guard.Moves self owner table (.searching key point seen) table' own' := by
  cases point with
  | loadBucket =>
    obtain ⟨head, found, same⟩ := Option.map_eq_some_iff.mp moved
    cases same
    exact within_moves rfl rfl rfl ⟨_, rfl⟩ wired ⟨progress.1, progress.2, [],
      reaches_head wired found, fun node member => absurd member List.not_mem_nil⟩
  | test p =>
    cases moved
    obtain ⟨isSeen, counts, front, reaches, no⟩ := progress
    have tested := reaches.test wired
    refine within_moves rfl rfl rfl ⟨_, rfl⟩ wired ?_
    by_cases null : p = 0
    · rw [if_pos null] at tested ⊢
      exact ⟨isSeen, counts, tested ▸ no⟩
    · rw [if_neg null] at tested ⊢
      exact ⟨isSeen, counts, front, tested, no⟩
  | compare p =>
    obtain ⟨found, load, same⟩ := Option.map_eq_some_iff.mp moved
    cases same
    obtain ⟨isSeen, counts, front, stands, no⟩ := progress
    refine within_moves rfl rfl rfl ⟨_, rfl⟩ wired ?_
    by_cases hit : found = key
    · rw [if_pos hit]
      exact ⟨isSeen, counts, front, stands, no, hit ▸ load⟩
    · rw [if_neg hit]
      refine ⟨isSeen, counts, front, stands, fun node member => ?_⟩
      rcases List.mem_append.mp member with early | last
      · exact no node early
      · rw [List.mem_singleton.mp last]
        exact fun same => hit (Option.some.inj (load.symm.trans same))
  | loadNext p =>
    obtain ⟨after, link, same⟩ := Option.map_eq_some_iff.mp moved
    cases same
    obtain ⟨isSeen, counts, front, stands, no⟩ := progress
    exact within_moves rfl rfl rfl ⟨_, rfl⟩ wired
      ⟨isSeen, counts, _, stands.next wired link, no⟩
  | unlockFound p =>
    cases moved
    obtain ⟨rfl, counts, front, ⟨rest, split⟩, no, found⟩ := progress
    refine unlock_moves rfl rfl wired counts ⟨List.suffix_rfl, fun undeleted => ?_⟩
    have undeleted : Undeleted table := undeleted
    have inChain : p ∈ chain table (bucket key) := by simp [split]
    have hit : ∀ node ∈ (p :: rest).head?, table.heap.field Node.key node = some key := by
      intro node head
      cases head
      exact found
    obtain ⟨cell, allocated⟩ := Heap.field_eq_some found
    have value : table.heap.field Node.value p = some cell.value := by simp [Heap.field, allocated]
    refine ⟨(wired.allocated (Wired.mem_linked inChain)).1, cell.value, value, ?_⟩
    exact (latest_of_split wired undeleted split no hit).trans value
  | unlockMissing =>
    cases moved
    obtain ⟨rfl, counts, no⟩ := progress
    refine unlock_moves rfl rfl wired counts ⟨trivial, List.suffix_rfl, fun undeleted => ?_⟩
    have undeleted : Undeleted table := undeleted
    have ends : ∀ node ∈ ([] : List Address).head?,
        table.heap.field Node.key node = some key := by
      intro node head
      cases head
    exact (latest_of_split wired undeleted (List.append_nil _).symm no ends).symm

theorem deleting_moves {point : Deleting}
    (wired : Wired owner (Local.deleting key point before).pending table)
    (progress : point.Progress owner self table key before)
    (moved : hashDelete table key point before = some (table', own')) :
    guard.Moves self owner table (.deleting key point before) table' own' := by
  cases point with
  | loadBucket =>
    obtain ⟨head, found, same⟩ := Option.map_eq_some_iff.mp moved
    cases same
    exact within_moves rfl rfl rfl ⟨_, rfl⟩ wired
      ⟨progress.1, progress.2, [], reaches_head wired found, rfl⟩
  | test prev p =>
    cases moved
    obtain ⟨isBefore, counts, front, reaches, isPrev⟩ := progress
    have tested := reaches.test wired
    by_cases null : p = 0
    · rw [if_pos null]
      exact within_moves rfl rfl rfl ⟨_, rfl⟩ wired ⟨isBefore, counts⟩
    · rw [if_neg null] at tested ⊢
      exact within_moves rfl rfl rfl ⟨_, rfl⟩ wired ⟨isBefore, counts, front, tested, isPrev⟩
  | compare prev p =>
    obtain ⟨found, -, same⟩ := Option.map_eq_some_iff.mp moved
    cases same
    by_cases hit : found = key
    · rw [if_pos hit]
      exact within_moves rfl rfl rfl ⟨_, rfl⟩ wired progress
    · rw [if_neg hit]
      exact within_moves rfl rfl rfl ⟨_, rfl⟩ wired progress
  | loadNext prev p =>
    obtain ⟨after, link, same⟩ := Option.map_eq_some_iff.mp moved
    cases same
    obtain ⟨isBefore, counts, front, stands, -⟩ := progress
    refine within_moves rfl rfl rfl ⟨_, rfl⟩ wired
      ⟨isBefore, counts, _, stands.next wired link, ?_⟩
    rw [List.getLast?_concat, Option.getD_some]
  | loadLink prev p =>
    obtain ⟨after, link, same⟩ := Option.map_eq_some_iff.mp moved
    cases same
    obtain ⟨isBefore, counts, front, stands, isPrev⟩ := progress
    exact within_moves rfl rfl rfl ⟨_, rfl⟩ wired
      ⟨isBefore, counts, front, stands, isPrev, link⟩
  | storeLink prev p after =>
    obtain ⟨rfl, counts, front, ⟨rest, split⟩, rfl, link⟩ := progress
    have inChain : p ∈ chain table (bucket key) := by simp [split]
    have linked := Wired.mem_linked inChain
    have published := (wired.allocated linked).1
    obtain ⟨rfl, buckets, heap, rfl, wired', cells, content, allocated⟩ :=
      wired.storeLink self split link moved
    have shorter : table.linked.length = (table.linked.erase p).length + 1 := by
      rw [List.length_erase_of_mem linked]
      have := List.length_pos_of_mem linked
      omega
    refine .within _ rfl rfl rfl ⟨wired', ⟨p, linked, rfl⟩, ?_, Function.update_self ..,
      content, allocated, trivial⟩ (Leaves.yields ⟨?_, List.suffix_rfl, fun still => ?_⟩)
    · change table.size - 1 = BitVec.ofNat 32 (table.linked.erase p).length
      rw [counts, shorter, BitVec.ofNat_add]
      exact BitVec.add_sub_cancel _ _
    · intro other node cell apart owned found
      have notLinked : node ∉ table.linked := by
        intro member
        rw [(wired.allocated member).1] at owned
        cases owned
      have different : node ≠ p := by
        rintro rfl
        exact notLinked linked
      exact ⟨by rw [Function.update_of_ne different, owned], (cells node notLinked).trans found⟩
    · -- there are more inserts than nodes now
      have all := wired.account.length_eq
      have lengths : (table.linked.erase p).length = (table.inserts.map Insert.node).length :=
        congrArg List.length still
      rw [List.length_append] at all
      omega
  | free p =>
    obtain ⟨heap, released, same⟩ := Option.map_eq_some_iff.mp moved
    cases same
    obtain ⟨changed, counts, held, -⟩ := progress
    have spares : Spares self owner table.heap owner heap :=
      Spares.free held released
    have leaves : Leaves self owner table owner { table with heap } := .of_spares spares rfl rfl
    exact .within owner rfl rfl rfl ⟨wired.free held released, changed, counts⟩ leaves.yields
  | loadSize =>
    cases moved
    exact within_moves rfl rfl rfl ⟨_, rfl⟩ wired progress
  | storeSize seen =>
    cases moved
    exact within_moves rfl rfl rfl ⟨_, rfl⟩ wired progress
  | unlock =>
    cases moved
    exact unlock_moves rfl rfl wired progress.2 ⟨.inl ⟨rfl, progress.1⟩, trivial⟩
  | unlockMissing =>
    cases moved
    exact unlock_moves rfl rfl wired progress.2 ⟨.inr ⟨rfl, progress.1.symm⟩, trivial⟩

/-- A step of a thread that does not have the mutex. -/
theorem outside_moves (before : own.inside = false) (known : Outside owner self table own)
    (moved : thread table own action = some (table', own')) :
    guard.Moves self owner table own table' own' := by
  have stays {next : Local} (after : next.inside = false)
      (mine : Outside owner self table next) : guard.Moves self owner table own table next :=
    away_moves before after rfl (.refl self owner table.heap) mine
  have stores {content : Node → Prop} {node : Address} {change : Node → Node} {next : Local}
      (owns : Owns owner self table node content) (after : next.inside = false)
      (stored : store table node change next = some (table', own'))
      (mine : ∀ heap : Ledger Node, Owns owner self { table with heap } node
        (fun cell => ∃ old, content old ∧ cell = change old) →
        Outside owner self { table with heap } next) :
      guard.Moves self owner table own table' own' := by
    obtain ⟨heap, rfl, rfl, freed, spares, owns'⟩ := store_own owns stored
    exact away_moves before after freed spares (mine heap owns')
  cases own with
  | idle =>
    cases action with
    | call call =>
      cases moved
      cases call with
      | insert key value => exact stays rfl trivial
      | lookup key => exact stays rfl trivial
      | delete key => exact stays rfl trivial
    | _ => cases moved
  | malloc key value =>
    cases action with
    | malloc newNode garbage =>
      obtain ⟨heap, done, same⟩ := Option.map_eq_some_iff.mp moved
      cases same
      obtain ⟨-, allocated, freed⟩ := Ledger.malloc_eq_some done
      obtain ⟨unused, cells⟩ := Heap.malloc_eq_some allocated id
      have absent := Heap.field_eq_none.mp unused
      have spares : Spares self owner table.heap (Function.update owner newNode (some self))
          heap := by
        intro node cell found _
        have apart : node ≠ newNode := by
          rintro rfl
          rw [absent] at found
          cases found
        have kept : heap.field id node = some cell := by
          rw [cells, Function.update_of_ne apart, Heap.field, found]
          rfl
        exact ⟨Function.update_of_ne apart .., by simpa [Heap.field] using kept⟩
      have here : heap.field id newNode = some garbage := by
        rw [cells, Function.update_self]
        rfl
      exact away_moves rfl rfl freed spares
        ⟨Function.update_self .., garbage, by simpa [Heap.field] using here, trivial⟩
    | _ => cases moved
  | setKey key value newNode =>
    cases action with
    | go =>
      refine stores known rfl moved fun heap owns => owns.imp ?_
      rintro cell ⟨old, -, rfl⟩
      rfl
    | _ => cases moved
  | setValue key value newNode =>
    cases action with
    | go =>
      refine stores known rfl moved fun heap owns => owns.imp ?_
      rintro cell ⟨old, rfl, rfl⟩
      exact ⟨rfl, rfl⟩
    | _ => cases moved
  | clearNext key value newNode =>
    cases action with
    | go =>
      refine stores known rfl moved fun heap owns => owns.imp ?_
      rintro cell ⟨old, ⟨rfl, rfl⟩, rfl⟩
      exact ⟨rfl, rfl⟩
    | _ => cases moved
  | insertLock key value newNode =>
    cases action with
    | go => exact lock_moves rfl rfl rfl moved fun counts => ⟨known, rfl, counts⟩
    | _ => cases moved
  | lookupLock key =>
    cases action with
    | go => exact lock_moves rfl rfl rfl moved fun counts => ⟨rfl, counts⟩
    | _ => cases moved
  | deleteLock key =>
    cases action with
    | go => exact lock_moves rfl rfl rfl moved fun counts => ⟨rfl, counts⟩
    | _ => cases moved
  | loadValue key p seen =>
    cases action with
    | go =>
      obtain ⟨value, load, same⟩ := Option.map_eq_some_iff.mp moved
      cases same
      refine stays rfl ⟨trivial, known.1, fun undeleted => ?_⟩
      obtain ⟨-, word, found, isLatest⟩ := known.2 undeleted
      rw [isLatest, ← found, load]
    | stale garbage =>
      simp only [thread] at moved
      split at moved <;> cases moved
      rename_i freed
      -- where a node was freed, one was taken out
      refine stays rfl ⟨trivial, known.1, fun undeleted => ?_⟩
      obtain ⟨-, word, found, -⟩ := known.2 undeleted
      exact absurd freed (Ledger.field_freed found)
    | _ => cases moved
  | returned outcome =>
    cases action with
    | go =>
      cases moved
      exact stays rfl trivial
    | _ => cases moved
  | linking key value newNode point before => cases before
  | searching key point seen => cases before
  | deleting key point before => cases before

theorem thread_moves
    (holding : own.inside = true → Wired owner own.pending table ∧ Progress owner self table own)
    (outside : own.inside = false → Outside owner self table own)
    (moved : thread table own action = some (table', own')) :
    guard.Moves self owner table own table' own' := by
  cases inside : own.inside with
  | false => exact outside_moves inside (outside inside) moved
  | true =>
    obtain ⟨wired, progress⟩ := holding inside
    cases own with
    | linking key value newNode point before =>
      cases action with
      | go => exact linking_moves wired progress moved
      | _ => cases moved
    | searching key point seen =>
      cases action with
      | go => exact searching_moves wired progress moved
      | _ => cases moved
    | deleting key point before =>
      cases action with
      | go => exact deleting_moves wired progress moved
      | _ => cases moved
    | _ => cases inside

theorem start_outline (heap : Heap Node) :
    Outline guard.invariant guard.asserts (start heap : State Thread Shared Local) := by
  refine ⟨(none, fun _ => none), ⟨rfl, fun _ => ⟨⟨?_, ?_, nofun, List.nodup_nil, .refl _⟩, rfl⟩⟩,
    fun self => ⟨nofun, trivial⟩⟩
  · exact List.length_replicate
  · intro index inside
    have empty : (List.replicate 128 0)[index]? = some 0 := by
      rw [List.getElem?_replicate, if_pos inside]
    exact ⟨0, empty, rfl⟩

theorem outline_of_reachable [DecidableEq Thread] {heap : Heap Node}
    {state : State Thread Shared Local}
    (reachable : Transition.Reachable threads (start heap) state) :
    Outline guard.invariant guard.asserts state := by
  refine reachable.invariant (start_outline heap) ?_
  intro before event after outline stepped
  exact Guard.keeps_outline outline (fun _ _ holding outside moved =>
    thread_moves holding outside moved) stepped

end CssLab.Hash.Threads
