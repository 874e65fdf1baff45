import CssLab.Hash.Table

namespace CssLab.Hash

open Chain Transition

/-- The nodes of a bucket, first one first. -/
def Listed (table : Table) (index : Nat) (nodes : List Address) : Prop :=
  ∃ head, table.buckets[index]? = some head ∧
    Segment (table.heap.field Node.next) head nodes 0

/-- A node of the table with its key and its value. -/
def Entry (table : Table) (node : Address) (key value : CString) : Prop :=
  ∃ index nodes, Listed table index nodes ∧ node ∈ nodes ∧
    table.heap.field Node.key node = some key ∧ table.heap.field Node.value node = some value

/-- With enough iterations `hash_lookup` returns `found`. -/
def LooksUp (table : Table) (key : CString) (found : Option CString) : Prop :=
  ∃ steps after, hashLookup steps table key = some (found, after)

/-- What a call of `hash_delete` has to do: take out the most recent entry with
the key, if there is one, and nothing else. -/
def Deletes (table : Table) (key : CString) (result : BitVec 32) (after : Table) : Prop :=
  ((∃ node value, Entry table node key value) →
    result = 0 ∧ hashSize after = hashSize table - 1 ∧
    ∃ node value, Entry table node key value ∧
      (∀ other value', Entry table other key value' → table.born other ≤ table.born node) ∧
      ∀ other key' value', Entry after other key' value' ↔
        Entry table other key' value' ∧ other ≠ node) ∧
  ((¬ ∃ node value, Entry table node key value) → result = 1 ∧ after = table) ∧
  ∀ other, other ≠ key → ∀ found, LooksUp after other found ↔ LooksUp table other found

/-- Every bucket holds a list that ends, of nodes whose keys belong to it. -/
structure Tidy (table : Table) : Prop where
  unlocked : table.mu = false
  buckets : table.buckets.length = 128
  chains : ∀ index, index < 128 → ∃ nodes, Listed table index nodes ∧
    ∀ node ∈ nodes, ∃ key, table.heap.field Node.key node = some key ∧ bucket key = index

theorem Tidy.hashInit (heap : Heap Node) : Tidy (hashInit (zeroed heap) 128) where
  unlocked := rfl
  buckets := List.length_replicate
  chains := by
    intro index inside
    have empty : (List.replicate 128 0)[index]? = some 0 := by
      rw [List.getElem?_replicate, if_pos inside]
    exact ⟨[], ⟨0, empty, rfl⟩, fun node member => absurd member List.not_mem_nil⟩

theorem Listed.nodup (listed : Listed table index nodes) : nodes.Nodup := by
  obtain ⟨head, -, list⟩ := listed
  exact list.nodup (Heap.field_null _ _)

theorem Listed.unique (listed : Listed table index nodes) (again : Listed table index nodes') :
    nodes = nodes' := by
  obtain ⟨head, found, list⟩ := listed
  obtain ⟨head', found', list'⟩ := again
  have same : head = head' := Option.some.inj (found.symm.trans found')
  subst same
  exact list.unique list' (Heap.field_null _ _)

/-- A change that spares the links and keys of a bucket's nodes spares the bucket. -/
theorem Listed.frame (listed : Listed table index nodes)
    (head : after.buckets[index]? = table.buckets[index]?)
    (links : ∀ node ∈ nodes, after.heap.field Node.next node = table.heap.field Node.next node) :
    Listed after index nodes := by
  obtain ⟨first, found, list⟩ := listed
  exact ⟨first, head.trans found, list.frame links⟩

theorem hashInsert_eq_some (done : hashInsert table key value newNode = some after) :
    ∃ head, table.mu = false ∧ after.mu = false ∧ table.buckets[bucket key]? = some head ∧
      after.buckets = table.buckets.set (bucket key) newNode ∧
      table.heap.field Node.next newNode = none ∧
      after.heap.field Node.next =
        Function.update (table.heap.field Node.next) newNode (some head) ∧
      after.heap.field Node.key =
        Function.update (table.heap.field Node.key) newNode (some key) := by
  simp only [hashInsert, lock, Option.bind_eq_bind, Option.bind_eq_some_iff] at done
  obtain ⟨heap₁, allocated, locked, free, head, found, heap₂, linked, same⟩ := done
  cases same
  split at free <;> cases free
  rename_i unlocked
  have links := Heap.malloc_eq_some allocated Node.next
  have keys := Heap.malloc_eq_some allocated Node.key
  refine ⟨head, by simpa using unlocked, rfl, found, rfl, links.1, ?_,
    (Heap.field_modify linked fun _ => rfl).trans keys.2⟩
  refine (Heap.field_modify_self linked fun _ => rfl).trans ?_
  change Function.update (heap₁.field Node.next) _ _ = _
  rw [links.2, Function.update_idem]

theorem Tidy.insert (tidy : Tidy table)
    (done : hashInsert table key value newNode = some after) : Tidy after := by
  obtain ⟨head, -, unlocked, found, buckets, unused, links, keys⟩ := hashInsert_eq_some done
  refine ⟨unlocked, by simp [buckets, tidy.buckets], ?_⟩
  intro index inside
  obtain ⟨nodes, listed, keyed⟩ := tidy.chains index inside
  have apart : ∀ node ∈ nodes, node ≠ newNode := by
    rintro node member rfl
    obtain ⟨first, -, list⟩ := listed
    obtain ⟨next, link, -⟩ := list.next_mem member
    rw [unused] at link
    cases link
  have keyed' : ∀ node ∈ nodes, ∃ key, after.heap.field Node.key node = some key ∧
      bucket key = index := by
    intro node member
    rw [keys, Function.update_of_ne (apart node member)]
    exact keyed node member
  have links' : ∀ node ∈ nodes,
      after.heap.field Node.next node = table.heap.field Node.next node := by
    intro node member
    rw [links, Function.update_of_ne (apart node member)]
  by_cases here : index = bucket key
  · subst here
    obtain ⟨first, found', list⟩ := listed
    have same : first = head := Option.some.inj (found'.symm.trans found)
    subst same
    refine ⟨newNode :: nodes, ⟨newNode, ?_, rfl, first, ?_, list.frame links'⟩, ?_⟩
    · rw [buckets, List.getElem?_set_self (by rw [tidy.buckets]; exact inside)]
    · rw [links, Function.update_self]
    · intro node member
      rcases List.mem_cons.mp member with rfl | old
      · exact ⟨key, by rw [keys, Function.update_self], rfl⟩
      · exact keyed' node old
  · refine ⟨nodes, listed.frame ?_ links', keyed'⟩
    rw [buckets, List.getElem?_set_ne (Ne.symm here)]

/-- The loop stops behind the first nodes with the key: at one with another
key or at the end. The induction carries the node before the list. -/
theorem skip_eq_some (list : Segment (heap.field Node.next) p nodes 0)
    (done : skip heap key steps prev p = some out) :
    ∃ skipped rest, nodes = skipped ++ rest ∧
      out = (skipped.getLast?.getD prev, rest.head?.getD 0) ∧
      (∀ node ∈ skipped, heap.field Node.key node = some key) ∧
      ∀ node ∈ rest.head?, heap.field Node.key node ≠ some key := by
  induction nodes generalizing p prev steps with
  | nil =>
    have null : p = 0 := list
    subst null
    cases steps with
    | zero => cases done
    | succ steps =>
      rw [skip, if_pos rfl] at done
      cases done
      refine ⟨[], [], rfl, rfl, fun node member => absurd member List.not_mem_nil, ?_⟩
      intro node head
      cases head
  | cons node tail ih =>
    obtain ⟨rfl, after, link, list⟩ := list
    obtain ⟨cell, allocated⟩ := Heap.field_eq_some link
    cases steps with
    | zero => cases done
    | succ steps =>
      rw [skip, if_neg (Heap.ne_null allocated), allocated, Option.bind_some] at done
      split at done
      · rename_i same
        have next : after = cell.next := by simpa [Heap.field, allocated] using link.symm
        subst next
        obtain ⟨skipped, rest, split, out', keyed, other⟩ := ih list done
        refine ⟨p :: skipped, rest, by rw [split, List.cons_append], ?_, ?_, other⟩
        · rw [out', List.getLast?_cons, Option.getD_some]
        · intro node member
          rcases List.mem_cons.mp member with rfl | later
          · simp [Heap.field, allocated, same]
          · exact keyed node later
      · rename_i different
        cases done
        refine ⟨[], p :: tail, rfl, rfl, fun node member => absurd member List.not_mem_nil, ?_⟩
        intro node head
        cases head
        simpa [Heap.field, allocated] using different

theorem skip_returns (list : Segment (heap.field Node.next) p nodes 0)
    (enough : nodes.length < steps) : ∃ out, skip heap key steps prev p = some out := by
  induction nodes generalizing p prev steps with
  | nil =>
    have null : p = 0 := list
    cases steps with
    | zero => cases enough
    | succ steps => exact ⟨_, by rw [skip, if_pos null]⟩
  | cons node tail ih =>
    obtain ⟨rfl, after, link, list⟩ := list
    obtain ⟨cell, allocated⟩ := Heap.field_eq_some link
    cases steps with
    | zero => cases enough
    | succ steps =>
      rw [skip, if_neg (Heap.ne_null allocated), allocated, Option.bind_some]
      split
      · have next : after = cell.next := by simpa [Heap.field, allocated] using link.symm
        exact ih (next ▸ list) (Nat.lt_of_succ_lt_succ enough)
      · exact ⟨_, rfl⟩

/-- Taking a node out of its bucket: the node before it, or the bucket, is
linked to the one behind it, and it is freed. -/
theorem relink_free (listed : Listed table index (skipped ++ p :: rest))
    (link : table.heap.field Node.next p = some next)
    (linked : relink { table with mu := true } index (skipped.getLast?.getD 0) next = some middle)
    (freed : middle.heap.free p = some heap) :
    Listed { middle with heap } index (skipped ++ rest) ∧
      middle.buckets.length = table.buckets.length ∧
      (∀ other, other ≠ index → middle.buckets[other]? = table.buckets[other]?) ∧
      heap.field Node.key = Function.update (table.heap.field Node.key) p none ∧
      ∀ node, node ∉ skipped ++ p :: rest →
        heap.field Node.next node = table.heap.field Node.next node := by
  have nodup := listed.nodup
  have freedLinks := Heap.free_eq_some freed Node.next
  have freedKeys := Heap.free_eq_some freed Node.key
  obtain ⟨head, found, list⟩ := listed
  have inside : index < table.buckets.length := (List.getElem?_eq_some_iff.mp found).1
  rcases List.eq_nil_or_concat skipped with rfl | ⟨front, prev, rfl⟩
  · simp only [relink, List.getLast?_nil, Option.getD_none, if_pos] at linked
    cases linked
    obtain ⟨rfl, after, link', tail⟩ := list
    have same : after = next := Option.some.inj (link'.symm.trans link)
    subst same
    refine ⟨⟨after, List.getElem?_set_self inside, tail.frame ?_⟩, List.length_set, ?_,
      freedKeys, ?_⟩
    · intro node member
      have apart : node ≠ head := by
        rintro rfl
        exact (List.nodup_cons.mp nodup).1 member
      change heap.field _ node = _
      rw [freedLinks, Function.update_of_ne apart]
    · intro other apart
      exact List.getElem?_set_ne (Ne.symm apart)
    · intro node outside
      have apart : node ≠ head := by
        rintro rfl
        exact outside List.mem_cons_self
      rw [freedLinks, Function.update_of_ne apart]
  · rw [List.concat_eq_append] at *
    have prevMember : prev ∈ front ++ [prev] ++ p :: rest := by simp
    obtain ⟨_, prevLink, -⟩ := list.next_mem prevMember
    obtain ⟨cell, allocated⟩ := Heap.field_eq_some prevLink
    rw [List.getLast?_concat, Option.getD_some, relink, if_neg (Heap.ne_null allocated)] at linked
    obtain ⟨heap₁, modified, rfl⟩ := Option.map_eq_some_iff.mp linked
    have links : heap₁.field Node.next =
        Function.update (table.heap.field Node.next) prev (some next) :=
      Heap.field_modify_self modified fun _ => rfl
    have keys : heap₁.field Node.key = table.heap.field Node.key :=
      Heap.field_modify modified fun _ => rfl
    have around := list.unlink nodup
    rw [link, ← links] at around
    refine ⟨⟨head, found, around.frame ?_⟩, rfl, fun _ _ => rfl, ?_, ?_⟩
    · intro node member
      have apart : node ≠ p := by
        rintro rfl
        exact (List.nodup_middle.mp nodup).notMem member
      change heap.field _ node = _
      rw [freedLinks, Function.update_of_ne apart]
    · rw [freedKeys]
      change Function.update (heap₁.field Node.key) p none = _
      rw [keys]
    · intro node outside
      have apart : node ≠ p := by
        rintro rfl
        exact outside (by simp)
      have apart' : node ≠ prev := by
        rintro rfl
        exact outside (by simp)
      rw [freedLinks, Function.update_of_ne apart]
      change heap₁.field Node.next node = _
      rw [links, Function.update_of_ne apart']

/-- The two ways a call of `hash_delete` returns: every node of the bucket has
the key, or the first one that has another key is taken out. -/
theorem hashDelete_eq_some (tidy : Tidy table) (listed : Listed table (bucket key) nodes)
    (done : hashDelete steps table key = some (result, after)) :
    ((∀ node ∈ nodes, table.heap.field Node.key node = some key) ∧ result = 1 ∧ after = table) ∨
    ∃ skipped p rest, nodes = skipped ++ p :: rest ∧ result = 0 ∧ after.mu = false ∧
      table.heap.field Node.key p ≠ some key ∧
      Listed after (bucket key) (skipped ++ rest) ∧
      after.buckets.length = table.buckets.length ∧
      (∀ other, other ≠ bucket key → after.buckets[other]? = table.buckets[other]?) ∧
      after.heap.field Node.key = Function.update (table.heap.field Node.key) p none ∧
      ∀ node, node ∉ nodes →
        after.heap.field Node.next node = table.heap.field Node.next node := by
  simp only [hashDelete, lock, tidy.unlocked, Bool.false_eq_true, if_false, Option.bind_eq_bind,
    Option.bind_some, Option.bind_eq_some_iff] at done
  obtain ⟨head, found, ⟨prev, p⟩, skipping, done⟩ := done
  have ⟨head', found', list⟩ := listed
  have same : head' = head := Option.some.inj (found'.symm.trans found)
  subst same
  obtain ⟨skipped, rest, rfl, out, keyed, different⟩ := skip_eq_some list skipping
  cases out
  cases rest with
  | nil =>
    simp only [List.head?_nil, Option.getD_none, if_pos] at done
    cases done
    refine Or.inl ⟨by simpa using keyed, rfl, ?_⟩
    simp only [unlock, ← tidy.unlocked]
  | cons p rest =>
    have member : p ∈ skipped ++ p :: rest := by simp
    obtain ⟨next, link, -⟩ := list.next_mem member
    obtain ⟨cell, allocated⟩ := Heap.field_eq_some link
    have notNull : p ≠ 0 := Heap.ne_null allocated
    simp only [List.head?_cons, Option.getD_some, notNull, if_false,
      Option.bind_eq_some_iff] at done
    obtain ⟨cell', allocated', middle, linked, heap, freed, done⟩ := done
    have here : table.heap.field Node.next p = some cell'.next := by
      simp [Heap.field, allocated']
    obtain ⟨listed', length, buckets, keys, links⟩ := relink_free listed here linked freed
    cases done
    exact Or.inr ⟨skipped, p, rest, rfl, rfl, rfl, different p rfl, listed', length, buckets, keys,
      links⟩

theorem relink_free_returns (listed : Listed table index (skipped ++ p :: rest))
    (link : table.heap.field Node.next p = some next) :
    ∃ middle heap, relink { table with mu := true } index (skipped.getLast?.getD 0) next =
      some middle ∧ middle.heap.free p = some heap := by
  rcases List.eq_nil_or_concat skipped with rfl | ⟨front, prev, rfl⟩
  · obtain ⟨heap, freed⟩ := Heap.free_cell link
    refine ⟨{ table with mu := true, buckets := table.buckets.set index next }, heap, ?_, freed⟩
    rw [relink, List.getLast?_nil, Option.getD_none, if_pos rfl]
  · rw [List.concat_eq_append] at *
    have prevMember : prev ∈ front ++ [prev] ++ p :: rest := by simp
    obtain ⟨head, -, list⟩ := listed
    obtain ⟨_, prevLink, -⟩ := list.next_mem prevMember
    obtain ⟨cell, allocated⟩ := Heap.field_eq_some prevLink
    obtain ⟨heap₁, modified⟩ :
        ∃ heap₁, table.heap.modify prev (fun node => { node with next }) = some heap₁ :=
      ⟨_, Heap.modify_cell allocated _⟩
    have links : heap₁.field Node.next =
        Function.update (table.heap.field Node.next) prev (some next) :=
      Heap.field_modify_self modified fun _ => rfl
    have still : heap₁.field Node.next p = some next := by
      by_cases same : p = prev
      · rw [links, same, Function.update_self]
      · rw [links, Function.update_of_ne same, link]
    obtain ⟨heap, freed⟩ := Heap.free_cell still
    refine ⟨{ table with mu := true, heap := heap₁ }, heap, ?_, freed⟩
    rw [List.getLast?_concat, Option.getD_some, relink, if_neg (Heap.ne_null allocated), modified,
      Option.map_some]

theorem hashDelete_returns (tidy : Tidy table) (listed : Listed table (bucket key) nodes)
    (enough : nodes.length < steps) :
    ∃ result after, hashDelete steps table key = some (result, after) := by
  have ⟨head, found, list⟩ := listed
  obtain ⟨out, skipping⟩ : ∃ out, skip table.heap key steps 0 head = some out :=
    skip_returns list enough
  have found' : table.buckets[(djbHash key).toNat]? = some head := found
  simp only [hashDelete, lock, tidy.unlocked, Bool.false_eq_true, if_false, Option.bind_eq_bind,
    Option.bind_some, found', skipping]
  obtain ⟨skipped, rest, rfl, rfl, -⟩ := skip_eq_some list skipping
  cases rest with
  | nil => exact ⟨_, _, by rw [List.head?_nil, Option.getD_none, if_pos rfl]⟩
  | cons p rest =>
    have member : p ∈ skipped ++ p :: rest := by simp
    obtain ⟨next, link, -⟩ := list.next_mem member
    obtain ⟨cell, allocated⟩ := Heap.field_eq_some link
    have here : table.heap.field Node.next p = some cell.next := by simp [Heap.field, allocated]
    obtain ⟨middle, heap, linked, freed⟩ := relink_free_returns listed here
    have notNull : p ≠ 0 := Heap.ne_null allocated
    rw [bucket] at linked
    simp only [List.head?_cons, Option.getD_some, notNull, if_false, allocated, linked, freed,
      Option.bind_some]
    exact ⟨_, _, rfl⟩

theorem Tidy.delete (tidy : Tidy table)
    (done : hashDelete steps table key = some (result, after)) : Tidy after := by
  obtain ⟨nodes, listed, keyed⟩ := tidy.chains (bucket key) (bucket_lt key)
  rcases hashDelete_eq_some tidy listed done with ⟨-, -, rfl⟩ |
    ⟨skipped, p, rest, rfl, -, unlocked, -, listed', length, buckets, keys, links⟩
  · exact tidy
  · refine ⟨unlocked, length.trans tidy.buckets, ?_⟩
    have apart := (List.nodup_middle.mp listed.nodup).notMem
    intro index inside
    by_cases here : index = bucket key
    · subst here
      refine ⟨skipped ++ rest, listed', ?_⟩
      intro node member
      have other : node ≠ p := by
        rintro rfl
        exact apart member
      rw [keys, Function.update_of_ne other]
      refine keyed node ?_
      rcases List.mem_append.mp member with early | late
      · simp [early]
      · simp [late]
    · obtain ⟨nodes', listed'', keyed'⟩ := tidy.chains index inside
      -- nodes of another bucket have keys of another bucket
      have foreign : ∀ node ∈ nodes', node ∉ skipped ++ p :: rest := by
        intro node member shared
        obtain ⟨key', found, belongs⟩ := keyed' node member
        obtain ⟨key'', found', belongs'⟩ := keyed node shared
        have same : key' = key'' := Option.some.inj (found.symm.trans found')
        exact here (by rw [← belongs, same, belongs'])
      refine ⟨nodes', listed''.frame (buckets index here) fun node member =>
        links node (foreign node member), ?_⟩
      intro node member
      have other : node ≠ p := by
        rintro rfl
        exact foreign node member (by simp)
      rw [keys, Function.update_of_ne other]
      exact keyed' node member

theorem tidy_of_reachable (reachable : Reachable step (hashInit (zeroed heap) 128) table) :
    Tidy table := by
  refine reachable.invariant (Tidy.hashInit heap) ?_
  intro table call after tidy stepped
  cases call with
  | insert key value newNode => exact tidy.insert stepped
  | delete key steps =>
    obtain ⟨⟨result, _⟩, done, rfl⟩ := Option.map_eq_some_iff.mp stepped
    exact tidy.delete done

theorem Listed.entry (listed : Listed table index nodes) (member : node ∈ nodes) :
    ∃ key value, Entry table node key value := by
  have ⟨head, _, list⟩ := listed
  obtain ⟨next, link, -⟩ := list.next_mem member
  obtain ⟨cell, allocated⟩ := Heap.field_eq_some link
  exact ⟨cell.key, cell.value, index, nodes, listed, member, by simp [Heap.field, allocated],
    by simp [Heap.field, allocated]⟩

theorem Entry.found (entry : Entry table node key value) :
    table.heap.field Node.key node = some key := by
  obtain ⟨_, _, _, _, key, _⟩ := entry
  exact key

theorem Entry.mem (tidy : Tidy table) (entry : Entry table node key value)
    (listed : Listed table (bucket key) nodes) : node ∈ nodes := by
  obtain ⟨index, nodes', listed', member, found, -⟩ := entry
  have inside : index < 128 := by
    obtain ⟨head, bucketed, -⟩ := listed'
    rw [← tidy.buckets]
    exact (List.getElem?_eq_some_iff.mp bucketed).1
  obtain ⟨nodes'', listed'', keyed⟩ := tidy.chains index inside
  rw [listed'.unique listed''] at member
  obtain ⟨key', found', belongs⟩ := keyed node member
  have same : key' = key := Option.some.inj (found'.symm.trans found)
  subst same
  rw [← belongs] at listed''
  rwa [listed.unique listed'']

/-- A call with an empty bucket finds nothing and changes nothing. -/
theorem deletes_of_empty (tidy : Tidy table) (listed : Listed table (bucket key) [])
    (done : hashDelete steps table key = some (result, after)) :
    Deletes table key result after := by
  rcases hashDelete_eq_some tidy listed done with ⟨-, rfl, rfl⟩ | ⟨skipped, p, rest, split, -⟩
  · refine ⟨?_, fun _ => ⟨rfl, rfl⟩, fun _ _ _ => Iff.rfl⟩
    rintro ⟨node, value, entry⟩
    cases entry.mem tidy listed
  · simp at split

/-- A call with anything in the bucket does not do what it should. -/
theorem not_deletes (tidy : Tidy table) (listed : Listed table (bucket key) (head :: tail))
    (done : hashDelete steps table key = some (result, after)) :
    ¬ Deletes table key result after := by
  rintro ⟨present, absent, -⟩
  rcases hashDelete_eq_some tidy listed done with ⟨keyed, rfl, -⟩ |
    ⟨skipped, p, rest, split, rfl, -, different, -, -, -, keys, -⟩
  · -- all nodes are skipped, the entry of the first one among them
    obtain ⟨key', value, entry⟩ := listed.entry List.mem_cons_self
    have same : key' = key :=
      Option.some.inj (entry.found.symm.trans (keyed head List.mem_cons_self))
    subst same
    exact absurd (present ⟨head, value, entry⟩).1 (by decide)
  · by_cases hasEntry : ∃ node value, Entry table node key value
    · -- the node that is freed is not one with the key
      obtain ⟨-, -, node, value, entry, -, exactly⟩ := present hasEntry
      have member : p ∈ head :: tail := by simp [split]
      obtain ⟨key', value', entry'⟩ := listed.entry member
      have apart : p ≠ node := by
        rintro rfl
        exact different entry.found
      have still := ((exactly p key' value').mpr ⟨entry', apart⟩).found
      rw [keys, Function.update_self] at still
      cases still
    · exact absurd (absent hasEntry).1 (by decide)

/-- With enough iterations a call of `hash_delete` returns, and it deletes its
key and nothing else exactly when the bucket of the key is empty. -/
theorem deletes_iff_empty (reachable : Reachable step (hashInit (zeroed heap) 128) table)
    (key : CString) :
    (∃ bound, ∀ steps, bound < steps →
      ∃ result after, hashDelete steps table key = some (result, after)) ∧
    ∀ steps result after, hashDelete steps table key = some (result, after) →
      (Deletes table key result after ↔ table.buckets[bucket key]? = some 0) := by
  have tidy := tidy_of_reachable reachable
  obtain ⟨nodes, listed, -⟩ := tidy.chains (bucket key) (bucket_lt key)
  refine ⟨⟨nodes.length, fun steps enough => hashDelete_returns tidy listed enough⟩, ?_⟩
  intro steps result after done
  have ⟨first, found, list⟩ := listed
  cases nodes with
  | nil =>
    have null : first = 0 := list
    rw [null] at found
    exact iff_of_true (deletes_of_empty tidy listed done) found
  | cons head tail =>
    refine iff_of_false (not_deletes tidy listed done) ?_
    intro empty
    have null : first = 0 := Option.some.inj (found.symm.trans empty)
    obtain ⟨rfl, next, link, -⟩ := list
    rw [null, Heap.field_null] at link
    cases link

/-- The table that holds "a" does not find "b". -/
theorem deletes_iff_empty_other :
    ∃ table result after, Reachable step (hashInit (zeroed Heap.empty) 128) table ∧
      hashSize table = 1 ∧ hashDelete 1 table keyB = some (result, after) ∧
        Deletes table keyB result after := by
  have reachable : Reachable step (hashInit (zeroed Heap.empty) 128) _ :=
    reachable_get [.insert keyA keyB 1] rfl
  exact ⟨_, 1, _, reachable, rfl, rfl, ((deletes_iff_empty reachable keyB).2 1 1 _ rfl).mpr rfl⟩

/-- The table that holds "a" is asked to delete "a" and says it is not there. -/
theorem delete_skips_its_key :
    ¬ ∀ table key steps result after, Reachable step (hashInit (zeroed Heap.empty) 128) table →
      hashDelete steps table key = some (result, after) → Deletes table key result after := by
  intro all
  have reachable : Reachable step (hashInit (zeroed Heap.empty) 128) _ :=
    reachable_get [.insert keyA keyB 1] rfl
  have deletes := all _ keyA 2 1 _ reachable rfl
  have found := deletes.1 ⟨1, keyB, 68, [1], ⟨1, rfl, rfl, 0, rfl, rfl⟩, by simp, rfl, rfl⟩
  exact absurd found.1 (by decide)

end CssLab.Hash
