import CssLab.Hash.Threads
import CssLab.Lib.Chain
import Mathlib.Data.List.Find
import Mathlib.Data.List.Perm.Lattice

namespace CssLab.Hash.Threads

open Chain

variable {Thread : Type*} {owner owner' : Address → Option Thread} {self : Thread}
  {table table' : Shared} {pending : List Address}

/-- The nodes a bucket has to lead to, the last one inserted first. -/
def chain (table : Shared) (index : Nat) : List Address :=
  (table.inserts.filter fun insert =>
    bucket insert.key = index ∧ insert.node ∈ table.linked).map Insert.node

/-- Every bucket leads to its chain, of nodes that are nobody's own. What was inserted is
linked, taken out and `pending`, or freed. -/
structure Wired (owner : Address → Option Thread) (pending : List Address) (table : Shared) :
    Prop where
  buckets : table.buckets.length = 128
  chains : ∀ index < 128, ∃ head, table.buckets[index]? = some head ∧
    Segment (table.heap.field Node.next) head (chain table index) 0
  entries : ∀ insert ∈ table.inserts, insert.node ∈ table.linked → owner insert.node = none ∧
    table.heap.field Node.key insert.node = some insert.key ∧
    table.heap.field Node.value insert.node = some insert.value
  nodup : (table.inserts.map Insert.node).Nodup
  account : (table.inserts.map Insert.node).Perm (table.linked ++ (pending ++ table.heap.freed))

/-- A step changes no node but its own thread's, and gives away no other one. -/
def Spares (self : Thread) (owner : Address → Option Thread) (heap : Ledger Node)
    (owner' : Address → Option Thread) (heap' : Ledger Node) : Prop :=
  ∀ node cell, heap.cells node = some cell → owner node ≠ some self →
    owner' node = owner node ∧ heap'.cells node = some cell

theorem Spares.refl (self : Thread) (owner : Address → Option Thread) (heap : Ledger Node) :
    Spares self owner heap owner heap := fun _ _ found _ => ⟨rfl, found⟩

theorem Spares.field (spares : Spares self owner heap owner' heap') (get : Node → Value)
    (found : heap.field get node = some value) (notMine : owner node ≠ some self) :
    owner' node = owner node ∧ heap'.field get node = some value := by
  obtain ⟨cell, allocated, same⟩ := Option.map_eq_some_iff.mp found
  obtain ⟨owned, kept⟩ := spares node cell allocated notMine
  exact ⟨owned, by rw [Heap.field, kept, Option.map_some, same]⟩

theorem Spares.free (mine : owner p = some self) {heap heap' : Ledger Node}
    (released : heap.free p = some heap') : Spares self owner heap owner heap' := by
  intro node content found notMine
  have apart : node ≠ p := by
    rintro rfl
    exact notMine mine
  have kept : heap'.field id node = some content := by
    rw [Heap.free_eq_some (Ledger.free_eq_some released).1 id, Function.update_of_ne apart,
      Heap.field, found]
    rfl
  exact ⟨rfl, by simpa [Heap.field] using kept⟩

theorem mem_chain : node ∈ chain table index ↔
    ∃ insert ∈ table.inserts, insert.node = node ∧ bucket insert.key = index ∧
      node ∈ table.linked := by
  simp only [chain, List.mem_map, List.mem_filter, decide_eq_true_eq]
  constructor
  · rintro ⟨insert, ⟨member, here, linked⟩, rfl⟩
    exact ⟨insert, member, rfl, here, linked⟩
  · rintro ⟨insert, member, rfl, here, linked⟩
    exact ⟨insert, ⟨member, here, linked⟩, rfl⟩

namespace Wired

theorem linked_nodup (wired : Wired owner pending table) :
    (table.linked ++ (pending ++ table.heap.freed)).Nodup :=
  wired.account.nodup_iff.mp wired.nodup

theorem inserted (wired : Wired owner pending table) (linked : node ∈ table.linked) :
    ∃ insert ∈ table.inserts, insert.node = node := by
  have member := wired.account.mem_iff.mpr (List.mem_append_left _ linked)
  exact List.mem_map.mp member

theorem allocated (wired : Wired owner pending table) (linked : node ∈ table.linked) :
    owner node = none ∧ ∃ cell, table.heap.cells node = some cell := by
  obtain ⟨insert, member, rfl⟩ := wired.inserted linked
  obtain ⟨published, found, -⟩ := wired.entries insert member linked
  exact ⟨published, Heap.field_eq_some found⟩

theorem mem_linked (member : node ∈ chain table index) : node ∈ table.linked := by
  obtain ⟨-, -, -, -, linked⟩ := mem_chain.mp member
  exact linked

theorem chain_nodup (wired : Wired owner pending table) (index : Nat) :
    (chain table index).Nodup :=
  wired.nodup.sublist (List.filter_sublist.map _)

theorem insert_unique (wired : Wired owner pending table) {one two : Insert}
    (first : one ∈ table.inserts) (second : two ∈ table.inserts) (same : one.node = two.node) :
    one = two :=
  List.inj_on_of_nodup_map wired.nodup first second same

theorem chain_unique (wired : Wired owner pending table) (here : node ∈ chain table index)
    (there : node ∈ chain table index') : index = index' := by
  obtain ⟨insert, member, same, rfl, -⟩ := mem_chain.mp here
  obtain ⟨insert', member', same', rfl, -⟩ := mem_chain.mp there
  rw [wired.insert_unique member member' (same.trans same'.symm)]

theorem key_of_mem (wired : Wired owner pending table) (member : node ∈ chain table index) :
    ∃ key, table.heap.field Node.key node = some key ∧ bucket key = index := by
  obtain ⟨insert, inserted, rfl, here, linked⟩ := mem_chain.mp member
  exact ⟨insert.key, (wired.entries insert inserted linked).2.1, here⟩

theorem perm_chains (wired : Wired owner pending table) :
    table.linked.Perm ((List.range 128).flatMap (chain table)) := by
  have parts : ((List.range 128).flatMap (chain table)).Nodup := by
    refine List.nodup_flatMap.mpr ⟨fun index _ => wired.chain_nodup index, ?_⟩
    refine List.nodup_range.imp fun apart => ?_
    intro node here there
    exact apart (wired.chain_unique here there)
  refine (List.perm_ext_iff_of_nodup wired.linked_nodup.of_append_left parts).mpr fun node => ?_
  simp only [List.mem_flatMap, List.mem_range]
  constructor
  · intro linked
    obtain ⟨insert, member, rfl⟩ := wired.inserted linked
    exact ⟨bucket insert.key, bucket_lt _, mem_chain.mpr ⟨insert, member, rfl, rfl, linked⟩⟩
  · rintro ⟨index, -, member⟩
    exact mem_linked member

theorem spared (wired : Wired owner pending table)
    (spares : Spares self owner table.heap owner' table'.heap)
    (buckets : table'.buckets = table.buckets) (inserts : table'.inserts = table.inserts)
    (linked : table'.linked = table.linked)
    (freed : pending' ++ table'.heap.freed = pending ++ table.heap.freed) :
    Wired owner' pending' table' := by
  have chains (index : Nat) : chain table' index = chain table index := by
    rw [chain, inserts, linked]
    rfl
  have notMine {node : Address} (member : node ∈ table.linked) : owner node ≠ some self := by
    rw [(wired.allocated member).1]
    nofun
  refine ⟨buckets ▸ wired.buckets, ?_, ?_, inserts ▸ wired.nodup, ?_⟩
  · intro index inside
    obtain ⟨head, found, list⟩ := wired.chains index inside
    rw [buckets, chains]
    refine ⟨head, found, list.frame fun node member => ?_⟩
    obtain ⟨after, link, -⟩ := list.next_mem member
    rw [link]
    exact (spares.field Node.next link (notMine (mem_linked member))).2
  · intro insert member inLinked
    rw [inserts] at member
    rw [linked] at inLinked
    obtain ⟨published, key, value⟩ := wired.entries insert member inLinked
    have apart := notMine inLinked
    exact ⟨(spares.field Node.key key apart).1.trans published,
      (spares.field Node.key key apart).2, (spares.field Node.value value apart).2⟩
  · rw [inserts, linked, freed]
    exact wired.account

theorem fresh (wired : Wired owner [] table) (mine : owner node = some self) {content : Node}
    (allocated : table.heap.cells node = some content) :
    node ∉ table.inserts.map Insert.node := by
  intro member
  rcases List.mem_append.mp (wired.account.mem_iff.mp member) with linked | freed
  · rw [(wired.allocated linked).1] at mine
    cases mine
  · rw [table.heap.gone node freed] at allocated
    cases allocated

/-- The store to the bucket puts the new node in front of its chain. -/
theorem link (wired : Wired owner [] table) (mine : owner newNode = some self)
    (allocated : table.heap.cells newNode = some ⟨key, value, head⟩)
    (first : table.buckets[bucket key]? = some head) :
    Wired (Function.update owner newNode none) [] { table with
      buckets := table.buckets.set (bucket key) newNode
      inserts := ⟨newNode, key, value⟩ :: table.inserts
      linked := newNode :: table.linked } := by
  have fresh := wired.fresh mine allocated
  have apart {insert : Insert} (member : insert ∈ table.inserts) : insert.node ≠ newNode := by
    rintro same
    exact fresh (List.mem_map.mpr ⟨insert, member, same⟩)
  have older (index : Nat) : (table.inserts.filter fun insert =>
      decide (bucket insert.key = index ∧ insert.node ∈ newNode :: table.linked)) =
      table.inserts.filter fun insert =>
        decide (bucket insert.key = index ∧ insert.node ∈ table.linked) :=
    List.filter_congr fun insert member => by simp [apart member]
  refine ⟨by simp [wired.buckets], ?_, ?_, List.nodup_cons.mpr ⟨fresh, wired.nodup⟩, ?_⟩
  · intro index inside
    obtain ⟨first', found, list⟩ := wired.chains index inside
    by_cases here : bucket key = index
    · subst here
      obtain rfl := Option.some.inj (found.symm.trans first)
      refine ⟨newNode, List.getElem?_set_self (by rw [wired.buckets]; exact inside), ?_⟩
      simp only [chain, List.filter_cons, older]
      simp only [List.mem_cons_self, and_self, decide_true, if_true, List.map_cons]
      exact ⟨rfl, first', by rw [Heap.field, allocated]; rfl, list⟩
    · refine ⟨first', (List.getElem?_set_ne here).trans found, ?_⟩
      simp only [chain, List.filter_cons, older]
      simp only [here, false_and, decide_false, Bool.false_eq_true, if_false]
      exact list
  · intro insert member linked
    rcases List.mem_cons.mp member with rfl | old
    · exact ⟨Function.update_self .., by rw [Heap.field, allocated]; rfl,
        by rw [Heap.field, allocated]; rfl⟩
    · rw [Function.update_of_ne (apart old)]
      exact wired.entries insert old ((List.mem_cons.mp linked).resolve_left (apart old))
  · exact wired.account.cons newNode

theorem free (wired : Wired owner [p] table) (mine : owner p = some self) {heap : Ledger Node}
    (released : table.heap.free p = some heap) : Wired owner [] { table with heap } :=
  wired.spared (.free mine released) rfl rfl rfl (Ledger.free_eq_some released).2

theorem chain_erase (wired : Wired owner [] table) (buckets : List Address) (heap : Ledger Node)
    (p : Address) (index : Nat) :
    chain { table with buckets, heap, linked := table.linked.erase p } index =
      (chain table index).erase p := by
  rw [(wired.chain_nodup index).erase_eq_filter, chain, chain, List.filter_map,
    List.filter_filter]
  refine congrArg (List.map Insert.node) (List.filter_congr fun insert _ => ?_)
  have nodup := wired.linked_nodup.of_append_left
  rw [Bool.eq_iff_iff]
  simp only [Function.comp_apply, decide_eq_true_eq, Bool.and_eq_true, bne_iff_ne, ne_eq,
    nodup.mem_erase_iff]
  tauto

theorem unlinked (wired : Wired owner [] table) (inside : index < 128)
    (split : chain table index = front ++ p :: rest) {buckets : List Address}
    {heap : Ledger Node} (length : buckets.length = table.buckets.length)
    (others : ∀ other, other ≠ index → buckets[other]? = table.buckets[other]?)
    (here : ∃ head, buckets[index]? = some head ∧
      Segment (heap.field Node.next) head (front ++ rest) 0)
    (links : ∀ node, node ∉ chain table index →
      heap.field Node.next node = table.heap.field Node.next node)
    (keys : heap.field Node.key = table.heap.field Node.key)
    (values : heap.field Node.value = table.heap.field Node.value)
    (freed : heap.freed = table.heap.freed) :
    Wired (Function.update owner p (some self)) [p]
      { table with buckets, heap, linked := table.linked.erase p } := by
  have nodup := wired.chain_nodup index
  rw [split] at nodup
  obtain ⟨apart, -⟩ := List.nodup_cons.mp (List.nodup_middle.mp nodup)
  have member : p ∈ chain table index := by simp [split]
  refine ⟨length.trans wired.buckets, ?_, ?_, wired.nodup, ?_⟩
  · intro other bound
    rw [wired.chain_erase]
    by_cases same : other = index
    · subst same
      rw [split, List.erase_append_right _ fun early => apart (List.mem_append_left _ early),
        List.erase_cons_head]
      exact here
    · obtain ⟨head, found, list⟩ := wired.chains other bound
      rw [List.erase_of_not_mem fun there => same (wired.chain_unique there member)]
      refine ⟨head, (others other same).trans found, list.frame fun node there => ?_⟩
      exact links node fun here => same (wired.chain_unique there here)
  · intro insert inserted linked
    obtain ⟨other, still⟩ := (wired.linked_nodup.of_append_left).mem_erase_iff.mp linked
    rw [Function.update_of_ne other]
    change _ ∧ heap.field _ _ = _ ∧ heap.field _ _ = _
    rw [keys, values]
    exact wired.entries insert inserted still
  · refine wired.account.trans ?_
    change (table.linked ++ table.heap.freed).Perm (table.linked.erase p ++ p :: heap.freed)
    rw [freed]
    exact ((List.perm_cons_erase (mem_linked member)).append_right _).trans
      List.perm_middle.symm

theorem storeLink (wired : Wired owner [] table) (self : Thread)
    (split : chain table (bucket key) = front ++ p :: rest)
    (link : table.heap.field Node.next p = some after)
    (moved : hashDelete table key (.storeLink (front.getLast?.getD 0) p after) before =
      some (table', own')) :
    own' = .deleting key (.free p) before ∧ ∃ buckets heap,
      table' = { table with buckets, heap, linked := table.linked.erase p } ∧
      Wired (Function.update owner p (some self)) [p] table' ∧
      (∀ node, node ∉ table.linked → heap.cells node = table.heap.cells node) ∧
      ∃ content, heap.cells p = some content := by
  have inside := bucket_lt key
  have nodup := wired.chain_nodup (bucket key)
  obtain ⟨head, found, list⟩ := wired.chains (bucket key) inside
  rw [split] at nodup list
  have member : p ∈ chain table (bucket key) := by simp [split]
  obtain ⟨-, cell, allocated⟩ := wired.allocated (mem_linked member)
  rcases List.eq_nil_or_concat' front with rfl | ⟨front, prev, rfl⟩
  · simp only [hashDelete, List.getLast?_nil, Option.getD_none, if_true] at moved
    cases moved
    obtain ⟨rfl, after', link', tail⟩ := list
    obtain rfl := Option.some.inj (link'.symm.trans link)
    refine ⟨rfl, _, _, rfl, ?_, fun _ _ => rfl, cell, allocated⟩
    refine wired.unlinked inside split List.length_set ?_ ⟨after', ?_, tail⟩ (fun _ _ => rfl) rfl
      rfl rfl
    · exact fun other apart => List.getElem?_set_ne (Ne.symm apart)
    · exact List.getElem?_set_self (List.getElem?_eq_some_iff.mp found).1
  · have prevMember : prev ∈ chain table (bucket key) := by simp [split]
    obtain ⟨-, prevCell, prevAllocated⟩ := wired.allocated (mem_linked prevMember)
    have apart : p ≠ prev := by
      rintro rfl
      exact (List.nodup_cons.mp (List.nodup_middle.mp nodup)).1 (by simp)
    simp only [hashDelete, List.getLast?_concat, Option.getD_some, Heap.ne_null prevAllocated,
      if_false, store] at moved
    obtain ⟨heap, done, same⟩ := Option.map_eq_some_iff.mp moved
    cases same
    obtain ⟨modified, freed⟩ := Ledger.modify_eq_some done
    have links : heap.field Node.next =
        Function.update (table.heap.field Node.next) prev (some after) :=
      Heap.field_modify_self modified fun _ => rfl
    have others (node : Address) (other : node ≠ prev) :
        heap.cells node = table.heap.cells node := by
      obtain ⟨content, notNull, -, put⟩ := Heap.modify_eq_some modified
      rw [put]
      exact Function.update_of_ne other ..
    refine ⟨rfl, _, heap, rfl, ?_, fun node notLinked => others node ?_, cell, ?_⟩
    · refine wired.unlinked inside split rfl (fun _ _ => rfl) ⟨head, found, ?_⟩ ?_
        (Heap.field_modify modified fun _ => rfl) (Heap.field_modify modified fun _ => rfl) freed
      · rw [links, ← link]
        exact list.unlink nodup
      · intro node notMember
        have other : node ≠ prev := by
          rintro rfl
          exact notMember prevMember
        rw [links, Function.update_of_ne other]
    · rintro rfl
      exact notLinked (mem_linked prevMember)
    · rw [others p apart]
      exact allocated

end Wired

/-- Nothing that was inserted has been taken out. -/
def Undeleted (table : Shared) : Prop := table.linked = table.inserts.map Insert.node

/-- Then the first node of its chain with a key carries what was inserted last. -/
theorem latest_of_split (wired : Wired owner pending table) (undeleted : Undeleted table)
    (split : chain table (bucket key) = front ++ rest)
    (other : ∀ node ∈ front, table.heap.field Node.key node ≠ some key)
    (here : ∀ node ∈ rest.head?, table.heap.field Node.key node = some key) :
    latest table.inserts key = rest.head?.bind (table.heap.field Node.value) := by
  have linked {insert : Insert} (member : insert ∈ table.inserts) :
      insert.node ∈ table.linked := by
    rw [undeleted]
    exact List.mem_map_of_mem member
  have only : (table.inserts.filter fun insert =>
        decide (bucket insert.key = bucket key ∧ insert.node ∈ table.linked)).find?
          (fun insert => decide (insert.key = key)) =
      table.inserts.find? fun insert => decide (insert.key = key) := by
    rw [List.find?_filter]
    refine List.find?_congr fun insert member => ?_
    by_cases same : insert.key = key <;> simp [same, linked member]
  obtain ⟨early, late, parts, earlyNodes, lateNodes⟩ := List.map_eq_append_iff.mp split
  have inserted {insert : Insert} (member : insert ∈ early ++ late) : insert ∈ table.inserts := by
    rw [← parts] at member
    exact (List.mem_filter.mp member).1
  have none : early.find? (fun insert => decide (insert.key = key)) = none := by
    rw [List.find?_eq_none]
    intro insert member same
    have found := wired.entries insert (inserted (List.mem_append_left _ member))
      (linked (inserted (List.mem_append_left _ member)))
    refine other insert.node (earlyNodes ▸ List.mem_map_of_mem member) ?_
    rw [found.2.1, of_decide_eq_true same]
  rw [latest, ← only, parts, List.find?_append, none, Option.none_or, ← lateNodes]
  cases late with
  | nil => rfl
  | cons insert late =>
    have found := wired.entries insert (inserted (by simp)) (linked (inserted (by simp)))
    have same : insert.key = key := by
      have keyed := here insert.node (by simp [← lateNodes])
      exact Option.some.inj (found.2.1.symm.trans keyed)
    simp [same, found.2.2]

end CssLab.Hash.Threads
