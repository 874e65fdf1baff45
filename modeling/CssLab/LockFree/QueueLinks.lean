import CssLab.LockFree.Queue
import Mathlib.Data.List.Nodup

namespace CssLab.LockFree.Queue

open Chain Transition Interleaving

variable {Thread : Type*}

/-- Following `next` from `front` reaches `rear`. The nodes after `front` on
the way are those whose exchange on `rear` has succeeded and that `front` has
not moved past, each once and in the order of the exchanges, and `front` is the
one before them. -/
def Intact (queue : LfQueue) : Prop :=
  ∃ before, Segment queue.heap.next queue.front before queue.rear ∧
    before ++ [queue.rear] = queue.line.drop queue.passed ∧ queue.line.Nodup

/-- The next access does not overwrite a link: a store to `old_rear->next`
finds `old_rear` last, or no longer between `front` and `rear`, and an exchange
on `rear` that succeeds finds the link its thread has stored. -/
def Keeps (queue : LfQueue) : Local → Prop
  | .enqueue (.storeNext _ oldRear) =>
    oldRear = queue.rear ∨ oldRear ∉ queue.line.drop queue.passed
  | .enqueue (.swapRear new oldRear) =>
    queue.rear = oldRear → queue.heap.next oldRear = some new
  | _ => True

instance (queue : LfQueue) : DecidablePred (Keeps queue)
  | .enqueue (.storeNext _ oldRear) =>
    inferInstanceAs (Decidable (oldRear = queue.rear ∨ oldRear ∉ queue.line.drop queue.passed))
  | .enqueue (.swapRear new oldRear) =>
    inferInstanceAs (Decidable (queue.rear = oldRear → queue.heap.next oldRear = some new))
  | .idle | .dequeue _ | .size | .returned _ | .enqueue (.malloc _) | .enqueue (.setValue _ _)
  | .enqueue (.loadRear _) | .enqueue .loadSize | .enqueue (.storeSize _) => .isTrue trivial

theorem Intact.passed_lt (intact : Intact queue) : queue.passed < queue.line.length := by
  obtain ⟨before, -, line, -⟩ := intact
  by_contra short
  rw [List.drop_eq_nil_of_le (by omega)] at line
  simp at line

theorem Intact.rear_mem (intact : Intact queue) : queue.rear ∈ queue.line.drop queue.passed := by
  obtain ⟨before, -, line, -⟩ := intact
  simp [← line]

theorem Intact.front_mem (intact : Intact queue) :
    queue.front ∈ queue.line.take (queue.passed + 1) := by
  have inside := intact.passed_lt
  obtain ⟨before, path, line, -⟩ := intact
  have front : queue.line[queue.passed] = queue.front := by
    rw [List.drop_eq_getElem_cons inside] at line
    cases before with
    | nil =>
      have same : queue.front = queue.rear := path
      rw [same]
      exact (List.cons.inj line).1.symm
    | cons node rest =>
      have same : queue.front = node := path.1
      rw [same]
      exact (List.cons.inj line).1.symm
  rw [List.take_succ_eq_append_getElem inside, front]
  simp

/-- What a thread knows about a node it has allocated and not yet enqueued. -/
def Private (owner : Address → Option Thread) (self : Thread) (queue : LfQueue)
    (new : Address) : Prop :=
  owner new = some self ∧ queue.heap.next new ≠ none

/-- The queue is intact and its nodes belong to no thread. -/
def Whole (owner : Address → Option Thread) (queue : LfQueue) : Prop :=
  Intact queue ∧ ∀ node ∈ queue.line, owner node = none ∧ queue.heap.next node ≠ none

/-- The front a thread has loaded: it is still the front or has been left. While
it is the front of a queue that was not empty, its link stays what was loaded. -/
def Loaded (queue : LfQueue) (oldFront : Address) (nonempty : Prop)
    (frontNext : Option Address) : Prop :=
  oldFront ∈ queue.line.take (queue.passed + 1) ∧
  (oldFront = queue.front → nonempty → queue.front ≠ queue.rear ∧
    ∀ next ∈ frontNext, queue.heap.next queue.front = some next)

def Knows (owner : Address → Option Thread) (self : Thread) (queue : LfQueue) : Local → Prop
  | .enqueue (.setValue _ new) | .enqueue (.loadRear new) => Private owner self queue new
  | .enqueue (.storeNext new oldRear) | .enqueue (.swapRear new oldRear) =>
    Private owner self queue new ∧ oldRear ∈ queue.line
  | .dequeue (.loadRear oldFront) => Loaded queue oldFront False none
  | .dequeue (.loadNext oldFront oldRear) => Loaded queue oldFront (oldFront ≠ oldRear) none
  | .dequeue (.compare oldFront oldRear frontNext) =>
    Loaded queue oldFront (oldFront ≠ oldRear) (some frontNext)
  | .dequeue (.swapFront oldFront frontNext) => Loaded queue oldFront True (some frontNext)
  | _ => True

/-- What the other threads may rely on while one thread takes a step. -/
structure Grows (before after : LfQueue) : Prop where
  line : ∀ node ∈ before.line, node ∈ after.line
  left : ∀ node ∈ before.line.take (before.passed + 1), node ∈ after.line.take (after.passed + 1)
  forward : ∀ node ∈ before.line.take (before.passed + 1), node = after.front → node = before.front
  linked : after.front = before.front → before.front ≠ before.rear →
    after.front ≠ after.rear ∧ after.heap.next after.front = before.heap.next before.front
  allocated : ∀ node, before.heap.next node ≠ none → after.heap.next node ≠ none

theorem Grows.loaded (grows : Grows before after)
    (loaded : Loaded before oldFront nonempty frontNext) :
    Loaded after oldFront nonempty frontNext := by
  obtain ⟨member, here⟩ := loaded
  refine ⟨grows.left _ member, ?_⟩
  intro same holds
  have still := grows.forward _ member same
  obtain ⟨apart, link⟩ := here still holds
  obtain ⟨apart', same'⟩ := grows.linked (same.symm.trans still) apart
  exact ⟨apart', fun next found => same'.trans (link next found)⟩

theorem Grows.knows {owner owner' : Address → Option Thread} (grows : Grows before after)
    (owned : ∀ node, Private owner other before node → owner' node = some other)
    (knows : Knows owner other before theirs) : Knows owner' other after theirs := by
  have keep : ∀ new, Private owner other before new → Private owner' other after new :=
    fun new mine => ⟨owned new mine, grows.allocated new mine.2⟩
  cases theirs with
  | idle => trivial
  | size => trivial
  | returned result => trivial
  | enqueue point =>
    cases point with
    | malloc value => trivial
    | setValue value new => exact keep new knows
    | loadRear new => exact keep new knows
    | storeNext new oldRear => exact ⟨keep new knows.1, grows.line _ knows.2⟩
    | swapRear new oldRear => exact ⟨keep new knows.1, grows.line _ knows.2⟩
    | loadSize => trivial
    | storeSize seen => trivial
  | dequeue point =>
    cases point with
    | loadFront => trivial
    | loadRear oldFront => exact grows.loaded knows
    | loadNext oldFront oldRear => exact grows.loaded knows
    | compare oldFront oldRear frontNext => exact grows.loaded knows
    | swapFront oldFront frontNext => exact grows.loaded knows
    | loadValue oldFront => trivial
    | loadSize value => trivial
    | storeSize value seen => trivial

theorem Intact.front_mem_drop (intact : Intact queue) :
    queue.front ∈ queue.line.drop queue.passed := by
  obtain ⟨before, path, line, -⟩ := intact
  rw [← line]
  exact path.head_mem

/-- A change of the heap that spares the links before `rear`. -/
theorem Intact.reheap (intact : Intact queue) (heap : Heap Node)
    (same : ∀ node ∈ queue.line.drop queue.passed, node ≠ queue.rear →
      heap.next node = queue.heap.next node) :
    Intact { queue with heap } ∧ (queue.front ≠ queue.rear →
      heap.next queue.front = queue.heap.next queue.front) := by
  have front := intact.front_mem_drop
  obtain ⟨before, path, line, nodup⟩ := intact
  refine ⟨⟨before, path.frame ?_, line, nodup⟩, fun apart => same _ front apart⟩
  intro node member
  refine same node (by simp [← line, member]) ?_
  rintro rfl
  have twice : (before ++ [queue.rear]).Nodup := by
    rw [line]
    exact nodup.sublist (List.drop_sublist _ _)
  exact (List.nodup_append.mp twice).2.2 _ member _ (List.mem_singleton.mpr rfl) rfl

theorem Grows.reheap {heap : Heap Node}
    (link : queue.front ≠ queue.rear → heap.next queue.front = queue.heap.next queue.front)
    (allocated : ∀ node, queue.heap.next node ≠ none → heap.next node ≠ none) :
    Grows queue { queue with heap } where
  line := fun _ member => member
  left := fun _ member => member
  forward := fun _ _ same => same
  linked := fun _ apart => ⟨apart, link apart⟩
  allocated := allocated

theorem Grows.resize (queue : LfQueue) (size : BitVec 32) : Grows queue { queue with size } where
  line := fun _ member => member
  left := fun _ member => member
  forward := fun _ _ same => same
  linked := fun _ apart => ⟨apart, rfl⟩
  allocated := fun _ found => found

theorem Grows.refl (queue : LfQueue) : Grows queue queue := Grows.resize queue queue.size

/-- The exchange on `rear` by the thread whose link is in place. -/
theorem Intact.enqueue (intact : Intact queue) (fresh : new ∉ queue.line)
    (link : queue.heap.next queue.rear = some new) :
    Intact { queue with rear := new, line := queue.line ++ [new] } ∧
      Grows queue { queue with rear := new, line := queue.line ++ [new] } := by
  have inside := intact.passed_lt
  have front := intact.front_mem
  obtain ⟨before, path, line, nodup⟩ := intact
  constructor
  · refine ⟨before ++ [queue.rear], segment_concat.mpr ⟨path, link⟩, ?_, ?_⟩
    · change before ++ [queue.rear] ++ [new] = (queue.line ++ [new]).drop queue.passed
      rw [List.drop_append_of_le_length (by omega), line]
    · refine List.nodup_append.mpr ⟨nodup, List.nodup_singleton _, ?_⟩
      rintro node member other single rfl
      rw [List.mem_singleton.mp single] at member
      exact fresh member
  · refine ⟨fun _ member => List.mem_append_left _ member, ?_, fun _ _ same => same, ?_,
      fun _ found => found⟩
    · intro node member
      change node ∈ (queue.line ++ [new]).take (queue.passed + 1)
      rwa [List.take_append_of_le_length (by omega)]
    · intro _ _
      refine ⟨?_, rfl⟩
      intro same
      have same' : queue.front = new := same
      exact fresh (same' ▸ List.mem_of_mem_take front)

/-- The exchange on `front` by a thread that has loaded its link. -/
theorem Intact.dequeue (intact : Intact queue) (apart : queue.front ≠ queue.rear)
    (link : queue.heap.next queue.front = some next) :
    Intact { queue with front := next, passed := queue.passed + 1 } ∧
      Grows queue { queue with front := next, passed := queue.passed + 1 } := by
  have inside := intact.passed_lt
  have front := intact.front_mem
  obtain ⟨before, path, line, nodup⟩ := intact
  cases before with
  | nil => exact absurd path apart
  | cons node rest =>
    obtain ⟨rfl, after, link', tail⟩ := path
    have same : after = next := Option.some.inj (link'.symm.trans link)
    subst same
    have line' : rest ++ [queue.rear] = queue.line.drop (queue.passed + 1) := by
      rw [← List.tail_drop, ← line]
      rfl
    have ahead : after ∉ queue.line.take (queue.passed + 1) := by
      intro behind
      exact List.disjoint_take_drop nodup (Nat.le_refl _) behind (line' ▸ tail.head_mem)
    refine ⟨⟨rest, tail, line', nodup⟩, fun _ member => member, ?_, ?_, ?_, fun _ found => found⟩
    · intro node member
      exact (List.take_subset_take_left _ (by simp)) member
    · rintro node member rfl
      exact absurd member ahead
    · rintro back
      have back' : after = queue.front := back
      exact absurd (back' ▸ front) ahead

/-- The step leaves to the other threads what they own. -/
def Spares (self : Thread) (queue : LfQueue) (owner owner' : Address → Option Thread) : Prop :=
  ∀ other node, other ≠ self → Private owner other queue node → owner' node = some other

theorem Spares.refl (self : Thread) (queue : LfQueue) (owner : Address → Option Thread) :
    Spares self queue owner owner := fun _ _ _ mine => mine.1

theorem Whole.malloc [DecidableEq Thread] {owner : Address → Option Thread}
    (whole : Whole owner queue) (self : Thread)
    (done : queue.heap.malloc new garbage = some heap) :
    Whole (Function.update owner new (some self)) { queue with heap } ∧
      Private (Function.update owner new (some self)) self { queue with heap } new ∧
      Grows queue { queue with heap } ∧
      Spares self queue owner (Function.update owner new (some self)) := by
  have ⟨intact, free⟩ := whole
  obtain ⟨unused, links, -⟩ := Heap.malloc_node done
  have apart : ∀ node, queue.heap.next node ≠ none → node ≠ new := by
    rintro node used rfl
    exact used unused
  have link : ∀ node, queue.heap.next node ≠ none → heap.next node = queue.heap.next node := by
    intro node used
    rw [links, Function.update_of_ne (apart node used)]
  obtain ⟨intact', front⟩ := intact.reheap heap fun node member _ =>
    link node (free node (List.mem_of_mem_drop member)).2
  refine ⟨⟨intact', ?_⟩, ?_, .reheap front ?_, ?_⟩
  · intro node member
    have used := (free node member).2
    rw [Function.update_of_ne (apart node used), link node used]
    exact free node member
  · simp [Private, links]
  · exact fun node used => (link node used).symm ▸ used
  · intro other node _ mine
    rw [Function.update_of_ne (apart node mine.2)]
    exact mine.1

theorem Whole.storeNext {owner : Address → Option Thread} (whole : Whole owner queue)
    (keeps : oldRear = queue.rear ∨ oldRear ∉ queue.line.drop queue.passed)
    (done : queue.heap.setNext oldRear new = some heap) :
    Whole owner { queue with heap } ∧ Grows queue { queue with heap } := by
  have ⟨intact, free⟩ := whole
  obtain ⟨links, -⟩ := Heap.setNext_eq_some done
  have allocated : ∀ node, queue.heap.next node ≠ none → heap.next node ≠ none := by
    intro node used
    rw [links]
    by_cases here : node = oldRear
    · simp [here]
    · simpa [here] using used
  obtain ⟨intact', front⟩ := intact.reheap heap fun node member apart => by
    rw [links, Function.update_of_ne]
    rintro rfl
    rcases keeps with last | gone
    · exact apart last
    · exact gone member
  refine ⟨⟨intact', ?_⟩, .reheap front allocated⟩
  exact fun node member => ⟨(free node member).1, allocated node (free node member).2⟩

theorem Whole.swapRear [DecidableEq Thread] {owner : Address → Option Thread}
    (whole : Whole owner queue) (mine : Private owner self queue new)
    (link : queue.heap.next queue.rear = some new) :
    Whole (Function.update owner new none)
        { queue with rear := new, line := queue.line ++ [new] } ∧
      Grows queue { queue with rear := new, line := queue.line ++ [new] } ∧
      Spares self queue owner (Function.update owner new none) := by
  have ⟨intact, free⟩ := whole
  have fresh : new ∉ queue.line := by
    intro member
    have unowned := (free new member).1
    rw [mine.1] at unowned
    cases unowned
  obtain ⟨intact', grows⟩ := intact.enqueue fresh link
  refine ⟨⟨intact', ?_⟩, grows, ?_⟩
  · intro node member
    rcases List.mem_append.mp member with old | added
    · have apart : node ≠ new := by
        rintro rfl
        exact fresh old
      rw [Function.update_of_ne apart]
      exact free node old
    · rw [List.mem_singleton.mp added]
      exact ⟨Function.update_self .., mine.2⟩
  · intro other node apart theirs
    rw [Function.update_of_ne]
    · exact theirs.1
    · rintro rfl
      exact apart (Option.some.inj (theirs.1.symm.trans mine.1))

/-- A step of `lf_queue_enqueue` that overwrites no link keeps the outline. -/
theorem enqueue_moves [DecidableEq Thread] {owner : Address → Option Thread} {point : Enqueue}
    (whole : Whole owner queue) (knows : Knows owner self queue (.enqueue point))
    (keeps : Keeps queue (.enqueue point))
    (moved : lfQueueEnqueue queue point action = some (queue', own)) :
    ∃ owner' : Address → Option Thread, Whole owner' queue' ∧ Knows owner' self queue' own ∧
      Grows queue queue' ∧ Spares self queue owner owner' := by
  have ⟨intact, free⟩ := whole
  cases action with
  | call call => cases point <;> cases moved
  | malloc new garbage =>
    cases point with
    | malloc value =>
      obtain ⟨heap, done, same⟩ := Option.map_eq_some_iff.mp moved
      cases same
      exact ⟨_, whole.malloc self done⟩
    | _ => cases moved
  | go =>
    cases point with
    | malloc value => cases moved
    | setValue value new =>
      obtain ⟨heap, done, same⟩ := Option.map_eq_some_iff.mp moved
      cases same
      obtain ⟨links, -⟩ := Heap.setValue_eq_some done
      obtain ⟨intact', front⟩ := intact.reheap heap fun node _ _ => by rw [links]
      refine ⟨owner, ⟨intact', ?_⟩, ?_, .reheap front ?_, .refl self queue owner⟩
      · simpa only [links] using free
      · simpa only [Knows, Private, links] using knows
      · simp only [links, imp_self, implies_true]
    | loadRear new =>
      cases moved
      exact ⟨owner, whole, ⟨knows, List.mem_of_mem_drop intact.rear_mem⟩, .refl queue,
        .refl self queue owner⟩
    | storeNext new oldRear =>
      obtain ⟨heap, done, same⟩ := Option.map_eq_some_iff.mp moved
      cases same
      obtain ⟨whole', grows⟩ := whole.storeNext keeps done
      refine ⟨owner, whole', ⟨⟨knows.1.1, ?_⟩, knows.2⟩, grows, .refl self queue owner⟩
      exact grows.allocated new knows.1.2
    | swapRear new oldRear =>
      simp only [lfQueueEnqueue] at moved
      split at moved <;> cases moved
      · rename_i last
        obtain ⟨whole', grows, spares⟩ := whole.swapRear knows.1 (last ▸ keeps last)
        exact ⟨_, whole', trivial, grows, spares⟩
      · exact ⟨owner, whole, knows.1, .refl queue, .refl self queue owner⟩
    | loadSize =>
      cases moved
      exact ⟨owner, whole, trivial, .refl queue, .refl self queue owner⟩
    | storeSize seen =>
      cases moved
      exact ⟨owner, whole, trivial, .resize queue _, .refl self queue owner⟩

theorem dequeue_moves {owner : Address → Option Thread} {point : Dequeue}
    (whole : Whole owner queue) (knows : Knows owner self queue (.dequeue point))
    (moved : lfQueueDequeue queue point action = some (queue', own)) :
    Whole owner queue' ∧ Knows owner self queue' own ∧ Grows queue queue' := by
  have ⟨intact, free⟩ := whole
  cases action with
  | call call => cases point <;> cases moved
  | malloc node garbage => cases point <;> cases moved
  | go =>
    cases point with
    | loadFront =>
      cases moved
      exact ⟨whole, ⟨intact.front_mem, by simp⟩, .refl queue⟩
    | loadRear oldFront =>
      cases moved
      refine ⟨whole, ⟨knows.1, ?_⟩, .refl queue⟩
      rintro rfl apart
      exact ⟨apart, by simp⟩
    | loadNext oldFront oldRear =>
      obtain ⟨frontNext, found, same⟩ := Option.map_eq_some_iff.mp moved
      cases same
      refine ⟨whole, ⟨knows.1, ?_⟩, .refl queue⟩
      rintro rfl apart
      exact ⟨(knows.2 rfl apart).1, by simpa using found⟩
    | compare oldFront oldRear frontNext =>
      simp only [lfQueueDequeue] at moved
      split at moved <;> cases moved
      · exact ⟨whole, trivial, .refl queue⟩
      · rename_i apart
        exact ⟨whole, ⟨knows.1, fun same _ => knows.2 same apart⟩, .refl queue⟩
    | swapFront oldFront frontNext =>
      simp only [lfQueueDequeue] at moved
      split at moved <;> cases moved
      · rename_i same
        obtain ⟨apart, link⟩ := knows.2 same.symm trivial
        obtain ⟨intact', grows⟩ := intact.dequeue apart (link frontNext rfl)
        exact ⟨⟨intact', free⟩, trivial, grows⟩
      · exact ⟨whole, trivial, .refl queue⟩
    | loadValue oldFront =>
      obtain ⟨value, -, same⟩ := Option.map_eq_some_iff.mp moved
      cases same
      exact ⟨whole, trivial, .refl queue⟩
    | loadSize value =>
      cases moved
      exact ⟨whole, trivial, .refl queue⟩
    | storeSize value seen =>
      cases moved
      exact ⟨whole, trivial, .resize queue _⟩

theorem thread_moves [DecidableEq Thread] {owner : Address → Option Thread}
    (whole : Whole owner queue) (knows : Knows owner self queue own)
    (keeps : Keeps queue own) (moved : thread queue own action = some (queue', own')) :
    ∃ owner' : Address → Option Thread, Whole owner' queue' ∧ Knows owner' self queue' own' ∧
      ∀ other theirs, other ≠ self → Knows owner other queue theirs →
        Knows owner' other queue' theirs := by
  have same : ∀ other theirs, other ≠ self → Knows owner other queue theirs →
      Knows owner other queue theirs := fun _ _ _ known => known
  cases own with
  | idle =>
    cases action with
    | call call =>
      cases moved
      exact ⟨owner, whole, by cases call <;> trivial, same⟩
    | malloc node garbage => cases moved
    | go => cases moved
  | enqueue point =>
    obtain ⟨owner', whole', mine, grows, spares⟩ := enqueue_moves whole knows keeps moved
    exact ⟨owner', whole', mine, fun other _ apart known =>
      grows.knows (fun node => spares other node apart) known⟩
  | dequeue point =>
    obtain ⟨whole', mine, grows⟩ := dequeue_moves whole knows moved
    exact ⟨owner, whole', mine, fun _ _ _ known => grows.knows (fun _ kept => kept.1) known⟩
  | size =>
    cases action with
    | call call => cases moved
    | malloc node garbage => cases moved
    | go =>
      cases moved
      exact ⟨owner, whole, trivial, same⟩
  | returned result =>
    cases action with
    | call call => cases moved
    | malloc node garbage => cases moved
    | go =>
      cases moved
      exact ⟨owner, whole, trivial, same⟩

/-- A store between `front` and `rear` breaks the queue: `old_rear` points to a
node that has not been enqueued. -/
theorem not_intact_of_store {owner : Address → Option Thread} (whole : Whole owner queue)
    (unenqueued : owner new = some self) (notLast : oldRear ≠ queue.rear)
    (onPath : oldRear ∈ queue.line.drop queue.passed)
    (done : queue.heap.setNext oldRear new = some heap) : ¬ Intact { queue with heap } := by
  obtain ⟨-, free⟩ := whole
  rintro ⟨before, path, line, -⟩
  obtain ⟨links, -⟩ := Heap.setNext_eq_some done
  have inside : oldRear ∈ before := by
    have member : oldRear ∈ before ++ [queue.rear] := line ▸ onPath
    rw [List.mem_append, List.mem_singleton] at member
    exact member.resolve_right notLast
  obtain ⟨after, link, member⟩ := path.next_mem inside
  have stored : new = after := by simpa [links] using link
  have enqueued : new ∈ queue.line.drop queue.passed := by
    rw [stored, ← line]
    exact member
  have unowned := (free new (List.mem_of_mem_drop enqueued)).1
  rw [unenqueued] at unowned
  cases unowned

/-- So does an exchange on `rear` when another node is linked behind it. -/
theorem not_intact_of_swap (intact : Intact queue)
    (astray : queue.heap.next queue.rear ≠ some new) :
    ¬ Intact { queue with rear := new, line := queue.line ++ [new] } := by
  have inside := intact.passed_lt
  obtain ⟨before, -, line, -⟩ := intact
  rintro ⟨before', path, line', -⟩
  have extended : before' ++ [new] = before ++ [queue.rear] ++ [new] := by
    rw [line, ← List.drop_append_of_le_length (by omega)]
    exact line'
  rw [List.append_cancel_right extended] at path
  exact astray (segment_concat.mp path).2

theorem not_intact_of_overwrite {owner : Address → Option Thread} (whole : Whole owner queue)
    (knows : Knows owner self queue own) (overwrites : ¬ Keeps queue own)
    (moved : thread queue own action = some (queue', own')) : ¬ Intact queue' := by
  cases own with
  | enqueue point =>
    cases point with
    | storeNext new oldRear =>
      cases action with
      | go =>
        obtain ⟨heap, done, same⟩ := Option.map_eq_some_iff.mp moved
        cases same
        obtain ⟨notLast, onPath⟩ := not_or.mp overwrites
        exact not_intact_of_store whole knows.1.1 notLast (not_not.mp onPath) done
      | _ => cases moved
    | swapRear new oldRear =>
      cases action with
      | go =>
        obtain ⟨last, astray⟩ := Classical.not_imp.mp overwrites
        subst last
        simp only [lfQueueEnqueue, thread, if_pos] at moved
        cases moved
        exact not_intact_of_swap whole.1 astray
      | _ => cases moved
    | _ => exact absurd trivial overwrites
  | _ => exact absurd trivial overwrites

theorem start_outline (init : lfQueueInit heap node = some queue) :
    Outline Whole Knows (start queue : State Thread LfQueue Local) := by
  obtain ⟨heap', done, same⟩ := Option.map_eq_some_iff.mp init
  cases same
  obtain ⟨-, links, -⟩ := Heap.malloc_node done
  refine ⟨fun _ => none, ⟨⟨[], rfl, rfl, List.nodup_singleton _⟩, ?_⟩, fun _ => trivial⟩
  rintro other member
  rw [List.mem_singleton.mp member]
  exact ⟨rfl, by simp [start, links]⟩

/-- In every run the queue stays intact exactly when no step of the run
overwrites a link. -/
theorem intact_iff_keeps [DecidableEq Thread] (init : lfQueueInit heap node = some queue)
    (events : List (Thread × Action)) :
    Always threads (fun state => Intact state.shared) (start queue) events ↔
      EachStep threads (fun state event => Keeps state.shared (state.locals event.1))
        (start queue) events := by
  refine always_iff_eachStep (Outline Whole Knows) ?_ ?_ ?_ (start_outline init) events
  · intro state event after outline keeps stepped
    exact outline.step (fun _ _ whole knows moved => thread_moves whole knows keeps moved) stepped
  · rintro state ⟨owner, whole, -⟩
    exact whole.1
  · rintro state event after ⟨owner, whole, knows⟩ overwrites stepped
    obtain ⟨own, moved, -⟩ := step_eq_some stepped
    exact not_intact_of_overwrite whole (knows event.1) overwrites moved

/-- One thread enqueues, the other one dequeues while the first one counts. -/
theorem intact_iff_keeps_handover :
    Always threads (fun state : State (Fin 2) LfQueue Local => Intact state.shared) (start single)
      [(0, .call (.enqueue 7)), (0, .malloc 2 ⟨5, 5⟩), (0, .go), (0, .go), (0, .go), (0, .go),
        (1, .call .dequeue), (1, .go), (1, .go), (0, .go), (1, .go), (1, .go), (1, .go)] := by
  have init : lfQueueInit Heap.empty 1 = some single := rfl
  refine (intact_iff_keeps init _).mpr ?_
  decide

/-- Two enqueuers: both store to the `next` of the first node, the second one
last, and then the first one's exchange succeeds. -/
theorem link_overwritten :
    ¬ ∀ (heap : Heap Node) (node : Address) (queue : LfQueue) (state : State (Fin 2) LfQueue Local),
      lfQueueInit heap node = some queue → Reachable threads (start queue) state →
        Intact state.shared := by
  intro all
  obtain ⟨before, path, line, -⟩ := all Heap.empty 1 single _ rfl (reachable_get
    [(0, .call (.enqueue 7)), (0, .malloc 2 ⟨5, 5⟩), (0, .go), (0, .go), (0, .go),
      (1, .call (.enqueue 8)), (1, .malloc 3 ⟨5, 5⟩), (1, .go), (1, .go), (1, .go), (0, .go)] rfl)
  have same : before ++ [2] = [1] ++ [2] := line
  rw [List.append_cancel_right same] at path
  obtain ⟨-, after, link, last⟩ := path
  have found : some 3 = some after := link
  have reached : after = 2 := last
  rw [reached] at found
  exact absurd found (by decide)

end CssLab.LockFree.Queue
