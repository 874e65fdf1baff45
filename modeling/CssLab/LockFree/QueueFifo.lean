import CssLab.Lib.Counter
import CssLab.LockFree.Queue
import Mathlib.Data.List.Nodup

namespace CssLab.LockFree.Queue

open Chain

/-- A call with the node that its `malloc` gives, if it makes one. -/
inductive Request
  | enqueue (value : BitVec 32) (new : Address) (garbage : Node)
  | dequeue
  | size

namespace Request

def call : Request → Call
  | .enqueue value _ _ => .enqueue value
  | .dequeue => .dequeue
  | .size => .size

def allocates : Request → Option Address
  | .enqueue _ new _ => some new
  | _ => none

/-- The action that lets the calling thread go on. -/
def resolve : Request → Local → Action
  | .enqueue _ new garbage, .enqueue (.malloc _) => .malloc new garbage
  | _, _ => .go

end Request

/-- Go on until the call returns; nothing if the steps run out. -/
def finish (request : Request) : Nat → LfQueue → Local → Option (Option (BitVec 32) × LfQueue)
  | 0, _, _ => none
  | _ + 1, queue, .returned result => some (result, queue)
  | steps + 1, queue, own =>
    (thread queue own (request.resolve own)).bind fun after =>
      finish request steps after.1 after.2

/-- One call, made and returned, with the queue on both sides of it. -/
structure Exchange where
  before : LfQueue
  call : Call
  result : Option (BitVec 32)
  after : LfQueue

/-- One call after the other, each with at most `steps` steps. -/
def performAll (steps : Nat) : LfQueue → List Request → Option (List Exchange)
  | _, [] => some []
  | queue, request :: rest =>
    (finish request steps queue (enter request.call)).bind fun done =>
      (performAll steps done.2 rest).map (⟨queue, request.call, done.1, done.2⟩ :: ·)

/-- What a queue that holds `contents`, oldest first, has to answer. -/
def Answers (contents : List (BitVec 32)) (exchange : Exchange) : Prop :=
  match exchange.call, contents with
  | .enqueue _, _ => exchange.result = none
  | .dequeue, [] => exchange.result = some (-1) ∧ exchange.after = exchange.before
  | .dequeue, value :: _ => exchange.result = some value
  | .size, _ => ∃ size, exchange.result = some size ∧ size.toInt = contents.length

/-- What it holds afterwards. -/
def holdsAfter (contents : List (BitVec 32)) : Call → List (BitVec 32)
  | .enqueue value => contents ++ [value]
  | .dequeue => contents.tail
  | .size => contents

def Fifo : List (BitVec 32) → List Exchange → Prop
  | _, [] => True
  | contents, exchange :: rest =>
    Answers contents exchange ∧ Fifo (holdsAfter contents exchange.call) rest

/-- The oldest value is 0 whenever it is taken out, and no size is asked for
that an `int` does not hold. -/
def Harmless : List (BitVec 32) → List Call → Prop
  | _, [] => True
  | contents, call :: rest =>
    (match call, contents with
      | .dequeue, value :: _ => value = 0
      | .size, _ => contents.length < 2 ^ 31
      | _, _ => True) ∧
    Harmless (holdsAfter contents call) rest

/-- The nodes of the requests are distinct and not in use. -/
def Fresh (heap : Heap Node) (requests : List Request) : Prop :=
  (requests.filterMap Request.allocates).Nodup ∧
    ∀ node ∈ requests.filterMap Request.allocates, node ≠ 0 ∧ heap.next node = none

/-- The nodes from `front` to `rear` carry `last` and then the contents: the
front node is the one whose value has been handed out already. -/
def Carries (queue : LfQueue) (last : BitVec 32) (contents : List (BitVec 32)) : Prop :=
  ∃ before, Segment queue.heap.next queue.front before queue.rear ∧
    (before ++ [queue.rear]).map queue.heap.value = (last :: contents).map some ∧
    (before ++ [queue.rear]).Nodup ∧ queue.size = BitVec.ofNat 32 contents.length

theorem allocated_of_values {heap : Heap Node} {nodes : List Address} {words : List (BitVec 32)}
    (values : nodes.map heap.value = words.map some)
    (member : node ∈ nodes) : ∃ link, heap.next node = some link := by
  have found : heap.value node ∈ nodes.map heap.value := List.mem_map_of_mem member
  rw [values] at found
  obtain ⟨word, -, carried⟩ := List.mem_map.mp found
  obtain ⟨cell, allocated⟩ := Heap.field_eq_some carried.symm
  exact ⟨cell.next, by simp [Heap.field, allocated]⟩

theorem finish_enqueue (carries : Carries queue last contents)
    (notNull : new ≠ 0) (unused : queue.heap.next new = none) :
    ∃ after, finish (.enqueue value new garbage) (steps + 8) queue (enter (.enqueue value)) =
        some (none, after) ∧ Carries after last (contents ++ [value]) ∧
      ∀ node, node ≠ new → queue.heap.next node = none → after.heap.next node = none := by
  obtain ⟨before, path, values, nodup, size⟩ := carries
  have apart : ∀ node ∈ before ++ [queue.rear], node ≠ new := by
    rintro node member rfl
    obtain ⟨link, used⟩ := allocated_of_values values member
    rw [unused] at used
    cases used
  have rearMember : queue.rear ∈ before ++ [queue.rear] := by simp
  obtain ⟨link, rear⟩ := allocated_of_values values rearMember
  -- the three stores of the call
  obtain ⟨heap₁, allocated⟩ : ∃ heap₁, queue.heap.malloc new garbage = some heap₁ :=
    ⟨_, Heap.malloc_fresh notNull (Heap.field_eq_none.mp unused) garbage⟩
  obtain ⟨-, links₁, values₁⟩ := Heap.malloc_node allocated
  have cell₁ : heap₁.next new = some garbage.next := by simp [links₁]
  obtain ⟨heap₂, written⟩ : ∃ heap₂, heap₁.setValue new value = some heap₂ :=
    Heap.modify_node cell₁ _
  obtain ⟨links₂, values₂⟩ := Heap.setValue_eq_some written
  have cell₂ : heap₂.next queue.rear = some link := by
    rw [links₂, links₁, Function.update_of_ne (apart _ rearMember), rear]
  obtain ⟨heap₃, linked⟩ : ∃ heap₃, heap₂.setNext queue.rear new = some heap₃ :=
    Heap.modify_node cell₂ _
  obtain ⟨links₃, values₃⟩ := Heap.setNext_eq_some linked
  have carried : ∀ node, node ≠ new → heap₃.value node = queue.heap.value node := by
    intro node other
    rw [values₃, values₂, values₁, Function.update_of_ne other, Function.update_of_ne other]
  have link₃ : ∀ node, node ≠ new → node ≠ queue.rear →
      heap₃.next node = queue.heap.next node := by
    intro node other notLast
    rw [links₃, links₂, links₁, Function.update_of_ne notLast, Function.update_of_ne other]
  refine ⟨{ queue with
      rear := new
      size := queue.size + 1
      heap := heap₃
      line := queue.line ++ [new] }, ?_, ⟨before ++ [queue.rear], ?_, ?_, ?_, ?_⟩, ?_⟩
  · simp only [finish, thread, enter, lfQueueEnqueue, Request.resolve, allocated, written, linked,
      Option.map_some, Option.bind_some, if_pos]
  · have notRear := (List.nodup_append.mp nodup).2.2
    refine segment_concat.mpr ⟨path.frame fun node member => link₃ node ?_ ?_, ?_⟩
    · exact apart node (by simp [member])
    · exact notRear node member _ (List.mem_singleton.mpr rfl)
    · rw [links₃, Function.update_self]
  · have old : (before ++ [queue.rear]).map heap₃.value = (last :: contents).map some := by
      rw [← values]
      exact List.map_congr_left fun node member => carried node (apart node member)
    have added : heap₃.value new = some value := by
      rw [values₃, values₂, Function.update_self]
    rw [List.map_append, old]
    simp [added]
  · refine List.nodup_append.mpr ⟨nodup, List.nodup_singleton _, ?_⟩
    intro node member other single
    rw [List.mem_singleton.mp single]
    exact apart node member
  · rw [size, List.length_append, BitVec.ofNat_add]
    rfl
  · intro node other free
    rw [link₃ node other, free]
    rintro rfl
    rw [rear] at free
    cases free

/-- On an empty queue the call returns -1 and has changed nothing. -/
theorem finish_dequeue_empty (carries : Carries queue last []) :
    finish .dequeue (steps + 5) queue (enter .dequeue) = some (some (-1), queue) := by
  obtain ⟨before, path, values, -⟩ := carries
  have rearMember : queue.rear ∈ before ++ [queue.rear] := by simp
  obtain ⟨link, rear⟩ := allocated_of_values values rearMember
  have alone : before = [] := by
    have count := congrArg List.length values
    simpa using count
  subst alone
  have same : queue.front = queue.rear := path
  simp only [finish, thread, enter, lfQueueDequeue, Request.resolve, same, rear, Option.map_some,
    Option.bind_some, if_pos]

/-- On any other queue it returns the value handed out before, and the oldest
value is the next one to be handed out. -/
theorem finish_dequeue (carries : Carries queue last (value :: contents)) :
    ∃ after, finish .dequeue (steps + 9) queue (enter .dequeue) = some (some last, after) ∧
      Carries after value contents ∧ after.heap = queue.heap := by
  obtain ⟨before, path, values, nodup, size⟩ := carries
  cases before with
  | nil => simp at values
  | cons node rest =>
    obtain ⟨rfl, next, link, tail⟩ := path
    have apart : queue.front ≠ queue.rear :=
      (List.nodup_append.mp nodup).2.2 _ List.mem_cons_self _ (List.mem_singleton.mpr rfl)
    have head : queue.heap.value queue.front = some last := (List.cons.inj values).1
    refine ⟨{ queue with front := next, size := queue.size - 1, passed := queue.passed + 1 },
      ?_, ⟨rest, tail, (List.cons.inj values).2, (List.nodup_cons.mp nodup).2, ?_⟩, rfl⟩
    · simp only [finish, thread, enter, lfQueueDequeue, Request.resolve, link, apart, head,
        Option.map_some, Option.bind_some, if_pos, if_false]
    · rw [size, List.length_cons, BitVec.ofNat_add]
      exact BitVec.add_sub_cancel _ _

theorem finish_size (queue : LfQueue) :
    finish .size (steps + 2) queue (enter .size) = some (some queue.size, queue) := rfl

theorem Fresh.tail {heap heap' : Heap Node} (fresh : Fresh heap (request :: rest))
    (free : ∀ node ∈ rest.filterMap Request.allocates, heap.next node = none →
      heap'.next node = none) : Fresh heap' rest := by
  have suffix : (rest.filterMap Request.allocates).Sublist
      ((request :: rest).filterMap Request.allocates) :=
    (List.sublist_cons_self request rest).filterMap _
  refine ⟨fresh.1.sublist suffix, ?_⟩
  intro node member
  obtain ⟨notNull, unused⟩ := fresh.2 node (suffix.subset member)
  exact ⟨notNull, free node member unused⟩

theorem performAll_cons
    (done : finish request steps queue (enter request.call) = some (result, after))
    (ran : performAll steps after rest = some exchanges) :
    performAll steps queue (request :: rest) =
      some (⟨queue, request.call, result, after⟩ :: exchanges) := by
  simp only [performAll, done, ran, Option.bind_some, Option.map_some]

/-- The induction is on the calls. As long as the value handed out last is 0,
the answers go wrong exactly when the specification takes out another value. -/
theorem performAll_carries (carries : Carries queue last contents)
    (fresh : Fresh queue.heap requests) :
    ∃ exchanges, performAll (steps + 9) queue requests = some exchanges ∧
      (last = 0 → (Fifo contents exchanges ↔ Harmless contents (requests.map Request.call))) := by
  induction requests generalizing queue last contents with
  | nil => exact ⟨[], rfl, fun _ => iff_of_true trivial trivial⟩
  | cons request rest ih =>
    cases request with
    | enqueue value new garbage =>
      obtain ⟨distinct, unused⟩ := id fresh
      obtain ⟨notNull, free⟩ := unused new List.mem_cons_self
      obtain ⟨after, done, carries', kept⟩ := finish_enqueue carries notNull free
      have apart : ∀ node ∈ rest.filterMap Request.allocates, node ≠ new := by
        rintro node member rfl
        exact (List.nodup_cons.mp distinct).1 member
      obtain ⟨exchanges, ran, answers⟩ :=
        ih carries' (fresh.tail fun node member => kept node (apart node member))
      refine ⟨_, performAll_cons done ran, ?_⟩
      intro zero
      exact and_congr (iff_of_true rfl trivial) (answers zero)
    | dequeue =>
      cases contents with
      | nil =>
        have done : finish .dequeue (steps + 9) queue (enter .dequeue) = some (some (-1), queue) :=
          finish_dequeue_empty carries
        obtain ⟨exchanges, ran, answers⟩ := ih carries (fresh.tail fun _ _ free => free)
        refine ⟨_, performAll_cons done ran, ?_⟩
        intro zero
        exact and_congr (iff_of_true ⟨rfl, rfl⟩ trivial) (answers zero)
      | cons value contents =>
        obtain ⟨after, done, carries', heap⟩ := finish_dequeue carries
        obtain ⟨exchanges, ran, answers⟩ := ih carries' (fresh.tail fun _ _ free => heap ▸ free)
        refine ⟨_, performAll_cons done ran, ?_⟩
        rintro rfl
        by_cases zero : value = 0
        · subst zero
          exact and_congr (iff_of_true rfl rfl) (answers rfl)
        · have wrong : ¬ some 0 = some value := fun same => zero (Option.some.inj same).symm
          exact iff_of_false (fun fifo => wrong fifo.1) (fun harmless => zero harmless.1)
    | size =>
      have done : finish .size (steps + 9) queue (enter .size) = some (some queue.size, queue) :=
        finish_size queue
      obtain ⟨exchanges, ran, answers⟩ := ih carries (fresh.tail fun _ _ free => free)
      refine ⟨_, performAll_cons done ran, ?_⟩
      intro zero
      obtain ⟨-, -, -, -, size⟩ := carries
      refine and_congr ?_ (answers zero)
      rw [← Counter.toInt_eq_iff, ← size]
      exact ⟨fun ⟨_, same, count⟩ => Option.some.inj same ▸ count, fun count => ⟨_, rfl, count⟩⟩

theorem init_carries (init : lfQueueInit heap node = some queue) : Carries queue 0 [] := by
  obtain ⟨heap', done, same⟩ := Option.map_eq_some_iff.mp init
  cases same
  obtain ⟨-, -, values⟩ := Heap.malloc_node done
  exact ⟨[], rfl, by simp [values], List.nodup_singleton _, rfl⟩

/-- Every sequence of calls by one thread returns, and it answers as a queue
exactly when every value that should come out is 0 and every size is an `int`. -/
theorem fifo_iff_harmless (init : lfQueueInit heap node = some queue)
    (fresh : Fresh queue.heap requests) (enough : 9 ≤ steps) :
    ∃ exchanges, performAll steps queue requests = some exchanges ∧
      (Fifo [] exchanges ↔ Harmless [] (requests.map Request.call)) := by
  obtain ⟨more, rfl⟩ := Nat.exists_eq_add_of_le' enough
  obtain ⟨exchanges, ran, answers⟩ := performAll_carries (init_carries init) fresh
  exact ⟨exchanges, ran, answers rfl⟩

/-- Zeros go through the queue as they should. -/
theorem fifo_iff_harmless_zeros :
    ∃ exchanges, performAll 9 single
        [.enqueue 0 2 ⟨9, 9⟩, .enqueue 0 3 ⟨9, 9⟩, .dequeue, .size, .dequeue, .dequeue] =
      some exchanges ∧ Fifo [] exchanges := by
  have fresh : Fresh single.heap
      [.enqueue 0 2 ⟨9, 9⟩, .enqueue 0 3 ⟨9, 9⟩, .dequeue, .size, .dequeue, .dequeue] :=
    ⟨by decide, by decide⟩
  have init : lfQueueInit Heap.empty 1 = some single := rfl
  obtain ⟨exchanges, ran, answers⟩ := fifo_iff_harmless init fresh (Nat.le_refl 9)
  exact ⟨exchanges, ran, answers.mpr (by simp [Harmless, Request.call, holdsAfter])⟩

/-- A 5 goes in and the 0 of the first node comes out. -/
theorem dequeue_returns_first_node :
    ¬ ∀ (queue : LfQueue) (requests : List Request) (exchanges : List Exchange),
      lfQueueInit Heap.empty 1 = some queue → Fresh queue.heap requests →
        performAll 9 queue requests = some exchanges → Fifo [] exchanges := by
  intro all
  have wrong := all single [.enqueue 5 2 ⟨9, 9⟩, .dequeue] _ rfl ⟨by decide, by decide⟩ rfl
  exact absurd (Option.some.inj wrong.2.1) (by decide)

end CssLab.LockFree.Queue
