import CssLab.LockFree.Node
import CssLab.Lib.Chain
import CssLab.Lib.Transition

/-! The queue of `partE/lf-queue.c`, one memory access at a time. -/

namespace CssLab.LockFree.Queue

open Chain Transition Interleaving

/-- `lf_queue_t` and its heap, and what the program does not keep: the first
node with every node whose exchange on `rear` has succeeded, oldest first, and
the number of exchanges on `front` that have. -/
structure LfQueue where
  front : Address
  rear : Address
  size : BitVec 32
  heap : Heap Node
  line : List Address
  passed : Nat

/-- The points of `lf_queue_enqueue` with the variables live there. -/
inductive Enqueue
  | malloc (value : BitVec 32)
  | setValue (value : BitVec 32) (new : Address)
  | loadRear (new : Address)
  | storeNext (new oldRear : Address)
  | swapRear (new oldRear : Address)
  | loadSize
  | storeSize (seen : BitVec 32)

/-- The points of `lf_queue_dequeue`. -/
inductive Dequeue
  | loadFront
  | loadRear (oldFront : Address)
  | loadNext (oldFront oldRear : Address)
  | compare (oldFront oldRear frontNext : Address)
  | swapFront (oldFront frontNext : Address)
  | loadValue (oldFront : Address)
  | loadSize (value : BitVec 32)
  | storeSize (value seen : BitVec 32)

inductive Call
  | enqueue (value : BitVec 32)
  | dequeue
  | size
  deriving DecidableEq

/-- A thread between its calls, in one, or at the return of one. -/
inductive Local
  | idle
  | enqueue (point : Enqueue)
  | dequeue (point : Dequeue)
  | size
  | returned (result : Option (BitVec 32))

/-- What the program does not decide: the next call and what `malloc` gives. -/
inductive Action
  | call (call : Call)
  | malloc (node : Address) (garbage : Node)
  | go

def lfQueueInit (heap : Heap Node) (node : Address) : Option LfQueue :=
  (heap.malloc node ⟨0, 0⟩).map fun heap =>
    { front := node, rear := node, size := 0, heap, line := [node], passed := 0 }

/-- The queue that `lf_queue_init` makes of an empty heap. -/
def single : LfQueue where
  front := 1
  rear := 1
  size := 0
  heap := Heap.empty.put 1 ⟨0, 0⟩ Nat.one_ne_zero
  line := [1]
  passed := 0

def lfQueueEnqueue (queue : LfQueue) (point : Enqueue) (action : Action) :
    Option (LfQueue × Local) :=
  match point, action with
  | .malloc value, .malloc new garbage =>
    (queue.heap.malloc new garbage).map fun heap =>
      ({ queue with heap }, .enqueue (.setValue value new))
  | .setValue value new, .go =>
    (queue.heap.setValue new value).map fun heap =>
      ({ queue with heap }, .enqueue (.loadRear new))
  | .loadRear new, .go => some (queue, .enqueue (.storeNext new queue.rear))
  | .storeNext new oldRear, .go =>
    (queue.heap.setNext oldRear new).map fun heap =>
      ({ queue with heap }, .enqueue (.swapRear new oldRear))
  | .swapRear new oldRear, .go =>
    if queue.rear = oldRear then
      some ({ queue with rear := new, line := queue.line ++ [new] }, .enqueue .loadSize)
    else some (queue, .enqueue (.loadRear new))
  | .loadSize, .go => some (queue, .enqueue (.storeSize queue.size))
  | .storeSize seen, .go => some ({ queue with size := seen + 1 }, .returned none)
  | _, _ => none

def lfQueueDequeue (queue : LfQueue) (point : Dequeue) (action : Action) :
    Option (LfQueue × Local) :=
  match point, action with
  | .loadFront, .go => some (queue, .dequeue (.loadRear queue.front))
  | .loadRear oldFront, .go => some (queue, .dequeue (.loadNext oldFront queue.rear))
  | .loadNext oldFront oldRear, .go =>
    (queue.heap.next oldFront).map fun frontNext =>
      (queue, .dequeue (.compare oldFront oldRear frontNext))
  | .compare oldFront oldRear frontNext, .go =>
    if oldFront = oldRear then some (queue, .returned (some (-1)))
    else some (queue, .dequeue (.swapFront oldFront frontNext))
  | .swapFront oldFront frontNext, .go =>
    if queue.front = oldFront then
      some ({ queue with front := frontNext, passed := queue.passed + 1 },
        .dequeue (.loadValue oldFront))
    else some (queue, .dequeue .loadFront)
  | .loadValue oldFront, .go =>
    -- the value of the node that `front` has left
    (queue.heap.value oldFront).map fun value => (queue, .dequeue (.loadSize value))
  | .loadSize value, .go => some (queue, .dequeue (.storeSize value queue.size))
  | .storeSize value seen, .go => some ({ queue with size := seen - 1 }, .returned (some value))
  | _, _ => none

def lfQueueSize (queue : LfQueue) : Option (BitVec 32) := some queue.size

/-- The first point of a call. -/
def enter : Call → Local
  | .enqueue value => .enqueue (.malloc value)
  | .dequeue => .dequeue .loadFront
  | .size => .size

/-- One memory access of a thread, or the begin or the end of a call. -/
def thread (queue : LfQueue) (own : Local) (action : Action) : Option (LfQueue × Local) :=
  match own, action with
  | .idle, .call call => some (queue, enter call)
  | .enqueue point, action => lfQueueEnqueue queue point action
  | .dequeue point, action => lfQueueDequeue queue point action
  | .size, .go => some (queue, .returned (lfQueueSize queue))
  | .returned _, .go => some (queue, .idle)
  | _, _ => none

/-- One step of any of the threads that use the queue. -/
abbrev threads [DecidableEq Thread] :
    State Thread LfQueue Local → Thread × Action → Option (State Thread LfQueue Local) :=
  Interleaving.step fun _ => thread

/-- All threads before their first calls. -/
def start (queue : LfQueue) : State Thread LfQueue Local := ⟨queue, fun _ => .idle⟩

end CssLab.LockFree.Queue
