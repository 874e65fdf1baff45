import CssLab.LockFree.Node
import CssLab.Lib.Chain
import CssLab.Lib.Lifo
import CssLab.Lib.Transition

/-! The stack of `partE/lf-stack.c`, one memory access at a time. -/

namespace CssLab.LockFree.Stack

open Chain Transition Interleaving

/-- `lf_stack_t` and its heap, and the successful exchanges on `top` so far,
which the program does not keep. -/
structure LfStack where
  top : Address
  size : BitVec 32
  heap : Heap Node
  commits : List (Lifo.Commit (BitVec 32))

/-- The points of `lf_stack_push` with the variables live there. -/
inductive Push
  | malloc (value : BitVec 32)
  | setValue (value : BitVec 32) (newNode : Address)
  | loadTop (value : BitVec 32) (newNode : Address)
  | storeNext (value : BitVec 32) (newNode oldTop : Address)
  | swapTop (value : BitVec 32) (newNode oldTop : Address)
  | loadSize
  | storeSize (seen : BitVec 32)

/-- The points of `lf_stack_pop`. `answer` is not the program's: it is the top
of the abstract stack at the last load of `top` or, after the exchange, at that. -/
inductive Pop
  | loadTop
  | test (oldTop : Address) (answer : Option (BitVec 32))
  | loadNext (oldTop : Address)
  | swapTop (oldTop topNext : Address)
  | loadSize (oldTop : Address) (answer : Option (BitVec 32))
  | storeSize (oldTop : Address) (seen : BitVec 32) (answer : Option (BitVec 32))
  | loadValue (oldTop : Address) (answer : Option (BitVec 32))

inductive Call
  | push (value : BitVec 32)
  | pop
  | size

/-- The return of a call, with the abstract answer to a pop: `popped` after an
exchange, `early` from inside the loop. -/
inductive Outcome
  | pushed
  | popped (value : BitVec 32) (answer : Option (BitVec 32))
  | early (value : BitVec 32) (answer : Option (BitVec 32))
  | size (size : BitVec 32)

/-- A thread between its calls, in one, or at the return of one. -/
inductive Local
  | idle
  | push (point : Push)
  | pop (point : Pop)
  | size
  | returned (outcome : Outcome)

/-- What the program does not decide: the next call and what `malloc` gives. -/
inductive Action
  | call (call : Call)
  | malloc (node : Address) (garbage : Node)
  | go

/-- The abstract stack. -/
def LfStack.contents (stack : LfStack) : List (BitVec 32) := Lifo.replay stack.commits

def lfStackInit (heap : Heap Node) : LfStack := { top := 0, size := 0, heap, commits := [] }

def lfStackPush (stack : LfStack) (point : Push) (action : Action) : Option (LfStack × Local) :=
  match point, action with
  | .malloc value, .malloc newNode garbage =>
    (stack.heap.malloc newNode garbage).map fun heap =>
      ({ stack with heap }, .push (.setValue value newNode))
  | .setValue value newNode, .go =>
    (stack.heap.setValue newNode value).map fun heap =>
      ({ stack with heap }, .push (.loadTop value newNode))
  | .loadTop value newNode, .go => some (stack, .push (.storeNext value newNode stack.top))
  | .storeNext value newNode oldTop, .go =>
    (stack.heap.setNext newNode oldTop).map fun heap =>
      ({ stack with heap }, .push (.swapTop value newNode oldTop))
  | .swapTop value newNode oldTop, .go =>
    if stack.top = oldTop then
      some ({ stack with top := newNode, commits := stack.commits ++ [.push value] },
        .push .loadSize)
    else some (stack, .push (.loadTop value newNode))
  | .loadSize, .go => some (stack, .push (.storeSize stack.size))
  | .storeSize seen, .go => some ({ stack with size := seen + 1 }, .returned .pushed)
  | _, _ => none

def lfStackPop (stack : LfStack) (point : Pop) (action : Action) : Option (LfStack × Local) :=
  match point, action with
  | .loadTop, .go => some (stack, .pop (.test stack.top stack.contents.head?))
  | .test oldTop answer, .go =>
    if oldTop = 0 then some (stack, .returned (.early (-1) answer))
    else some (stack, .pop (.loadNext oldTop))
  | .loadNext oldTop, .go =>
    (stack.heap.next oldTop).map fun topNext => (stack, .pop (.swapTop oldTop topNext))
  | .swapTop oldTop topNext, .go =>
    if stack.top = oldTop then
      some ({ stack with top := topNext, commits := stack.commits ++ [.pop] },
        .pop (.loadSize oldTop stack.contents.head?))
    else some (stack, .pop .loadTop)
  | .loadSize oldTop answer, .go => some (stack, .pop (.storeSize oldTop stack.size answer))
  | .storeSize oldTop seen answer, .go =>
    some ({ stack with size := seen - 1 }, .pop (.loadValue oldTop answer))
  | .loadValue oldTop answer, .go =>
    (stack.heap.value oldTop).map fun value => (stack, .returned (.popped value answer))
  | _, _ => none

def lfStackSize (stack : LfStack) : BitVec 32 := stack.size

/-- The first point of a call. -/
def enter : Call → Local
  | .push value => .push (.malloc value)
  | .pop => .pop .loadTop
  | .size => .size

/-- One memory access of a thread, or the begin or the end of a call. -/
def thread (stack : LfStack) (own : Local) (action : Action) : Option (LfStack × Local) :=
  match own, action with
  | .idle, .call call => some (stack, enter call)
  | .push point, action => lfStackPush stack point action
  | .pop point, action => lfStackPop stack point action
  | .size, .go => some (stack, .returned (.size (lfStackSize stack)))
  | .returned _, .go => some (stack, .idle)
  | _, _ => none

/-- One step of any of the threads that use the stack. -/
abbrev threads [DecidableEq Thread] :
    State Thread LfStack Local → Thread × Action → Option (State Thread LfStack Local) :=
  Interleaving.step fun _ => thread

/-- All threads before their first calls. -/
def start (stack : LfStack) : State Thread LfStack Local := ⟨stack, fun _ => .idle⟩

end CssLab.LockFree.Stack
