import CssLab.LockFree.Node
import CssLab.Lib.Chain
import CssLab.Lib.Ledger
import CssLab.Lib.Lifo
import CssLab.Lib.Transition

/-! The stack of `partD/concur-stack.c`, one memory access at a time. -/

namespace CssLab.Locked.Stack

open Chain Transition Interleaving LockFree

/-- `concur_stack_t` and its heap, and the changes of the list so far, which the
program does not keep. -/
structure ConcurStack where
  mu : Bool
  top : Address
  size : BitVec 32
  heap : Ledger Node
  commits : List (Lifo.Commit (BitVec 32))

/-- The points of `concur_stack_push` with the variables live there. -/
inductive Push
  | malloc (value : BitVec 32)
  | setValue (value : BitVec 32) (p : Address)
  | lock (value : BitVec 32) (p : Address)
  | loadTop (value : BitVec 32) (p : Address)
  | storeNext (value : BitVec 32) (p top : Address)
  | storeTop (value : BitVec 32) (p : Address)
  | loadSize
  | storeSize (seen : BitVec 32)
  | unlock

/-- The points of `concur_stack_pop`. `answer` is not the program's: it is the top of the
abstract stack in this critical section. -/
inductive Pop
  | lock
  | readSize
  | test (size : BitVec 32)
  | unlockEmpty (answer : Option (BitVec 32))
  | loadTop
  | loadValue (p : Address)
  | loadNext (p : Address) (value : BitVec 32)
  | storeTop (p : Address) (value : BitVec 32) (next : Address)
  | loadSize (p : Address) (value : BitVec 32) (answer : Option (BitVec 32))
  | storeSize (p : Address) (value seen : BitVec 32) (answer : Option (BitVec 32))
  | free (p : Address) (value : BitVec 32) (answer : Option (BitVec 32))
  | unlock (value : BitVec 32) (answer : Option (BitVec 32))

inductive Call
  | push (value : BitVec 32)
  | pop

/-- The return of a call, with the abstract answer to a pop: `empty` from the first
`return`, `popped` from the last one. -/
inductive Outcome
  | pushed
  | empty (value : BitVec 32) (answer : Option (BitVec 32))
  | popped (value : BitVec 32) (answer : Option (BitVec 32))

/-- A thread between its calls, in one, or at the return of one. -/
inductive Local
  | idle
  | push (point : Push)
  | pop (point : Pop)
  | returned (outcome : Outcome)

/-- What the program does not decide: the next call and what `malloc` gives. -/
inductive Action
  | call (call : Call)
  | malloc (p : Address) (garbage : Node)
  | go

/-- The abstract stack. -/
def ConcurStack.contents (stack : ConcurStack) : List (BitVec 32) := Lifo.replay stack.commits

def concurStackInit (heap : Ledger Node) : ConcurStack where
  mu := false
  top := 0
  size := 0
  heap := heap
  commits := []

def concurStackSize (stack : ConcurStack) : BitVec 32 := stack.size

/-- `pthread_mutex_lock` returns once the mutex is free. -/
def lock (stack : ConcurStack) (own : Local) : Option (ConcurStack × Local) :=
  if stack.mu then none else some ({ stack with mu := true }, own)

def concurStackPush (stack : ConcurStack) (point : Push) (action : Action) :
    Option (ConcurStack × Local) :=
  match point, action with
  | .malloc value, .malloc p garbage =>
    (stack.heap.malloc p garbage).map fun heap =>
      ({ stack with heap }, .push (.setValue value p))
  | .setValue value p, .go =>
    (stack.heap.modify p fun node => { node with value }).map fun heap =>
      ({ stack with heap }, .push (.lock value p))
  | .lock value p, .go => lock stack (.push (.loadTop value p))
  | .loadTop value p, .go => some (stack, .push (.storeNext value p stack.top))
  | .storeNext value p top, .go =>
    (stack.heap.modify p fun node => { node with next := top }).map fun heap =>
      ({ stack with heap }, .push (.storeTop value p))
  | .storeTop value p, .go =>
    some ({ stack with top := p, commits := stack.commits ++ [.push value] }, .push .loadSize)
  | .loadSize, .go => some (stack, .push (.storeSize stack.size))
  | .storeSize seen, .go => some ({ stack with size := seen + 1 }, .push .unlock)
  | .unlock, .go => some ({ stack with mu := false }, .returned .pushed)
  | _, _ => none

def concurStackPop (stack : ConcurStack) (point : Pop) (action : Action) :
    Option (ConcurStack × Local) :=
  match point, action with
  | .lock, .go => lock stack (.pop .readSize)
  | .readSize, .go => some (stack, .pop (.test (concurStackSize stack)))
  | .test size, .go =>
    if size = 0 then
      some ({ stack with commits := stack.commits ++ [.pop] },
        .pop (.unlockEmpty stack.contents.head?))
    else some (stack, .pop .loadTop)
  | .unlockEmpty answer, .go => some ({ stack with mu := false }, .returned (.empty (-1) answer))
  | .loadTop, .go => some (stack, .pop (.loadValue stack.top))
  | .loadValue p, .go => (stack.heap.value p).map fun value => (stack, .pop (.loadNext p value))
  | .loadNext p value, .go =>
    (stack.heap.next p).map fun next => (stack, .pop (.storeTop p value next))
  | .storeTop p value next, .go =>
    some ({ stack with top := next, commits := stack.commits ++ [.pop] },
      .pop (.loadSize p value stack.contents.head?))
  | .loadSize p value answer, .go => some (stack, .pop (.storeSize p value stack.size answer))
  | .storeSize p value seen answer, .go =>
    some ({ stack with size := seen - 1 }, .pop (.free p value answer))
  | .free p value answer, .go =>
    (stack.heap.free p).map fun heap => ({ stack with heap }, .pop (.unlock value answer))
  | .unlock value answer, .go =>
    some ({ stack with mu := false }, .returned (.popped value answer))
  | _, _ => none

/-- The first point of a call. -/
def enter : Call → Local
  | .push value => .push (.malloc value)
  | .pop => .pop .lock

/-- One memory access of a thread, or the begin or the end of a call. -/
def thread (stack : ConcurStack) (own : Local) (action : Action) :
    Option (ConcurStack × Local) :=
  match own, action with
  | .idle, .call call => some (stack, enter call)
  | .push point, action => concurStackPush stack point action
  | .pop point, action => concurStackPop stack point action
  | .returned _, .go => some (stack, .idle)
  | _, _ => none

/-- One step of any of the threads that use the stack. -/
abbrev threads [DecidableEq Thread] :
    State Thread ConcurStack Local → Thread × Action → Option (State Thread ConcurStack Local) :=
  Interleaving.step fun _ => thread

/-- All threads before their first calls. -/
def start (stack : ConcurStack) : State Thread ConcurStack Local := ⟨stack, fun _ => .idle⟩

/-- Points at which a thread waits for its next call, for `malloc` or for the mutex.
At every other one only an access to a record that is not there can stop it. -/
def Local.waits : Local → Bool
  | .idle => true
  | .push (.malloc _) => true
  | .push (.lock _ _) => true
  | .pop .lock => true
  | _ => false

/-- Between the return of `pthread_mutex_lock` and `pthread_mutex_unlock`. -/
def Local.inside : Local → Bool
  | .idle => false
  | .push (.malloc _) => false
  | .push (.setValue _ _) => false
  | .push (.lock _ _) => false
  | .push _ => true
  | .pop .lock => false
  | .pop _ => true
  | .returned _ => false

end CssLab.Locked.Stack
