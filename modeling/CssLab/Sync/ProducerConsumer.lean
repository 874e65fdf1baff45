import CssLab.Lib.Transition
import Mathlib.Data.BitVec

/-! The producers and consumers of `partB/producer-consumer.c`, one statement
at a time. -/

namespace CssLab.Sync.ProducerConsumer

open Transition Interleaving

inductive Role
  | producer
  | consumer
  deriving DecidableEq

/-- The condition variables `cond_full`, where producers wait, and `cond_empty`. -/
inductive Cond
  | full
  | empty
  deriving DecidableEq

/-- The data of `buffer_t`, and what the program does not keep: the items
stored so far with their slots and the items loaded so far, oldest first. -/
structure Ring where
  data : Int → BitVec 64
  size : Int
  writeIndex : Int
  readIndex : Int
  produced : List (Int × BitVec 32)
  consumed : List (BitVec 32)

/-- `buffer_t`: who holds the mutex, who waits unsignalled for a condition, and
the data. -/
structure Buffer (Thread : Type*) where
  mutex : Option Thread
  waiting : Cond → List Thread
  ring : Ring

/-- The statements of `producer` and `consumer`; `asleep` is inside
`pthread_cond_wait`, and only producers have a `storeItem`. -/
inductive Point
  | lock
  | test
  | wait
  | asleep
  | loadItem
  | storeItem
  | advance
  | count
  | print
  | signal
  | unlock
  deriving DecidableEq

structure Local where
  point : Point
  item : BitVec 32

/-- What the program does not decide: whom a signal wakes, and wake-ups
without a signal. -/
inductive Action (Thread : Type*)
  | go
  | wake (woken : List Thread)
  | spurious

/-- The statements of `producer` that work on the data, for a capacity `N`. -/
def producer (N : Int) (ring : Ring) (own : Local) : Option (Ring × Local) :=
  match own.point with
  | .test => some (ring, { own with point := if ring.size = N then .wait else .loadItem })
  | .loadItem =>
    -- `item` is an `int`
    some (ring, { item := BitVec.ofInt 32 ring.writeIndex, point := .storeItem })
  | .storeItem =>
    some ({ ring with
      data := Function.update ring.data ring.writeIndex (own.item.signExtend 64)
      produced := ring.produced ++ [(ring.writeIndex, own.item)] }, { own with point := .advance })
  | .advance =>
    some ({ ring with writeIndex := (ring.writeIndex + 1).tmod N }, { own with point := .count })
  | .count => some ({ ring with size := ring.size + 1 }, { own with point := .print })
  | _ => none

/-- The statements of `consumer` that work on the data. -/
def consumer (N : Int) (ring : Ring) (own : Local) : Option (Ring × Local) :=
  match own.point with
  | .test => some (ring, { own with point := if ring.size = 0 then .wait else .loadItem })
  | .loadItem =>
    let item := (ring.data ring.readIndex).setWidth 32
    some ({ ring with consumed := ring.consumed ++ [item] }, { item, point := .advance })
  | .advance =>
    some ({ ring with readIndex := (ring.readIndex + 1).tmod N }, { own with point := .count })
  | .count => some ({ ring with size := ring.size - 1 }, { own with point := .print })
  | _ => none

/-- The statements of a role. -/
def work (N : Int) : Role → Ring → Local → Option (Ring × Local)
  | .producer => producer N
  | .consumer => consumer N

/-- Where a role waits. -/
def Role.waitsFor : Role → Cond
  | .producer => .full
  | .consumer => .empty

/-- What it signals. -/
def Role.signals : Role → Cond
  | .producer => .empty
  | .consumer => .full

variable {Thread : Type*}

/-- `pthread_mutex_lock` returns when the mutex is free. -/
def acquire (self : Thread) (buffer : Buffer Thread) : Option (Buffer Thread) :=
  if buffer.mutex = none then some { buffer with mutex := some self } else none

theorem acquire_eq_some (done : acquire self buffer = some after) :
    buffer.mutex = none ∧ after = { buffer with mutex := some self } := by
  unfold acquire at done
  split at done
  · rename_i free
    cases done
    exact ⟨free, rfl⟩
  · cases done

/-- `pthread_cond_wait` first releases the mutex and joins the waiters. -/
def sleep (self : Thread) (cond : Cond) (buffer : Buffer Thread) : Buffer Thread :=
  { buffer with
    mutex := none
    waiting := Function.update buffer.waiting cond (self :: buffer.waiting cond) }

variable [DecidableEq Thread]

/-- The waiters without some of them. -/
def rouse (woken : List Thread) (cond : Cond) (buffer : Buffer Thread) : Buffer Thread :=
  { buffer with
    waiting := Function.update buffer.waiting cond
      ((buffer.waiting cond).filter fun waiter => waiter ∉ woken) }

/-- `pthread_cond_signal` wakes waiters of its condition, and at least one if
there is one. -/
def wake (woken : List Thread) (cond : Cond) (buffer : Buffer Thread) : Option (Buffer Thread) :=
  if (∀ waiter ∈ woken, waiter ∈ buffer.waiting cond) ∧ (woken = [] → buffer.waiting cond = []) then
    some (rouse woken cond buffer)
  else none

/-- The calls of a role around its work. -/
def monitor (role : Role) (spurious : Bool) (self : Thread) (buffer : Buffer Thread) (own : Local)
    (action : Action Thread) : Option (Buffer Thread × Local) :=
  match own.point, action with
  | .lock, .go => (acquire self buffer).map fun buffer => (buffer, { own with point := .test })
  | .wait, .go => some (sleep self role.waitsFor buffer, { own with point := .asleep })
  | .asleep, .spurious =>
    if spurious then some (rouse [self] role.waitsFor buffer, own) else none
  | .asleep, .go =>
    -- the wait returns, to the test of the loop, with the mutex held again
    if self ∈ buffer.waiting role.waitsFor then none
    else (acquire self buffer).map fun buffer => (buffer, { own with point := .test })
  | .print, .go => some (buffer, { own with point := .signal })
  | .signal, .wake woken =>
    (wake woken role.signals buffer).map fun buffer => (buffer, { own with point := .unlock })
  | .unlock, .go => some ({ buffer with mutex := none }, { own with point := .lock })
  | _, _ => none

/-- What a call of `monitor` can do. -/
inductive Moves (role : Role) (spurious : Bool) (self : Thread) (buffer : Buffer Thread)
    (own : Local) : Buffer Thread → Local → Prop
  | acquire (outside : own.point = .lock ∨
        own.point = .asleep ∧ self ∉ buffer.waiting role.waitsFor) (free : buffer.mutex = none) :
      Moves role spurious self buffer own { buffer with mutex := some self }
        { own with point := .test }
  | sleep (here : own.point = .wait) :
      Moves role spurious self buffer own (sleep self role.waitsFor buffer)
        { own with point := .asleep }
  | spurious (allowed : spurious) (here : own.point = .asleep) :
      Moves role spurious self buffer own (rouse [self] role.waitsFor buffer) own
  | print (here : own.point = .print) :
      Moves role spurious self buffer own buffer { own with point := .signal }
  | signal (here : own.point = .signal) (woken : List Thread)
      (waiters : ∀ waiter ∈ woken, waiter ∈ buffer.waiting role.signals)
      (atLeastOne : woken = [] → buffer.waiting role.signals = []) :
      Moves role spurious self buffer own (rouse woken role.signals buffer)
        { own with point := .unlock }
  | unlock (here : own.point = .unlock) :
      Moves role spurious self buffer own { buffer with mutex := none } { own with point := .lock }

variable {self : Thread} {buffer buffer' : Buffer Thread}

theorem moves_of_monitor
    (moved : monitor role spurious self buffer own action = some (buffer', own')) :
    Moves role spurious self buffer own buffer' own' := by
  obtain ⟨point, item⟩ := own
  cases point with
  | lock =>
    cases action with
    | go =>
      obtain ⟨after, acquired, same⟩ := Option.map_eq_some_iff.mp moved
      cases same
      obtain ⟨free, rfl⟩ := acquire_eq_some acquired
      exact .acquire (Or.inl rfl) free
    | _ => cases moved
  | wait =>
    cases action with
    | go =>
      cases moved
      exact .sleep rfl
    | _ => cases moved
  | asleep =>
    cases action with
    | go =>
      simp only [monitor] at moved
      split at moved
      · cases moved
      · rename_i signalled
        obtain ⟨after, acquired, same⟩ := Option.map_eq_some_iff.mp moved
        cases same
        obtain ⟨free, rfl⟩ := acquire_eq_some acquired
        exact .acquire (Or.inr ⟨rfl, signalled⟩) free
    | spurious =>
      simp only [monitor] at moved
      split at moved
      · rename_i allowed
        cases moved
        exact .spurious allowed rfl
      · cases moved
    | wake woken => cases moved
  | print =>
    cases action with
    | go =>
      cases moved
      exact .print rfl
    | _ => cases moved
  | signal =>
    cases action with
    | wake woken =>
      obtain ⟨after, woke, same⟩ := Option.map_eq_some_iff.mp moved
      cases same
      unfold wake at woke
      split at woke
      · rename_i fair
        cases woke
        exact .signal rfl woken fair.1 fair.2
      · cases woke
    | _ => cases moved
  | unlock =>
    cases action with
    | go =>
      cases moved
      exact .unlock rfl
    | _ => cases moved
  | _ => cases action <;> cases moved

/-- The points between acquiring the mutex and releasing it that work on the data. -/
def Point.works : Point → Bool
  | .test | .loadItem | .storeItem | .advance | .count => true
  | _ => false

/-- One statement of a thread. -/
def thread (N : Int) (role : Thread → Role) (spurious : Bool) (self : Thread)
    (buffer : Buffer Thread) (own : Local) (action : Action Thread) :
    Option (Buffer Thread × Local) :=
  match own.point.works, action with
  | true, .go =>
    (work N (role self) buffer.ring own).map fun after => ({ buffer with ring := after.1 }, after.2)
  | true, _ => none
  | false, action => monitor (role self) spurious self buffer own action

theorem thread_cases
    (moved : thread N role spurious self buffer own action = some (buffer', own')) :
    (own.point.works ∧ ∃ ring, work N (role self) buffer.ring own = some (ring, own') ∧
      buffer' = { buffer with ring }) ∨
    Moves (role self) spurious self buffer own buffer' own' := by
  unfold thread at moved
  split at moved
  · rename_i works
    obtain ⟨⟨ring, after⟩, done, same⟩ := Option.map_eq_some_iff.mp moved
    cases same
    exact Or.inl ⟨works, ring, done, rfl⟩
  · cases moved
  · exact Or.inr (moves_of_monitor moved)

/-- `initialize_buffer` makes the mutex and the conditions of a zeroed buffer. -/
def initializeBuffer (buffer : Buffer Thread) : Buffer Thread :=
  { buffer with mutex := none, waiting := fun _ => [] }

def zeroed : Buffer Thread where
  mutex := none
  waiting := fun _ => []
  ring := ⟨fun _ => 0, 0, 0, 0, [], []⟩

/-- The threads that `main` creates. -/
def initial : State Thread (Buffer Thread) Local :=
  ⟨initializeBuffer zeroed, fun _ => ⟨.lock, 0⟩⟩

/-- One statement of any thread. -/
abbrev threads (N : Int) (role : Thread → Role) (spurious : Bool) :
    State Thread (Buffer Thread) Local → Thread × Action Thread →
      Option (State Thread (Buffer Thread) Local) :=
  Interleaving.step (thread N role spurious)

end CssLab.Sync.ProducerConsumer
