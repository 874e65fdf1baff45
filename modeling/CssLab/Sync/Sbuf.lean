import CssLab.Lib.Census
import CssLab.Lib.Ring
import Mathlib.Data.BitVec

/-! The bounded buffer of `partA_server/sbuf.c` and threads that call it. -/

namespace CssLab.Sync

/-- `sbuf_t`, and what the program does not keep: the items stored so far with
their slots and the items loaded so far, oldest first. -/
structure Sbuf where
  buf : Int → BitVec 32
  n : BitVec 32
  front : BitVec 32
  rear : BitVec 32
  mutex : Nat
  slots : Nat
  items : Nat
  inserted : List (Int × BitVec 32)
  removed : List (BitVec 32)

namespace Sbuf

open Transition Interleaving

inductive Call
  | insert
  | remove
  deriving DecidableEq

/-- Where a thread is in a call, or `idle`; `++sp->rear` and `++sp->front` are
a load and a store. -/
inductive Point
  | idle
  | waitPermit
  | waitMutex
  | loadCounter
  | storeCounter
  | access
  | postMutex
  | postPermit
  deriving DecidableEq

/-- The call a thread is in or was in last, its `item`, and the register of the
increment. -/
structure Local where
  call : Call
  point : Point
  item : BitVec 32
  counter : BitVec 32

/-- `sem_wait` returns when it can decrement. -/
def P : Nat → Option Nat
  | 0 => none
  | value + 1 => some value

/-- `sem_post` -/
def V (value : Nat) : Nat := value + 1

/-- The index `counter % sp->n` of the buffer. -/
def slot (sp : Sbuf) (counter : BitVec 32) : Int := counter.toInt.tmod sp.n.toInt

/-- `sbuf_insert(sp, item)` -/
def sbufInsert (sp : Sbuf) (own : Local) : Option (Sbuf × Local) :=
  match own.point with
  | .idle => none
  | .waitPermit =>
    (P sp.slots).map fun slots => ({ sp with slots }, { own with point := .waitMutex })
  | .waitMutex =>
    (P sp.mutex).map fun mutex => ({ sp with mutex }, { own with point := .loadCounter })
  | .loadCounter => some (sp, { own with counter := sp.rear, point := .storeCounter })
  | .storeCounter =>
    some ({ sp with rear := own.counter + 1 },
      { own with counter := own.counter + 1, point := .access })
  | .access =>
    some ({ sp with
      buf := Function.update sp.buf (sp.slot own.counter) own.item
      inserted := sp.inserted ++ [(sp.slot own.counter, own.item)] },
      { own with point := .postMutex })
  | .postMutex => some ({ sp with mutex := V sp.mutex }, { own with point := .postPermit })
  | .postPermit => some ({ sp with items := V sp.items }, { own with point := .idle })

/-- `sbuf_remove(sp)`, which returns its `item`. -/
def sbufRemove (sp : Sbuf) (own : Local) : Option (Sbuf × Local) :=
  match own.point with
  | .idle => none
  | .waitPermit =>
    (P sp.items).map fun items => ({ sp with items }, { own with point := .waitMutex })
  | .waitMutex =>
    (P sp.mutex).map fun mutex => ({ sp with mutex }, { own with point := .loadCounter })
  | .loadCounter => some (sp, { own with counter := sp.front, point := .storeCounter })
  | .storeCounter =>
    some ({ sp with front := own.counter + 1 },
      { own with counter := own.counter + 1, point := .access })
  | .access =>
    some ({ sp with removed := sp.removed ++ [sp.buf (sp.slot own.counter)] },
      { own with item := sp.buf (sp.slot own.counter), point := .postMutex })
  | .postMutex => some ({ sp with mutex := V sp.mutex }, { own with point := .postPermit })
  | .postPermit => some ({ sp with slots := V sp.slots }, { own with point := .idle })

/-- `sbuf_init(sp, n)` -/
def sbufInit (n : BitVec 32) : Sbuf where
  buf := fun _ => 0
  n := n
  front := 0
  rear := 0
  mutex := 1
  slots := n.toNat
  items := 0
  inserted := []
  removed := []

/-- An idle thread makes any call, one in a call goes on with it. -/
inductive Action
  | insert (item : BitVec 32)
  | remove
  | go

def thread (sp : Sbuf) (own : Local) (action : Action) : Option (Sbuf × Local) :=
  match own.point, action with
  | .idle, .insert item => some (sp, { own with call := .insert, item, point := .waitPermit })
  | .idle, .remove => some (sp, { own with call := .remove, point := .waitPermit })
  | _, .go =>
    match own.call with
    | .insert => sbufInsert sp own
    | .remove => sbufRemove sp own
  | _, _ => none

/-- The counter of the items that calls of a kind have handled. -/
def counter (sp : Sbuf) : Call → BitVec 32
  | .insert => sp.rear
  | .remove => sp.front

/-- What a step can do. -/
inductive Moves (sp : Sbuf) (own : Local) : Sbuf → Local → Prop
  | begin (here : own.point = .idle) (call : Call) (item : BitVec 32) :
      Moves sp own sp { own with call, item, point := .waitPermit }
  | takeSlot (call : own.call = .insert) (here : own.point = .waitPermit)
      {slots : Nat} (free : sp.slots = slots + 1) :
      Moves sp own { sp with slots } { own with point := .waitMutex }
  | takeItem (call : own.call = .remove) (here : own.point = .waitPermit)
      {items : Nat} (free : sp.items = items + 1) :
      Moves sp own { sp with items } { own with point := .waitMutex }
  | lock (here : own.point = .waitMutex) {mutex : Nat} (free : sp.mutex = mutex + 1) :
      Moves sp own { sp with mutex } { own with point := .loadCounter }
  | load (here : own.point = .loadCounter) :
      Moves sp own sp { own with counter := sp.counter own.call, point := .storeCounter }
  | countRear (call : own.call = .insert) (here : own.point = .storeCounter) :
      Moves sp own { sp with rear := own.counter + 1 }
        { own with counter := own.counter + 1, point := .access }
  | countFront (call : own.call = .remove) (here : own.point = .storeCounter) :
      Moves sp own { sp with front := own.counter + 1 }
        { own with counter := own.counter + 1, point := .access }
  | store (call : own.call = .insert) (here : own.point = .access) :
      Moves sp own { sp with
        buf := Function.update sp.buf (sp.slot own.counter) own.item
        inserted := sp.inserted ++ [(sp.slot own.counter, own.item)] }
        { own with point := .postMutex }
  | fetch (call : own.call = .remove) (here : own.point = .access) :
      Moves sp own { sp with removed := sp.removed ++ [sp.buf (sp.slot own.counter)] }
        { own with item := sp.buf (sp.slot own.counter), point := .postMutex }
  | unlock (here : own.point = .postMutex) :
      Moves sp own { sp with mutex := sp.mutex + 1 } { own with point := .postPermit }
  | postItem (call : own.call = .insert) (here : own.point = .postPermit) :
      Moves sp own { sp with items := sp.items + 1 } { own with point := .idle }
  | postSlot (call : own.call = .remove) (here : own.point = .postPermit) :
      Moves sp own { sp with slots := sp.slots + 1 } { own with point := .idle }

theorem P_eq_some : P value = some after ↔ value = after + 1 := by
  cases value <;> simp [P]

theorem moves_of_lock (here : own.point = .waitMutex)
    (moved : (P sp.mutex).map (fun mutex => ({ sp with mutex },
      { own with point := .loadCounter })) = some (sp', own')) : Moves sp own sp' own' := by
  obtain ⟨mutex, taken, same⟩ := Option.map_eq_some_iff.mp moved
  cases same
  exact .lock here (P_eq_some.mp taken)

/-- Each call loads its own counter. -/
theorem moves_of_load (here : own.point = .loadCounter) (loads : sp.counter own.call = value) :
    Moves sp own sp { own with counter := value, point := .storeCounter } := by
  subst loads
  exact .load here

theorem moves_of_insert (call : own.call = .insert)
    (moved : sbufInsert sp own = some (sp', own')) : Moves sp own sp' own' := by
  cases here : own.point <;> simp only [sbufInsert, here, reduceCtorEq] at moved
  case waitPermit =>
    obtain ⟨slots, taken, same⟩ := Option.map_eq_some_iff.mp moved
    cases same
    exact .takeSlot call here (P_eq_some.mp taken)
  case waitMutex => exact moves_of_lock here moved
  case loadCounter =>
    cases moved
    apply moves_of_load here
    rw [call]
    rfl
  case storeCounter =>
    cases moved
    exact .countRear call here
  case access =>
    cases moved
    exact .store call here
  case postMutex =>
    cases moved
    exact .unlock here
  case postPermit =>
    cases moved
    exact .postItem call here

theorem moves_of_remove (call : own.call = .remove)
    (moved : sbufRemove sp own = some (sp', own')) : Moves sp own sp' own' := by
  cases here : own.point <;> simp only [sbufRemove, here, reduceCtorEq] at moved
  case waitPermit =>
    obtain ⟨items, taken, same⟩ := Option.map_eq_some_iff.mp moved
    cases same
    exact .takeItem call here (P_eq_some.mp taken)
  case waitMutex => exact moves_of_lock here moved
  case loadCounter =>
    cases moved
    apply moves_of_load here
    rw [call]
    rfl
  case storeCounter =>
    cases moved
    exact .countFront call here
  case access =>
    cases moved
    exact .fetch call here
  case postMutex =>
    cases moved
    exact .unlock here
  case postPermit =>
    cases moved
    exact .postSlot call here

theorem moves_of_thread (moved : thread sp own action = some (sp', own')) :
    Moves sp own sp' own' := by
  unfold thread at moved
  split at moved
  · rename_i item here
    cases moved
    exact .begin here .insert item
  · rename_i here
    cases moved
    exact .begin here .remove own.item
  · split at moved
    · rename_i call
      exact moves_of_insert call moved
    · rename_i call
      exact moves_of_remove call moved
  · cases moved

variable {Thread : Type*}

/-- All threads before their first call, on a buffer just set up. -/
def initial (n : BitVec 32) : State Thread Sbuf Local where
  shared := sbufInit n
  locals := fun _ => ⟨.insert, .idle, 0, 0⟩

/-- One step of any thread. -/
abbrev threads [DecidableEq Thread] :
    State Thread Sbuf Local → Thread × Action → Option (State Thread Sbuf Local) :=
  Interleaving.step fun _ => thread

/-- The items stored and not yet loaded, if loads take the oldest. -/
def pending (sp : Sbuf) : List (Int × BitVec 32) := sp.inserted.drop sp.removed.length

/-- Between `P(mutex)` and `V(mutex)`. -/
def Point.inside : Point → Bool
  | .loadCounter | .storeCounter | .access | .postMutex => true
  | _ => false

/-- What a bounded queue promises in a state: at most `n` items, one thread at
a time inside, a thread about to store that finds no item in its slot and one
about to load that finds one, and the items in their order. -/
structure BoundedFifo (n : BitVec 32) (state : State Thread Sbuf Local) : Prop where
  lower : 0 ≤ state.shared.rear.toInt - state.shared.front.toInt
  upper : state.shared.rear.toInt - state.shared.front.toInt ≤ n.toInt
  exclusive : ∀ self other, (state.locals self).point.inside → (state.locals other).point.inside →
    self = other
  spares : ∀ self, (state.locals self).call = .insert → (state.locals self).point = .access →
    state.shared.slot (state.locals self).counter ∉ state.shared.pending.map Prod.fst
  finds : ∀ self, (state.locals self).call = .remove → (state.locals self).point = .access →
    state.shared.slot (state.locals self).counter ∈ state.shared.pending.map Prod.fst
  ordered : state.shared.removed <+: state.shared.inserted.map Prod.snd

end Sbuf

end CssLab.Sync
