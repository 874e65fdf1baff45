import CssLab.Lib.Heap
import Mathlib.Data.BitVec

namespace CssLab

/-- `node_t` of the queue and `Node_t` of the stack. -/
structure LockFree.Node where
  value : BitVec 32
  next : Address
  deriving DecidableEq, Repr

namespace Heap

open LockFree

variable {heap after : Heap Node}

/-- A load of `node->next`. -/
abbrev next (heap : Heap Node) : Address → Option Address := heap.field Node.next

/-- A load of `node->value`. -/
abbrev value (heap : Heap Node) : Address → Option (BitVec 32) := heap.field Node.value

def setNext (heap : Heap Node) (node next : Address) : Option (Heap Node) :=
  heap.modify node fun content => { content with next }

def setValue (heap : Heap Node) (node : Address) (value : BitVec 32) : Option (Heap Node) :=
  heap.modify node fun content => { content with value }

theorem next_null (heap : Heap Node) : heap.next 0 = none := field_null heap _

theorem malloc_node (done : heap.malloc node garbage = some after) :
    heap.next node = none ∧
      after.next = Function.update heap.next node (some garbage.next) ∧
      after.value = Function.update heap.value node (some garbage.value) :=
  ⟨(malloc_eq_some done _).1, (malloc_eq_some done _).2, (malloc_eq_some done _).2⟩

theorem setNext_eq_some (done : heap.setNext node link = some after) :
    after.next = Function.update heap.next node (some link) ∧ after.value = heap.value :=
  ⟨field_modify_self done fun _ => rfl, field_modify done fun _ => rfl⟩

theorem setValue_eq_some (done : heap.setValue node word = some after) :
    after.next = heap.next ∧ after.value = Function.update heap.value node (some word) :=
  ⟨field_modify done fun _ => rfl, field_modify_self done fun _ => rfl⟩

/-- A store to a node that can be loaded from succeeds. -/
theorem modify_node {get : Node → Value} (found : heap.field get node = some word)
    (change : Node → Node) : ∃ after, heap.modify node change = some after := by
  obtain ⟨content, allocated⟩ := field_eq_some found
  exact ⟨_, modify_cell allocated change⟩

end Heap

end CssLab
