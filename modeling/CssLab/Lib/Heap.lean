import Mathlib.Data.Option.Basic
import Mathlib.Logic.Function.Basic

namespace CssLab

/-- A pointer; 0 is the null pointer. -/
abbrev Address := Nat

/-- The allocated records by their addresses. -/
structure Heap (Cell : Type*) where
  cells : Address → Option Cell
  null : cells 0 = none

namespace Heap

variable {heap after : Heap Cell}

def empty : Heap Cell := ⟨fun _ => none, rfl⟩

/-- A load of one field of a record. -/
def field (heap : Heap Cell) (get : Cell → Value) (address : Address) : Option Value :=
  (heap.cells address).map get

def put (heap : Heap Cell) (address : Address) (cell : Cell) (notNull : address ≠ 0) :
    Heap Cell where
  cells := Function.update heap.cells address (some cell)
  null := by rw [Function.update_of_ne notNull.symm, heap.null]

/-- `malloc` may give any address in no use, with any content. -/
def malloc (heap : Heap Cell) (address : Address) (garbage : Cell) : Option (Heap Cell) :=
  if fresh : address ≠ 0 ∧ heap.cells address = none then some (heap.put address garbage fresh.1)
  else none

theorem ne_null (found : heap.cells address = some cell) : address ≠ 0 := by
  rintro rfl
  rw [heap.null] at found
  cases found

/-- A store to fields of a record. -/
def modify (heap : Heap Cell) (address : Address) (change : Cell → Cell) : Option (Heap Cell) :=
  match found : heap.cells address with
  | none => none
  | some cell => some (heap.put address (change cell) (ne_null found))

/-- `free` of an allocated record. -/
def free (heap : Heap Cell) (address : Address) : Option (Heap Cell) :=
  (heap.cells address).map fun _ =>
    { cells := Function.update heap.cells address none
      null := by
        by_cases same : 0 = address
        · rw [same, Function.update_self]
        · rw [Function.update_of_ne same, heap.null] }

theorem field_null (heap : Heap Cell) (get : Cell → Value) : heap.field get 0 = none := by
  simp [field, heap.null]

theorem field_eq_none {get : Cell → Value} :
    heap.field get address = none ↔ heap.cells address = none := by
  simp [field]

theorem field_eq_some {get : Cell → Value} (found : heap.field get address = some value) :
    ∃ cell, heap.cells address = some cell := by
  obtain ⟨cell, allocated, -⟩ := Option.map_eq_some_iff.mp found
  exact ⟨cell, allocated⟩

theorem field_put {notNull : address ≠ 0} (get : Cell → Value) :
    (heap.put address cell notNull).field get =
      Function.update (heap.field get) address (some (get cell)) := by
  funext other
  by_cases same : other = address
  · subst same
    simp [field, put]
  · simp [field, put, same]

theorem malloc_eq_some (done : heap.malloc address garbage = some after) (get : Cell → Value) :
    heap.field get address = none ∧
      after.field get = Function.update (heap.field get) address (some (get garbage)) := by
  unfold malloc at done
  split at done
  · rename_i fresh
    cases done
    exact ⟨field_eq_none.mpr fresh.2, field_put get⟩
  · cases done

theorem malloc_fresh (notNull : address ≠ 0) (unused : heap.cells address = none)
    (garbage : Cell) : heap.malloc address garbage = some (heap.put address garbage notNull) :=
  dif_pos ⟨notNull, unused⟩

theorem modify_eq_some (done : heap.modify address change = some after) :
    ∃ cell notNull, heap.cells address = some cell ∧
      after = heap.put address (change cell) notNull := by
  unfold modify at done
  split at done
  · cases done
  · rename_i cell found
    cases done
    exact ⟨cell, ne_null found, found, rfl⟩

/-- A store to a field. -/
theorem field_modify_self {get : Cell → Value} (done : heap.modify address change = some after)
    (sets : ∀ cell, get (change cell) = value) :
    after.field get = Function.update (heap.field get) address (some value) := by
  obtain ⟨cell, notNull, -, rfl⟩ := modify_eq_some done
  rw [field_put, sets]

/-- A store leaves the other fields of the record as they are. -/
theorem field_modify {get : Cell → Value} (done : heap.modify address change = some after)
    (same : ∀ cell, get (change cell) = get cell) : after.field get = heap.field get := by
  obtain ⟨cell, notNull, found, rfl⟩ := modify_eq_some done
  rw [field_put, Function.update_eq_self_iff, same]
  simp [field, found]

theorem modify_cell (found : heap.cells address = some cell) (change : Cell → Cell) :
    heap.modify address change = some (heap.put address (change cell) (ne_null found)) := by
  unfold modify
  split
  · rename_i missing
    rw [missing] at found
    cases found
  · rename_i other found'
    have same : other = cell := Option.some.inj (found'.symm.trans found)
    subst same
    rfl

theorem free_eq_some (done : heap.free address = some after) (get : Cell → Value) :
    after.field get = Function.update (heap.field get) address none := by
  obtain ⟨cell, found, rfl⟩ := Option.map_eq_some_iff.mp done
  funext other
  by_cases same : other = address
  · subst same
    simp [field]
  · simp [field, same]

theorem free_cell {get : Cell → Value} (found : heap.field get address = some value) :
    ∃ after, heap.free address = some after := by
  obtain ⟨cell, allocated⟩ := field_eq_some found
  exact ⟨_, by rw [free, allocated, Option.map_some]⟩

end Heap

end CssLab
