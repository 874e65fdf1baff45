import CssLab.Lib.Heap

/-! A heap that remembers what was freed. An address stands for one allocation: bytes
that `malloc` hands out again are a new one, so that an access through a pointer that
outlived its record finds nothing. -/

namespace CssLab

/-- No record is freed twice, and none that was freed is still there. -/
structure Ledger (Cell : Type*) extends Heap Cell where
  freed : List Address
  gone : ∀ address ∈ freed, cells address = none
  once : freed.Nodup

namespace Ledger

variable {ledger after : Ledger Cell}

/-- A heap of which nothing was freed yet. -/
def of (heap : Heap Cell) : Ledger Cell := ⟨heap, [], nofun, List.nodup_nil⟩

def empty : Ledger Cell := .of Heap.empty

def malloc (ledger : Ledger Cell) (address : Address) (garbage : Cell) : Option (Ledger Cell) :=
  if used : address ∈ ledger.freed then none
  else match done : ledger.toHeap.malloc address garbage with
    | none => none
    | some heap => some {
        heap with
        freed := ledger.freed
        gone := by
          intro other member
          have apart : other ≠ address := by
            rintro rfl
            exact used member
          have field : heap.field id other = none := by
            rw [(Heap.malloc_eq_some done id).2, Function.update_of_ne apart, Heap.field_eq_none]
            exact ledger.gone other member
          exact Heap.field_eq_none.mp field
        once := ledger.once }

/-- A store to fields of a record. -/
def modify (ledger : Ledger Cell) (address : Address) (change : Cell → Cell) :
    Option (Ledger Cell) :=
  match done : ledger.toHeap.modify address change with
  | none => none
  | some heap => some {
      heap with
      freed := ledger.freed
      gone := by
        intro other member
        obtain ⟨cell, notNull, found, rfl⟩ := Heap.modify_eq_some done
        have apart : other ≠ address := by
          rintro rfl
          rw [ledger.gone other member] at found
          cases found
        exact (Function.update_of_ne apart _ _).trans (ledger.gone other member)
      once := ledger.once }

def free (ledger : Ledger Cell) (address : Address) : Option (Ledger Cell) :=
  match done : ledger.toHeap.free address with
  | none => none
  | some heap => some {
      heap with
      freed := address :: ledger.freed
      gone := by
        intro other member
        have field : heap.field id other = none := by
          rw [Heap.free_eq_some done id]
          by_cases same : other = address
          · rw [same, Function.update_self]
          · rw [Function.update_of_ne same, Heap.field_eq_none]
            exact ledger.gone other ((List.mem_cons.mp member).resolve_left same)
        exact Heap.field_eq_none.mp field
      once := by
        refine List.nodup_cons.mpr ⟨fun member => ?_, ledger.once⟩
        rw [Heap.free, ledger.gone address member] at done
        cases done }

theorem field_freed {get : Cell → Value} (found : ledger.field get address = some value) :
    address ∉ ledger.freed := by
  intro member
  rw [Heap.field_eq_none.mpr (ledger.gone address member)] at found
  cases found

theorem malloc_eq_some (done : ledger.malloc address garbage = some after) :
    address ∉ ledger.freed ∧ ledger.toHeap.malloc address garbage = some after.toHeap ∧
      after.freed = ledger.freed := by
  unfold malloc at done
  split at done
  · cases done
  · rename_i fresh
    split at done
    · cases done
    · rename_i heap allocated
      cases done
      exact ⟨fresh, allocated, rfl⟩

theorem modify_eq_some (done : ledger.modify address change = some after) :
    ledger.toHeap.modify address change = some after.toHeap ∧ after.freed = ledger.freed := by
  unfold modify at done
  split at done
  · cases done
  · rename_i heap modified
    cases done
    exact ⟨modified, rfl⟩

theorem free_eq_some (done : ledger.free address = some after) :
    ledger.toHeap.free address = some after.toHeap ∧ after.freed = address :: ledger.freed := by
  unfold free at done
  split at done
  · cases done
  · rename_i heap released
    cases done
    exact ⟨released, rfl⟩

theorem malloc_fresh (notNull : address ≠ 0) (unused : ledger.cells address = none)
    (fresh : address ∉ ledger.freed) (garbage : Cell) :
    ∃ after, ledger.malloc address garbage = some after := by
  unfold malloc
  rw [dif_neg fresh]
  split
  · rename_i failed
    rw [Heap.malloc_fresh notNull unused] at failed
    cases failed
  · exact ⟨_, rfl⟩

theorem modify_cell {get : Cell → Value} (found : ledger.field get address = some value)
    (change : Cell → Cell) : ∃ after, ledger.modify address change = some after := by
  obtain ⟨cell, allocated⟩ := Heap.field_eq_some found
  unfold modify
  split
  · rename_i failed
    rw [Heap.modify_cell allocated] at failed
    cases failed
  · exact ⟨_, rfl⟩

theorem free_cell {get : Cell → Value} (found : ledger.field get address = some value) :
    ∃ after, ledger.free address = some after := by
  obtain ⟨heap, released⟩ := Heap.free_cell found
  unfold free
  split
  · rename_i failed
    rw [released] at failed
    cases failed
  · exact ⟨_, rfl⟩

theorem malloc_cells (done : ledger.malloc address garbage = some after) :
    after.cells = Function.update ledger.cells address (some garbage) := by
  obtain ⟨-, allocated, -⟩ := malloc_eq_some done
  unfold Heap.malloc at allocated
  split at allocated
  · exact (congrArg Heap.cells (Option.some.inj allocated)).symm
  · cases allocated

/-- A store to a record that is there. -/
theorem modify_found (found : ledger.cells address = some cell) (change : Cell → Cell) :
    ∃ after, ledger.modify address change = some after ∧
      after.cells = Function.update ledger.cells address (some (change cell)) ∧
      after.freed = ledger.freed := by
  have field : ledger.field id address = some cell := by rw [Heap.field, found]; rfl
  obtain ⟨after, done⟩ := modify_cell field change
  obtain ⟨modified, freed⟩ := modify_eq_some done
  obtain ⟨cell', notNull, found', put⟩ := Heap.modify_eq_some modified
  obtain rfl := Option.some.inj (found'.symm.trans found)
  exact ⟨after, done, congrArg Heap.cells put, freed⟩

/-- From some bound on no address is in use or has been. -/
def Roomy (ledger : Ledger Cell) : Prop :=
  ∃ bound : Nat, ∀ p : Nat, bound ≤ p → ledger.cells p = none ∧ p ∉ ledger.freed

theorem roomy_empty : Roomy (empty : Ledger Cell) := ⟨0, fun _ _ => ⟨rfl, List.not_mem_nil⟩⟩

/-- Then `malloc` can give something. -/
theorem Roomy.exists_malloc (roomy : Roomy ledger) (garbage : Cell) :
    ∃ address after, ledger.malloc address garbage = some after := by
  obtain ⟨bound, unused⟩ := roomy
  obtain ⟨unused, fresh⟩ := unused (bound + 1) (Nat.le_succ bound)
  exact ⟨bound + 1, malloc_fresh (Nat.succ_ne_zero bound) unused fresh garbage⟩

theorem Roomy.malloc {p : Nat} (roomy : Roomy ledger)
    (done : ledger.malloc p garbage = some after) : Roomy after := by
  obtain ⟨bound, free⟩ := roomy
  obtain ⟨-, -, freed⟩ := malloc_eq_some done
  refine ⟨max bound (p + 1), fun q high => ?_⟩
  have apart : q ≠ p := by omega
  obtain ⟨unused, fresh⟩ := free q (by omega)
  rw [malloc_cells done, Function.update_of_ne apart, freed]
  exact ⟨unused, fresh⟩

theorem Roomy.modify (roomy : Roomy ledger) (done : ledger.modify p change = some after) :
    Roomy after := by
  obtain ⟨bound, free⟩ := roomy
  obtain ⟨modified, freed⟩ := modify_eq_some done
  obtain ⟨cell, notNull, found, same⟩ := Heap.modify_eq_some modified
  refine ⟨bound, fun q high => ?_⟩
  obtain ⟨unused, fresh⟩ := free q high
  have apart : q ≠ p := by
    rintro rfl
    rw [unused] at found
    cases found
  have cells : after.cells q = ledger.cells q := by
    rw [same]
    exact Function.update_of_ne apart _ _
  rw [cells, freed]
  exact ⟨unused, fresh⟩

theorem Roomy.free {p : Nat} (roomy : Roomy ledger) (done : ledger.free p = some after) :
    Roomy after := by
  obtain ⟨bound, free⟩ := roomy
  obtain ⟨released, freed⟩ := free_eq_some done
  refine ⟨max bound (p + 1), fun q high => ?_⟩
  have apart : q ≠ p := by omega
  obtain ⟨unused, fresh⟩ := free q (by omega)
  have field : after.field id q = none := by
    rw [Heap.free_eq_some released, Function.update_of_ne apart]
    exact Heap.field_eq_none.mpr unused
  rw [freed]
  exact ⟨Heap.field_eq_none.mp field, by simp [apart, fresh]⟩

end Ledger

end CssLab
