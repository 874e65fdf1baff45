import CssLab.Lib.Descriptors
import Mathlib.Logic.Function.Basic

namespace CssLab.OpenFiles

variable {Path Other : Type*}

/-- The flags of `open` beside `O_RDWR`. -/
structure Flags where
  creat : Bool
  trunc : Bool
  deriving DecidableEq

structure Description (Path : Type*) where
  path : Path
  offset : Nat

/-- What a descriptor refers to. -/
inductive Entry (Other : Type*)
  | other (other : Other)
  | description (id : Nat)

/-- The files there are, the open file descriptions, and the descriptors of a process. -/
structure State (Path Other : Type*) where
  disk : Path → Option (List UInt8)
  descriptions : List (Description Path)
  table : Descriptors (Entry Other)

/-- A file after a write at an offset; a gap is filled with zeros. -/
def overwrite (content : List UInt8) (offset : Nat) (data : List UInt8) : List UInt8 :=
  content.take offset ++ List.replicate (offset - content.length) 0 ++ data ++
    content.drop (offset + data.length)

namespace State

def close (fd : Nat) (state : State Path Other) : State Path Other :=
  { state with table := state.table.close fd }

variable [DecidableEq Path]

/-- `open` makes a description with offset 0 and takes the lowest free descriptor. -/
def openFile (flags : Flags) (path : Path) (state : State Path Other) : State Path Other :=
  if state.disk path = none ∧ flags.creat = false then state
  else
    let content := if flags.trunc then [] else (state.disk path).getD []
    { disk := Function.update state.disk path (some content)
      descriptions := state.descriptions ++ [⟨path, 0⟩]
      table := (state.table.place (.description state.descriptions.length)).2 }

def write (fd : Nat) (data : List UInt8) (state : State Path Other) : State Path Other :=
  match state.table.lookup fd with
  | some (.description id) =>
    match state.descriptions[id]? with
    | some ⟨path, offset⟩ =>
      match state.disk path with
      | some content =>
        if data = [] then state
        else
          { state with
            disk := Function.update state.disk path (some (overwrite content offset data))
            descriptions := state.descriptions.set id ⟨path, offset + data.length⟩ }
      | none => state
    | none => state
  | _ => state

def writes (fd : Nat) (all : List (List UInt8)) (state : State Path Other) : State Path Other :=
  all.foldl (fun state data => state.write fd data) state

end State

theorem length_overwrite (content : List UInt8) (offset : Nat) (data : List UInt8) :
    (overwrite content offset data).length = max content.length (offset + data.length) := by
  simp only [overwrite, List.length_append, List.length_take, List.length_replicate,
    List.length_drop]
  omega

@[simp] theorem overwrite_zero (content data : List UInt8) :
    overwrite content 0 data = data ++ content.drop data.length := by
  simp [overwrite]

theorem overwrite_nil {content : List UInt8} (inside : offset ≤ content.length) :
    overwrite content offset [] = content := by
  have noGap : offset - content.length = 0 := Nat.sub_eq_zero_of_le inside
  rw [overwrite, noGap]
  simp

theorem overwrite_append (content : List UInt8) (offset : Nat) (first second : List UInt8) :
    overwrite (overwrite content offset first) (offset + first.length) second =
      overwrite content offset (first ++ second) := by
  have before : (content.take offset ++ List.replicate (offset - content.length) 0 ++
      first).length = offset + first.length := by
    simp only [List.length_append, List.length_take, List.length_replicate]
    omega
  have noGap : offset + first.length - (overwrite content offset first).length = 0 := by
    rw [length_overwrite]
    omega
  have front : (overwrite content offset first).take (offset + first.length) =
      content.take offset ++ List.replicate (offset - content.length) 0 ++ first :=
    List.take_left' before
  have back : (overwrite content offset first).drop (offset + first.length + second.length) =
      content.drop (offset + (first ++ second).length) := by
    rw [← List.drop_drop, overwrite, List.drop_left' before, List.drop_drop, List.length_append,
      Nat.add_assoc]
  rw [overwrite, noGap, front, back, overwrite]
  simp only [List.replicate_zero, List.append_nil, List.append_assoc]

section Writing

variable [DecidableEq Path] {state : State Path Other} {path : Path} {fd offset : Nat}
  {content : List UInt8}

/-- Through this descriptor a file with this content is written at this offset. -/
structure Writing (state : State Path Other) (fd : Nat) (path : Path) (offset : Nat)
    (content : List UInt8) : Prop where
  refers : ∃ id, state.table.lookup fd = some (.description id) ∧
    state.descriptions[id]? = some ⟨path, offset⟩
  holds : state.disk path = some content
  inside : offset ≤ content.length

theorem Writing.write (writing : Writing state fd path offset content) (data : List UInt8) :
    Writing (state.write fd data) fd path (offset + data.length)
      (overwrite content offset data) := by
  obtain ⟨⟨id, refers, described⟩, holds, inside⟩ := writing
  have wrote : state.write fd data = if data = [] then state
      else
        { state with
          disk := Function.update state.disk path (some (overwrite content offset data))
          descriptions := state.descriptions.set id ⟨path, offset + data.length⟩ } := by
    simp only [State.write, refers, described, holds]
  by_cases nothing : data = []
  · subst nothing
    rw [wrote, if_pos rfl, overwrite_nil inside]
    exact ⟨⟨id, refers, described⟩, holds, inside⟩
  · rw [wrote, if_neg nothing]
    refine ⟨⟨id, refers, ?_⟩, Function.update_self .., ?_⟩
    · obtain ⟨below, -⟩ := List.getElem?_eq_some_iff.mp described
      exact List.getElem?_set_self below
    · rw [length_overwrite]
      exact Nat.le_max_right _ _

/-- However the bytes are split into writes, they end up behind one another. -/
theorem Writing.writes (writing : Writing state fd path offset content)
    (all : List (List UInt8)) :
    Writing (state.writes fd all) fd path (offset + all.flatten.length)
      (overwrite content offset all.flatten) := by
  induction all generalizing state offset content with
  | nil =>
    rw [List.flatten_nil, overwrite_nil writing.inside]
    exact writing
  | cons data rest ih =>
    have later := ih (writing.write data)
    rw [overwrite_append] at later
    rw [List.flatten_cons, List.length_append, ← Nat.add_assoc]
    exact later

/-- A file that was just opened is written from its start on. -/
theorem Writing.openFile (state : State Path Other) (path : Path) {flags : Flags}
    (creat : flags.creat)
    (lowest : (state.table.place (.description state.descriptions.length)).1 = fd) :
    Writing (state.openFile flags path) fd path 0
      (if flags.trunc then [] else (state.disk path).getD []) := by
  have opens : ¬(state.disk path = none ∧ flags.creat = false) := by simp [creat]
  rw [State.openFile, if_neg opens]
  refine ⟨⟨state.descriptions.length, ?_, ?_⟩, Function.update_self .., Nat.zero_le _⟩
  · rw [← lowest]
    exact Descriptors.lookup_place _ _
  · simp

end Writing

end CssLab.OpenFiles
