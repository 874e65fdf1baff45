import Mathlib.Data.List.Basic

namespace CssLab

/-- What each descriptor refers to, up to the last one that is open. -/
abbrev Descriptors (File : Type*) := List (Option File)

namespace Descriptors

variable {File : Type*}

def lookup (table : Descriptors File) (fd : Nat) : Option File := table[fd]?.join

/-- The lowest free descriptor, and the table with the file there. -/
def place (file : File) : Descriptors File → Nat × Descriptors File
  | [] => (0, [some file])
  | none :: rest => (0, some file :: rest)
  | some other :: rest =>
    let (fd, after) := place file rest
    (fd + 1, some other :: after)

def close : Nat → Descriptors File → Descriptors File
  | _, [] => []
  | 0, _ :: [] => []
  | 0, _ :: rest => none :: rest
  | fd + 1, entry :: rest =>
    match entry, close fd rest with
    | none, [] => []
    | entry, after => entry :: after

/-- A duplicate of `fd` takes the lowest free descriptor, if `fd` is open. -/
def dup (fd : Nat) (table : Descriptors File) : Descriptors File :=
  match lookup table fd with
  | some file => (place file table).2
  | none => table

def Open (file : File) (table : Descriptors File) : Prop := some file ∈ table

theorem open_iff {table : Descriptors File} :
    Open file table ↔ ∃ fd, lookup table fd = some file := by
  simp only [Open, List.mem_iff_getElem?, lookup, Option.join_eq_some_iff]

theorem lookup_close (fd : Nat) (table : Descriptors File) (other : Nat) :
    lookup (close fd table) other = if other = fd then none else lookup table other := by
  induction table generalizing fd other with
  | nil => cases fd <;> simp [close, lookup]
  | cons entry rest ih =>
    cases fd with
    | zero =>
      cases rest with
      | nil => cases other <;> simp [close, lookup]
      | cons next rest => cases other <;> simp [close, lookup]
    | succ fd =>
      have tail := ih fd
      cases after : close fd rest with
      | nil =>
        simp only [after] at tail
        cases entry <;> cases other <;> simp [close, after, lookup] at tail ⊢ <;> exact tail _
      | cons next later =>
        simp only [after] at tail
        cases entry <;> cases other <;> simp [close, after, lookup] at tail ⊢ <;> exact tail _

theorem lookup_place (file : File) (table : Descriptors File) :
    lookup (place file table).2 (place file table).1 = some file := by
  induction table with
  | nil => rfl
  | cons entry rest ih =>
    cases entry with
    | none => rfl
    | some other => exact ih

/-- A file that is open after an `open` is the new one or was open before. -/
theorem open_place {table : Descriptors File} :
    Open other (place file table).2 ↔ other = file ∨ Open other table := by
  induction table with
  | nil => simp [place, Open]
  | cons entry rest ih =>
    cases entry with
    | none => simp [place, Open]
    | some present =>
      simp only [Open, place, List.mem_cons] at ih ⊢
      rw [ih]
      exact or_left_comm

theorem open_close {table : Descriptors File} (still : Open file (close fd table)) :
    Open file table := by
  obtain ⟨other, found⟩ := open_iff.mp still
  rw [lookup_close] at found
  split at found
  · cases found
  · exact open_iff.mpr ⟨other, found⟩

theorem open_dup {table : Descriptors File} (still : Open file (dup fd table)) :
    Open file table := by
  unfold dup at still
  split at still
  · rename_i duplicate found
    rcases open_place.mp still with rfl | present
    · exact open_iff.mpr ⟨fd, found⟩
    · exact present
  · exact still

/-- How many descriptors are open. -/
def openCount (table : Descriptors File) : Nat := table.countP Option.isSome

theorem lookup_place_free (file : File) (table : Descriptors File) :
    lookup table (place file table).1 = none := by
  induction table with
  | nil => rfl
  | cons entry rest ih =>
    cases entry with
    | none => rfl
    | some other => exact ih

theorem lookup_place_other (file : File) (table : Descriptors File)
    (other : fd ≠ (place file table).1) :
    lookup (place file table).2 fd = lookup table fd := by
  induction table generalizing fd with
  | nil =>
    obtain ⟨before, rfl⟩ := Nat.exists_eq_succ_of_ne_zero other
    rfl
  | cons entry rest ih =>
    cases entry with
    | none =>
      obtain ⟨before, rfl⟩ := Nat.exists_eq_succ_of_ne_zero other
      rfl
    | some present =>
      cases fd with
      | zero => rfl
      | succ fd => exact ih fun same => other (congrArg (· + 1) same)

theorem lookup_close_place (file : File) (table : Descriptors File) (fd : Nat) :
    lookup (close (place file table).1 (place file table).2) fd = lookup table fd := by
  rw [lookup_close]
  by_cases same : fd = (place file table).1
  · rw [if_pos same, same, lookup_place_free]
  · rw [if_neg same, lookup_place_other file table same]

theorem openCount_place (file : File) (table : Descriptors File) :
    openCount (place file table).2 = openCount table + 1 := by
  induction table with
  | nil => rfl
  | cons entry rest ih =>
    cases entry with
    | none => simp [openCount, place]
    | some other =>
      rw [openCount, openCount] at ih
      simp [openCount, place, ih]

theorem openCount_close {table : Descriptors File} (found : lookup table fd = some file) :
    openCount (close fd table) + 1 = openCount table := by
  induction table generalizing fd with
  | nil => cases found
  | cons entry rest ih =>
    cases fd with
    | zero =>
      cases found
      cases rest <;> simp [close, openCount]
    | succ fd =>
      have inside : lookup rest fd = some file := found
      have fewer := ih inside
      rw [openCount, openCount] at fewer
      cases after : close fd rest with
      | nil =>
        rw [after] at fewer
        cases entry <;> simp [close, after, openCount] at fewer ⊢ <;> omega
      | cons next later =>
        rw [after] at fewer
        cases entry <;> simp [close, after, openCount] at fewer ⊢ <;> omega

/-- The lowest free descriptor is below a limit that none reaches unless all are open. -/
theorem place_lt_iff {table : Descriptors File} (file : File) (short : table.length ≤ limit) :
    (place file table).1 < limit ↔ openCount table < limit := by
  induction table generalizing limit with
  | nil => rfl
  | cons entry rest ih =>
    obtain ⟨before, rfl⟩ := Nat.exists_eq_succ_of_ne_zero (Nat.ne_zero_of_lt short)
    have short' : rest.length ≤ before := Nat.le_of_succ_le_succ short
    cases entry with
    | none =>
      have most : rest.countP Option.isSome ≤ rest.length := List.countP_le_length
      simp only [place, openCount, List.countP_cons_of_neg, Option.isSome_none,
        Bool.false_eq_true, not_false_eq_true]
      omega
    | some other =>
      have inside := ih short'
      rw [openCount] at inside
      simp only [place, openCount, List.countP_cons_of_pos, Option.isSome_some]
      omega

theorem length_place {table : Descriptors File} (room : (place file table).1 < limit)
    (short : table.length ≤ limit) : (place file table).2.length ≤ limit := by
  induction table generalizing limit with
  | nil => exact room
  | cons entry rest ih =>
    cases entry with
    | none => exact short
    | some other =>
      obtain ⟨before, rfl⟩ := Nat.exists_eq_succ_of_ne_zero (Nat.ne_zero_of_lt short)
      exact Nat.succ_le_succ (ih (Nat.lt_of_succ_lt_succ room) (Nat.le_of_succ_le_succ short))

theorem length_close_le (fd : Nat) (table : Descriptors File) :
    (close fd table).length ≤ table.length := by
  induction table generalizing fd with
  | nil => cases fd <;> exact Nat.le_refl _
  | cons entry rest ih =>
    cases fd with
    | zero => cases rest <;> simp [close]
    | succ fd =>
      have fewer := ih fd
      cases after : close fd rest <;> cases entry <;>
        simp [close, after] at fewer ⊢ <;> omega

end Descriptors

end CssLab
