import Mathlib.Data.Finset.Card
import Mathlib.Data.List.Induction

namespace CssLab

/-- Distinct values, of which so many have been given out. -/
structure Enumeration (α : Type*) where
  values : List α
  given : Nat
  nodup : values.Nodup
  within : given ≤ values.length

namespace Enumeration

variable {α : Type*}

inductive Operation (α : Type*)
  | insert (value : α)
  | contains (value : α)
  | next
  deriving DecidableEq

inductive Answer (α : Type*)
  | inserted
  | contains (present : Bool)
  | next (value : Option α)
  deriving DecidableEq

def empty : Enumeration α := ⟨[], 0, List.nodup_nil, Nat.le_refl 0⟩

/-- The first value that has not been given out, if there is one. -/
def next (enumeration : Enumeration α) : Option α × Enumeration α :=
  if left : enumeration.given < enumeration.values.length then
    (some enumeration.values[enumeration.given],
      { enumeration with given := enumeration.given + 1, within := left })
  else (none, enumeration)

theorem next_eq (enumeration : Enumeration α) :
    enumeration.next.1 = enumeration.values[enumeration.given]? ∧
      enumeration.next.2.values = enumeration.values ∧
      enumeration.next.2.given = enumeration.given + enumeration.next.1.toList.length := by
  unfold next
  split
  · exact ⟨(List.getElem?_eq_getElem ‹_›).symm, rfl, rfl⟩
  · exact ⟨(List.getElem?_eq_none (Nat.not_lt.mp ‹_›)).symm, rfl, rfl⟩

/-- The values that are inserted. -/
def inserted (calls : List (Operation α)) : List α :=
  calls.filterMap fun
    | .insert value => some value
    | _ => none

/-- The values that are given out. -/
def handedOut (answers : List (Answer α)) : List α :=
  answers.filterMap fun
    | .next value => value
    | _ => none

theorem inserted_append (before after : List (Operation α)) :
    inserted (before ++ after) = inserted before ++ inserted after := List.filterMap_append

theorem handedOut_append (before after : List (Answer α)) :
    handedOut (before ++ after) = handedOut before ++ handedOut after := List.filterMap_append

variable [DecidableEq α]

/-- A value that is not there yet becomes the last one. -/
def insert (value : α) (enumeration : Enumeration α) : Enumeration α :=
  if old : value ∈ enumeration.values then enumeration
  else
    { values := enumeration.values ++ [value]
      given := enumeration.given
      nodup := by
        rw [← List.concat_eq_append]
        exact enumeration.nodup.concat old
      within := by
        rw [List.length_append]
        exact Nat.le_add_right_of_le enumeration.within }

def step (call : Operation α) (enumeration : Enumeration α) : Answer α × Enumeration α :=
  match call with
  | .insert value => (.inserted, enumeration.insert value)
  | .contains value => (.contains (value ∈ enumeration.values), enumeration)
  | .next => (.next enumeration.next.1, enumeration.next.2)

/-- The answers to calls that are made one after the other. -/
def run : List (Operation α) → Enumeration α → List (Answer α) × Enumeration α
  | [], enumeration => ([], enumeration)
  | call :: rest, enumeration =>
    ((enumeration.step call).1 :: (run rest (enumeration.step call).2).1,
      (run rest (enumeration.step call).2).2)

/-- What a call is answered where these are the values and so many have been given out. -/
def answer (values : List α) (given : Nat) : Operation α → Answer α
  | .insert _ => .inserted
  | .contains value => .contains (value ∈ values)
  | .next => .next values[given]?

theorem insert_values (value : α) (enumeration : Enumeration α) :
    (enumeration.insert value).values =
      if value ∈ enumeration.values then enumeration.values
      else enumeration.values ++ [value] := by
  unfold insert
  split
  · rfl
  · rfl

theorem insert_given (value : α) (enumeration : Enumeration α) :
    (enumeration.insert value).given = enumeration.given := by
  unfold insert
  split
  · rfl
  · rfl

theorem step_fst (call : Operation α) (enumeration : Enumeration α) :
    (enumeration.step call).1 = answer enumeration.values enumeration.given call := by
  cases call with
  | insert value => rfl
  | contains value => rfl
  | next => exact congrArg Answer.next enumeration.next_eq.1

theorem run_append (before after : List (Operation α)) (enumeration : Enumeration α) :
    run (before ++ after) enumeration =
      ((run before enumeration).1 ++ (run after (run before enumeration).2).1,
        (run after (run before enumeration).2).2) := by
  induction before generalizing enumeration with
  | nil => rfl
  | cons call rest ih =>
    rw [List.cons_append, run, ih]
    rfl

theorem run_concat (calls : List (Operation α)) (call : Operation α) (enumeration : Enumeration α) :
    run (calls ++ [call]) enumeration =
      ((run calls enumeration).1 ++ [((run calls enumeration).2.step call).1],
        ((run calls enumeration).2.step call).2) := by
  rw [run_append]
  rfl

theorem length_run (calls : List (Operation α)) (enumeration : Enumeration α) :
    (run calls enumeration).1.length = calls.length := by
  induction calls generalizing enumeration with
  | nil => rfl
  | cons call rest ih => exact congrArg (· + 1) (ih _)

theorem values_le_step (call : Operation α) (enumeration : Enumeration α) :
    enumeration.values.length ≤ (enumeration.step call).2.values.length := by
  cases call with
  | insert value =>
    change _ ≤ (enumeration.insert value).values.length
    rw [insert_values]
    split
    · exact Nat.le_refl _
    · rw [List.length_append]
      exact Nat.le_add_right _ _
  | contains value => exact Nat.le_refl _
  | next => exact Nat.le_of_eq (congrArg List.length enumeration.next_eq.2.1.symm)

theorem values_le_run (calls : List (Operation α)) (enumeration : Enumeration α) :
    enumeration.values.length ≤ (run calls enumeration).2.values.length := by
  induction calls generalizing enumeration with
  | nil => exact Nat.le_refl _
  | cons call rest ih => exact Nat.le_trans (enumeration.values_le_step call) (ih _)

theorem eraseDups_concat (values : List α) (value : α) :
    (values ++ [value]).eraseDups =
      if value ∈ values then values.eraseDups else values.eraseDups ++ [value] := by
  rw [List.eraseDups_append, List.cons_removeAll, List.nil_removeAll]
  by_cases old : value ∈ values
  · simp [old]
  · simp [old, List.eraseDups_cons]

/-- The values are those that came, each where it came first. -/
theorem values_run (calls : List (Operation α)) :
    (run calls empty).2.values = (inserted calls).eraseDups := by
  induction calls using List.reverseRecOn with
  | nil => rfl
  | append_singleton calls call ih =>
    rw [run_concat, inserted_append]
    cases call with
    | insert value =>
      change ((run calls empty).2.insert value).values = (inserted calls ++ [value]).eraseDups
      rw [insert_values, eraseDups_concat, ih]
      simp only [List.mem_eraseDups]
    | contains value =>
      change (run calls empty).2.values = (inserted calls ++ []).eraseDups
      rw [List.append_nil, ih]
    | next =>
      change (run calls empty).2.next.2.values = (inserted calls ++ []).eraseDups
      rw [List.append_nil, (next_eq _).2.1, ih]

theorem nodup_eraseDups (values : List α) : values.eraseDups.Nodup := by
  have calls : inserted (values.map .insert) = values := by
    simp [inserted, List.filterMap_map]
  have nodup := (run (values.map .insert) empty).2.nodup
  rwa [values_run, calls] at nodup

theorem length_eraseDups (values : List α) :
    values.eraseDups.length = values.toFinset.card := by
  rw [← List.toFinset_card_of_nodup (nodup_eraseDups values)]
  congr 1
  ext value
  simp

theorem length_eraseDups_le (values more : List α) :
    values.eraseDups.length ≤ (values ++ more).eraseDups.length := by
  rw [List.eraseDups_append, List.length_append]
  exact Nat.le_add_right _ _

/-- Those that are left out are left out in their first places. -/
theorem eraseDups_filter (keep : α → Bool) (values : List α) :
    (values.filter keep).eraseDups = values.eraseDups.filter keep := by
  induction values using List.reverseRecOn with
  | nil => rfl
  | append_singleton values value ih =>
    rw [List.filter_append, eraseDups_concat]
    by_cases kept : keep value
    · rw [List.filter_cons_of_pos kept, List.filter_nil, eraseDups_concat, ih]
      by_cases old : value ∈ values
      · simp [old, kept]
      · simp [old, kept]
    · rw [List.filter_cons_of_neg kept, List.filter_nil, List.append_nil, ih]
      by_cases old : value ∈ values
      · simp [old]
      · simp [old, kept]

/-- The values that have been given out are the first ones. -/
theorem handedOut_run (calls : List (Operation α)) :
    handedOut (run calls empty).1 =
      (run calls empty).2.values.take (run calls empty).2.given := by
  induction calls using List.reverseRecOn with
  | nil => rfl
  | append_singleton calls call ih =>
    rw [run_concat, handedOut_append, ih]
    cases call with
    | insert value =>
      have within := (run calls empty).2.within
      change _ ++ [] = ((run calls empty).2.insert value).values.take
        ((run calls empty).2.insert value).given
      rw [List.append_nil, insert_values, insert_given]
      split
      · rfl
      · exact (List.take_append_of_le_length within).symm
    | contains value => exact List.append_nil _
    | next =>
      obtain ⟨first, values, given⟩ := next_eq (run calls empty).2
      simp only [step, values, given, first]
      cases found : (run calls empty).2.values[(run calls empty).2.given]? with
      | none => simp [handedOut]
      | some value => simp [handedOut, List.take_add_one, found]

theorem length_handedOut_run (calls : List (Operation α)) :
    (handedOut (run calls empty).1).length = (run calls empty).2.given := by
  rw [handedOut_run, List.length_take]
  exact Nat.min_eq_left (run calls empty).2.within

/-- Every call is answered from what came before it: the values are those that were inserted,
each in its first place, and the next one is the first that was not given out. -/
theorem run_answer (before later : List (Operation α)) (call : Operation α) :
    (run (before ++ call :: later) empty).1[before.length]? =
      some (answer (inserted before).eraseDups (handedOut (run before empty).1).length call) := by
  rw [run_append, List.getElem?_append_right (Nat.le_of_eq (length_run before empty)),
    length_run, Nat.sub_self, length_handedOut_run, ← values_run, ← step_fst]
  rfl

theorem run_next_values (more : Nat) (enumeration : Enumeration α) :
    (run (List.replicate more .next) enumeration).2.values = enumeration.values := by
  induction more generalizing enumeration with
  | zero => rfl
  | succ more ih => exact (ih _).trans enumeration.next_eq.2.1

/-- Of calls of `next` alone, each gives out the value after the one before. -/
theorem run_next (more : Nat) (enumeration : Enumeration α) :
    (run (List.replicate more .next) enumeration).1 =
      (List.range more).map fun place =>
        .next enumeration.values[enumeration.given + place]? := by
  induction more generalizing enumeration with
  | zero => rfl
  | succ more ih =>
    obtain ⟨first, values, given⟩ := next_eq enumeration
    rw [List.replicate_succ, run, ih, List.range_succ_eq_map, List.map_cons, List.map_map]
    simp only [step, first, values, given]
    rw [Nat.add_zero, List.cons.injEq]
    refine ⟨rfl, List.map_congr_left fun place _ => ?_⟩
    cases found : enumeration.values[enumeration.given]? with
    | none =>
      have beyond := List.getElem?_eq_none_iff.mp found
      rw [Function.comp_apply, List.getElem?_eq_none (by omega), List.getElem?_eq_none (by omega)]
    | some value =>
      have same : enumeration.given + [value].length + place = enumeration.given + (place + 1) := by
        rw [List.length_singleton]
        omega
      rw [Function.comp_apply, Option.toList_some, same]

end Enumeration

end CssLab
