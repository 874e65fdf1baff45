import CssLab.Lib.Enumeration

/-! `set.c` with its array: what its functions return in whatever order they are called. -/

namespace CssLab.Mcc

open Enumeration

/-- `MAX_VAR`, the length of the array `set_data`. -/
def maxVar : Nat := 256

/-- `struct set_t`, where a cell of `set_data` is a null pointer or points to a name. -/
structure SetT where
  setData : Vector (Option String) maxVar
  setCount : Nat
  setCursor : Nat

namespace SetT

/-- The static at the start of the process. -/
def zeroed : SetT := ⟨.replicate maxVar none, 0, 0⟩

/-- The name that a cell points to. A null pointer cannot be followed, and what is behind
the array is no cell of it. -/
def name (set : SetT) (i : Nat) : Option String := set.setData[i]?.join

/-- The loop of `set_exists` from an index on, with so many rounds to go. -/
def existsLoop (set : SetT) (var : String) (i : Nat) : Nat → Option Bool
  | 0 => some false
  | rounds + 1 => do
    let name ← set.name i
    if var = name then some true else set.existsLoop var (i + 1) rounds

def setExists (set : SetT) (var : String) : Option Bool := set.existsLoop var 0 set.setCount

/-- `set_add`, which may not write behind the array. -/
def setAdd (set : SetT) (var : String) : Option SetT := do
  let present ← set.setExists var
  if present then some set
  else if inside : set.setCount < maxVar then
    some { set with
      setData := set.setData.set set.setCount (some var) inside
      setCount := set.setCount + 1 }
  else none

def setNext (set : SetT) : Option (Option String × SetT) :=
  if set.setCount ≤ set.setCursor then some (none, set)
  else do
    let var ← set.setData[set.setCursor]?
    some (var, { set with setCursor := set.setCursor + 1 })

def setReset (set : SetT) : SetT := { set with setCount := 0, setCursor := 0 }

theorem setNext_moves {set after : SetT} (next : set.setNext = some (some var, after)) :
    set.setCursor < set.setCount ∧ after.setCount = set.setCount ∧
      after.setCursor = set.setCursor + 1 := by
  unfold setNext at next
  split at next
  · cases next
  · obtain ⟨cell, -, same⟩ := Option.bind_eq_some_iff.mp next
    cases same
    exact ⟨Nat.not_le.mp ‹_›, rfl, rfl⟩

/-- A call of `set_add`, `set_exists` or `set_next`. -/
def call (set : SetT) : Operation String → Option (Answer String × SetT)
  | .insert var => do
    let after ← set.setAdd var
    some (.inserted, after)
  | .contains var => do
    let present ← set.setExists var
    some (.contains present, set)
  | .next => do
    let (var, after) ← set.setNext
    some (.next var, after)

/-- Calls one after the other, and what they return. -/
def calls (set : SetT) : List (Operation String) → Option (List (Answer String) × SetT)
  | [] => some ([], set)
  | call :: rest => do
    let (answer, after) ← set.call call
    let (answers, last) ← after.calls rest
    some (answer :: answers, last)

end SetT

/-- The array has these names, and the cursor is at this one of them. -/
structure Stores (set : SetT) (names : List String) (cursor : Nat) : Prop where
  count : set.setCount = names.length
  at_cursor : set.setCursor = cursor
  fits : names.length ≤ maxVar
  cells : ∀ i < names.length, set.setData[i]? = some names[i]?

section Functions

variable {set : SetT} {names : List String} {cursor : Nat}

theorem stores_setReset (set : SetT) : Stores set.setReset [] 0 :=
  ⟨rfl, rfl, Nat.zero_le _, fun i below => absurd below (Nat.not_lt_zero i)⟩

theorem Stores.name (stores : Stores set names cursor) {i : Nat} (below : i < names.length) :
    set.name i = names[i]? := by
  rw [SetT.name, stores.cells i below, Option.join_some]

theorem Stores.existsLoop (stores : Stores set names cursor) (var : String) (i rounds : Nat)
    (all : i + rounds = names.length) :
    set.existsLoop var i rounds = some (decide (var ∈ names.drop i)) := by
  induction rounds generalizing i with
  | zero =>
    have nothing : names.drop i = [] := List.drop_eq_nil_of_le (Nat.le_of_eq all.symm)
    rw [SetT.existsLoop, nothing]
    rfl
  | succ rounds ih =>
    have below : i < names.length := by omega
    have split := List.drop_eq_getElem_cons below
    rw [SetT.existsLoop, stores.name below, List.getElem?_eq_getElem below,
      ih (i + 1) (by omega), split]
    by_cases same : var = names[i]
    · simp only [Option.bind_eq_bind, Option.bind_some, List.mem_cons, same, true_or,
        decide_true, if_true]
    · simp only [Option.bind_eq_bind, Option.bind_some, List.mem_cons, same, false_or, if_false]

theorem Stores.setExists (stores : Stores set names cursor) (var : String) :
    set.setExists var = some (decide (var ∈ names)) := by
  have whole := stores.existsLoop var 0 names.length (Nat.zero_add _)
  rw [List.drop_zero] at whole
  rw [SetT.setExists, stores.count]
  exact whole

theorem Stores.setAdd_old (stores : Stores set names cursor) (old : var ∈ names) :
    set.setAdd var = some set := by
  simp [SetT.setAdd, stores.setExists, old]

/-- A new name goes behind the others, as long as there is a cell. -/
theorem Stores.setAdd_new (stores : Stores set names cursor) (new : var ∉ names)
    (room : names.length < maxVar) :
    ∃ after, set.setAdd var = some after ∧ Stores after (names ++ [var]) cursor := by
  have inside : set.setCount < maxVar := by
    rw [stores.count]
    exact room
  refine ⟨{ set with
    setData := set.setData.set set.setCount (some var) inside
    setCount := set.setCount + 1 }, by simp [SetT.setAdd, stores.setExists, new, inside], ?_⟩
  refine ⟨?_, stores.at_cursor, ?_, ?_⟩
  · simp [stores.count]
  · rw [List.length_append]
    exact room
  · intro i below
    rw [List.length_append, List.length_singleton] at below
    rcases Nat.lt_succ_iff_lt_or_eq.mp below with before | rfl
    · have other : set.setCount ≠ i := by
        rw [stores.count]
        exact Nat.ne_of_gt before
      rw [Vector.getElem?_set_ne _ other, stores.cells i before,
        List.getElem?_append_left before]
    · simp [← stores.count]

/-- With no cell left, a new name is written behind the array. -/
theorem Stores.setAdd_full (stores : Stores set names cursor) (new : var ∉ names)
    (full : ¬names.length < maxVar) : set.setAdd var = none := by
  have outside : ¬set.setCount < maxVar := by
    rw [stores.count]
    exact full
  simp [SetT.setAdd, stores.setExists, new, outside]

/-- `set_next` returns the name at the cursor and moves on, if there is one. -/
theorem Stores.setNext (stores : Stores set names cursor) :
    ∃ after, set.setNext = some (names[cursor]?, after) ∧
      Stores after names (cursor + names[cursor]?.toList.length) := by
  rw [SetT.setNext, stores.count, stores.at_cursor]
  by_cases below : cursor < names.length
  · rw [if_neg (Nat.not_le.mpr below), stores.cells cursor below, List.getElem?_eq_getElem below]
    exact ⟨_, rfl, rfl, rfl, stores.fits, stores.cells⟩
  · rw [if_pos (Nat.not_lt.mp below), List.getElem?_eq_none (Nat.not_lt.mp below)]
    exact ⟨set, rfl, stores⟩

end Functions

section Calls

variable {set : SetT} {enumeration : Enumeration String}

/-- A call does what it does to the enumeration, which has no array. -/
theorem Stores.call (stores : Stores set enumeration.values enumeration.given)
    (call : Operation String) (room : (enumeration.step call).2.values.length ≤ maxVar) :
    ∃ after, set.call call = some ((enumeration.step call).1, after) ∧
      Stores after (enumeration.step call).2.values (enumeration.step call).2.given := by
  cases call with
  | insert var =>
    change (enumeration.insert var).values.length ≤ maxVar at room
    change ∃ after, set.call (.insert var) = some (.inserted, after) ∧
      Stores after (enumeration.insert var).values (enumeration.insert var).given
    rw [insert_values] at room ⊢
    rw [insert_given]
    by_cases old : var ∈ enumeration.values
    · rw [if_pos old]
      exact ⟨set, by simp [SetT.call, stores.setAdd_old old], stores⟩
    · rw [if_neg old, List.length_append] at room
      rw [if_neg old]
      obtain ⟨after, added, stores'⟩ := stores.setAdd_new old room
      exact ⟨after, by simp [SetT.call, added], stores'⟩
  | contains var => exact ⟨set, by simp [SetT.call, stores.setExists, step], stores⟩
  | next =>
    obtain ⟨first, values, given⟩ := enumeration.next_eq
    obtain ⟨after, moved, stores'⟩ := stores.setNext
    refine ⟨after, by simp [SetT.call, moved, step, first], ?_⟩
    change Stores after enumeration.next.2.values enumeration.next.2.given
    rw [values, given, first]
    exact stores'

theorem Stores.calls (stores : Stores set enumeration.values enumeration.given)
    (calls : List (Operation String)) (room : (run calls enumeration).2.values.length ≤ maxVar) :
    ∃ after, set.calls calls = some ((run calls enumeration).1, after) ∧
      Stores after (run calls enumeration).2.values (run calls enumeration).2.given := by
  induction calls generalizing set enumeration with
  | nil => exact ⟨set, rfl, stores⟩
  | cons call rest ih =>
    have first := (values_le_run rest (enumeration.step call).2).trans room
    obtain ⟨after, called, stores'⟩ := stores.call call first
    obtain ⟨last, ran, stored⟩ := ih stores' room
    exact ⟨last, by simp [SetT.calls, called, ran, run], stored⟩

/-- After `set_reset`, with no more distinct names than there are cells. -/
theorem calls_setReset (set : SetT) (calls : List (Operation String))
    (few : (inserted calls).toFinset.card ≤ maxVar) :
    ∃ after, set.setReset.calls calls = some ((run calls empty).1, after) ∧
      Stores after (run calls empty).2.values (run calls empty).2.given := by
  have start : Stores set.setReset (empty : Enumeration String).values
      (empty : Enumeration String).given := stores_setReset set
  apply start.calls
  rw [values_run, length_eraseDups]
  exact few

/-- Whatever calls of `set_add`, `set_exists` and `set_next` follow `set_reset`, with at most
`maxVar` distinct names: what `set_next` returned are the first ones of the distinct names, in
the order in which they were added first; each call is answered from the calls before it; and
more calls of `set_next` return the other names in their order, and then null pointers. -/
theorem set_enumerates (set : SetT) (calls : List (Operation String))
    (few : (inserted calls).toFinset.card ≤ maxVar) :
    ∃ answers after, set.setReset.calls calls = some (answers, after) ∧
      handedOut answers <+: (inserted calls).eraseDups ∧
      (∀ before call later, calls = before ++ call :: later →
        answers[before.length]? = some (answer (inserted before).eraseDups
          (handedOut (answers.take before.length)).length call)) ∧
      ∀ more, ∃ last, after.calls (List.replicate more .next) =
        some ((List.range more).map fun place =>
          .next (inserted calls).eraseDups[(handedOut answers).length + place]?, last) := by
  obtain ⟨after, ran, stores⟩ := calls_setReset set calls few
  refine ⟨_, after, ran, ?_, ?_, ?_⟩
  · rw [handedOut_run, values_run]
    exact List.take_prefix _ _
  · rintro before call later rfl
    have front : (run (before ++ call :: later) empty).1.take before.length =
        (run before empty).1 := by
      rw [run_append, ← length_run before empty]
      exact List.take_left
    rw [front]
    exact run_answer before later call
  · intro more
    have room : (run (List.replicate more .next) (run calls empty).2).2.values.length ≤ maxVar := by
      rw [run_next_values, values_run, length_eraseDups]
      exact few
    obtain ⟨last, ran', -⟩ := stores.calls (List.replicate more .next) room
    refine ⟨last, ?_⟩
    rw [ran', run_next, values_run, length_handedOut_run]

/-- `y` and `x` are added, and `y` is asked for before `x` and after it. -/
theorem set_enumerates_two :
    let calls : List (Operation String) :=
      [.insert "y", .next, .insert "x", .insert "y", .contains "z", .next, .next]
    ∃ answers after, SetT.zeroed.setReset.calls calls = some (answers, after) ∧
      handedOut answers <+: ["y", "x"] := by
  intro calls
  have distinct : (inserted calls).eraseDups = ["y", "x"] := by decide
  obtain ⟨answers, after, ran, front, -⟩ := set_enumerates .zeroed calls (by decide)
  rw [distinct] at front
  exact ⟨answers, after, ran, front⟩

end Calls

end CssLab.Mcc
