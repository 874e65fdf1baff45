import CssLab.Lib.Words

namespace CssLab.Paths

variable {Name : Type*}

inductive Step (Name : Type*)
  | up
  | down (name : Name)
  deriving DecidableEq

/-- A directory is the names from the root down; the root is above itself. -/
def Step.next (dir : List Name) : Step Name → List Name
  | .up => dir.dropLast
  | .down name => dir ++ [name]

def walk (dir : List Name) (steps : List (Step Name)) : List Name := steps.foldl Step.next dir

/-- Where some steps lead from any directory: up and then down. -/
@[ext] structure Way (Name : Type*) where
  ups : Nat
  names : List Name
  deriving DecidableEq

namespace Way

def apply (way : Way Name) (dir : List Name) : List Name :=
  dir.take (dir.length - way.ups) ++ way.names

def next (way : Way Name) : Step Name → Way Name
  | .up => if way.names = [] then ⟨way.ups + 1, []⟩ else ⟨way.ups, way.names.dropLast⟩
  | .down name => ⟨way.ups, way.names ++ [name]⟩

def along (steps : List (Step Name)) : Way Name := steps.foldl next ⟨0, []⟩

theorem apply_next (way : Way Name) (step : Step Name) (dir : List Name) :
    (way.next step).apply dir = step.next (way.apply dir) := by
  cases step with
  | down name => exact (List.append_assoc ..).symm
  | up =>
    by_cases top : way.names = []
    · have shorter : min (min (dir.length - way.ups) dir.length - 1) (dir.length - way.ups) =
          dir.length - (way.ups + 1) := by omega
      rw [next, if_pos top, apply, apply, Step.next, top, List.append_nil, List.append_nil,
        List.dropLast_eq_take, List.take_take, List.length_take, shorter]
    · rw [next, if_neg top, apply, apply, Step.next, List.dropLast_append_of_ne_nil top]

/-- A way ends in the tree of a place below the directory it starts in, if it comes down
through what it went up through and then to that place. -/
theorem below_iff (way : Way Name) (dir below : List Name) :
    dir ++ below <+: way.apply dir ↔ dir.drop (dir.length - way.ups) ++ below <+: way.names := by
  have parts : dir ++ below = dir.take (dir.length - way.ups) ++
      (dir.drop (dir.length - way.ups) ++ below) := by
    rw [← List.append_assoc, List.take_append_drop]
  rw [apply, parts, List.prefix_append_right_inj]

end Way

theorem walk_append (dir : List Name) (first second : List (Step Name)) :
    walk dir (first ++ second) = walk (walk dir first) second := List.foldl_append

theorem walk_eq (dir : List Name) (steps : List (Step Name)) :
    walk dir steps = (Way.along steps).apply dir := by
  have run : ∀ start : Way Name, walk (start.apply dir) steps =
      (steps.foldl Way.next start).apply dir := by
    induction steps with
    | nil => exact fun _ => rfl
    | cons step steps ih =>
      intro start
      rw [List.foldl_cons, ← ih, Way.apply_next]
      rfl
  have start := run ⟨0, []⟩
  rwa [Way.apply, Nat.sub_zero, List.take_length, List.append_nil] at start

/-- A slash separates the names of a path. -/
def slash (byte : UInt8) : Bool := byte = 47

/-- The steps that a path stands for; a single dot is none. -/
def steps (path : List UInt8) : List (Step (List UInt8)) :=
  (Words.words slash path).filterMap fun name =>
    if name = [46] then none else if name = [46, 46] then some .up else some (.down name)

/-- Where a path leads a process whose directory is `cwd`. -/
def resolve (cwd : List (List UInt8)) (path : List UInt8) : List (List UInt8) :=
  walk (if path.head? = some 47 then [] else cwd) (steps path)

theorem steps_slash (front back : List UInt8) :
    steps (front ++ 47 :: back) = steps front ++ steps back := by
  rw [steps, Words.words_append rfl, List.filterMap_append]
  rfl

/-- What follows a slash leads on from where the part before it does, which for nothing
before it is the root. -/
theorem resolve_slash (cwd : List (List UInt8)) (front back : List UInt8) :
    resolve cwd (front ++ 47 :: back) = walk (resolve cwd (front ++ [47])) (steps back) := by
  have first : (front ++ 47 :: back).head? = (front ++ [47]).head? := by
    cases front <;> rfl
  have none : steps [] = [] := rfl
  rw [resolve, resolve, first, steps_slash, steps_slash, none, List.append_nil, walk_append]

end CssLab.Paths
