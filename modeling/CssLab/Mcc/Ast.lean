import Mathlib.Data.Finset.Dedup

/-! The syntax trees of mcc (ast.h) and the programs they stand for. -/

namespace CssLab.Mcc

/-- The tags of the four expression nodes that have a left and a right operand.
Their structures in ast.h differ in nothing but the tag. -/
inductive BinType where
  | add
  | sub
  | times
  | div
  deriving Repr, DecidableEq

/-- `Exp_t`. A number is a C `int`. -/
inductive Exp where
  | num (num : BitVec 32)
  | var (name : String)
  | bin (type : BinType) (left right : Exp)
  deriving Repr, DecidableEq

/-- `Stm_t`. -/
inductive Stm where
  | assign (x : String) (exp : Exp)
  | print (exp : Exp)
  | seq (left right : Stm)
  deriving Repr, DecidableEq

/-- The variables an expression reads. -/
def Exp.reads : Exp → List String
  | .num _ => []
  | .var name => [name]
  | .bin _ left right => left.reads ++ right.reads

def Stm.reads : Stm → List String
  | .assign _ exp => exp.reads
  | .print exp => exp.reads
  | .seq left right => left.reads ++ right.reads

/-- The variables a program assigns, in textual order and with repetitions. -/
def Stm.assigned : Stm → List String
  | .assign x _ => [x]
  | .print _ => []
  | .seq left right => left.assigned ++ right.assigned

/-- The distinct names of a program. -/
def Stm.names (prog : Stm) : Finset String :=
  (prog.assigned ++ prog.reads).toFinset

theorem Stm.assigned_mem_names {prog : Stm} (member : x ∈ prog.assigned) : x ∈ prog.names := by
  simp [Stm.names, member]

/-- Every variable that is read is assigned somewhere in the program. -/
def Stm.Closed (prog : Stm) : Prop := ∀ x ∈ prog.reads, x ∈ prog.assigned

instance (prog : Stm) : Decidable prog.Closed :=
  inferInstanceAs (Decidable (∀ x ∈ prog.reads, x ∈ prog.assigned))

theorem Stm.Closed.assigned_of_mem_names {prog : Stm} (closed : prog.Closed)
    (member : x ∈ prog.names) : x ∈ prog.assigned := by
  rcases List.mem_append.mp (List.mem_toFinset.mp member) with assigned | read
  · exact assigned
  · exact closed x read

/-- Some `count` operators of an expression lie inside one another. -/
inductive Exp.Nests : Exp → Nat → Prop where
  | zero (exp : Exp) : Nests exp 0
  | left (inner : Nests left count) : Nests (.bin type left right) (count + 1)
  | right (inner : Nests right count) : Nests (.bin type left right) (count + 1)

/-- So do operators of some expression of a program. -/
inductive Stm.Nests : Stm → Nat → Prop where
  | assign (nests : exp.Nests count) : Nests (.assign x exp) count
  | print (nests : exp.Nests count) : Nests (.print exp) count
  | left (nests : Nests left count) : Nests (.seq left right) count
  | right (nests : Nests right count) : Nests (.seq left right) count

/-- The program has a `print`. -/
inductive Stm.Prints : Stm → Prop where
  | print (exp : Exp) : Prints (.print exp)
  | left (prints : Prints left) : Prints (.seq left right)
  | right (prints : Prints right) : Prints (.seq left right)

/-- The statement that runs last. -/
def Stm.last : Stm → Stm
  | .seq _ right => right.last
  | stm => stm

theorem Stm.last_cases (stm : Stm) :
    (∃ x exp, stm.last = .assign x exp) ∨ ∃ exp, stm.last = .print exp := by
  induction stm with
  | assign x exp => exact .inl ⟨x, exp, rfl⟩
  | print exp => exact .inr ⟨exp, rfl⟩
  | seq left right first second => exact second

/-- The arithmetic an interpreter works with. A division may have no result. -/
structure Arith (Value : Type) where
  num : BitVec 32 → Value
  add : Value → Value → Value
  sub : Value → Value → Value
  times : Value → Value → Value
  div : Value → Value → Option Value

/-- `left type right`, the operands in source order. -/
def Arith.apply (arith : Arith Value) : BinType → Value → Value → Option Value
  | .add, left, right => some (arith.add left right)
  | .sub, left, right => some (arith.sub left right)
  | .times, left, right => some (arith.times left right)
  | .div, left, right => arith.div left right

abbrev Vars (Value : Type) := String → Value

def Vars.set (vars : Vars Value) (x : String) (value : Value) : Vars Value :=
  fun name => if name = x then value else vars name

/-- The direct interpreter of an expression. -/
def Exp.eval (arith : Arith Value) (vars : Vars Value) : Exp → Option Value
  | .num n => some (arith.num n)
  | .var x => some (vars x)
  | .bin type left right => do
    let l ← left.eval arith vars
    let r ← right.eval arith vars
    arith.apply type l r

/-- The direct interpreter of a program: the variables afterwards and the
printed values in order. It has no result when a division has none. -/
def Stm.interp (arith : Arith Value) : Stm → Vars Value → Option (Vars Value × List Value)
  | .assign x exp, vars => do
    let value ← exp.eval arith vars
    return (vars.set x value, [])
  | .print exp, vars => do
    let value ← exp.eval arith vars
    return (vars, [value])
  | .seq left right, vars => do
    let (middle, first) ← left.interp arith vars
    let (final, second) ← right.interp arith middle
    return (final, first ++ second)

theorem Vars.set_same (vars : Vars Value) : vars.set x value x = value := if_pos rfl

theorem Vars.set_other (vars : Vars Value) (other : name ≠ x) :
    vars.set x value name = vars name := if_neg other

/-- Both operands first, then the operation. -/
theorem Exp.eval_bin (arith : Arith Value) (vars : Vars Value) (type : BinType)
    (left right : Exp) :
    (Exp.bin type left right).eval arith vars =
      ((left.eval arith vars).bind fun l => (right.eval arith vars).bind fun r =>
        some (l, r)).bind fun operands => arith.apply type operands.1 operands.2 := by
  cases one : left.eval arith vars with
  | none => simp [Exp.eval, one]
  | some l =>
    cases two : right.eval arith vars <;> simp [Exp.eval, one, two]

theorem Exp.eval_bin_eq_some {arith : Arith Value} :
    (Exp.bin type left right).eval arith vars = some value ↔
      ∃ l r, left.eval arith vars = some l ∧ right.eval arith vars = some r ∧
        arith.apply type l r = some value := by
  simp [Exp.eval, Option.bind_eq_some_iff]

theorem Stm.interp_assign_eq_some {arith : Arith Value} :
    (Stm.assign x exp).interp arith vars = some result ↔
      ∃ value, exp.eval arith vars = some value ∧ (vars.set x value, []) = result := by
  simp [Stm.interp, Option.bind_eq_some_iff]

theorem Stm.interp_print_eq_some {arith : Arith Value} :
    (Stm.print exp).interp arith vars = some result ↔
      ∃ value, exp.eval arith vars = some value ∧ (vars, [value]) = result := by
  simp [Stm.interp, Option.bind_eq_some_iff]

theorem Stm.interp_seq_eq_some {arith : Arith Value} :
    (Stm.seq left right).interp arith vars = some result ↔
      ∃ middle final first second, left.interp arith vars = some (middle, first) ∧
        right.interp arith middle = some (final, second) ∧ (final, first ++ second) = result := by
  constructor
  · intro done
    obtain ⟨⟨middle, first⟩, one, rest⟩ := Option.bind_eq_some_iff.mp done
    obtain ⟨⟨final, second⟩, two, same⟩ := Option.bind_eq_some_iff.mp rest
    exact ⟨middle, final, first, second, one, two, Option.some.inj same⟩
  · rintro ⟨middle, final, first, second, one, two, rfl⟩
    simp [Stm.interp, one, two]

end CssLab.Mcc
