import CssLab.Mcc.X64.Stack

namespace CssLab.Mcc.X64

open CssLab.Assembly CssLab.Memory

/-- The operand that the code of an expression leaves in `rbx`. -/
def spare : Exp → Vars (BitVec 64) → Option (BitVec 64)
  | .num _, _ => none
  | .var _, _ => none
  | .bin type left right, vars =>
    if type = .div then right.eval reversed64 vars else left.eval reversed64 vars

/-- The operand that the code of a statement leaves in `rbx`, where it runs. -/
def spareStm : Stm → Vars (BitVec 64) → Option (BitVec 64)
  | .assign _ exp, vars => spare exp vars
  | .print exp, vars => spare exp vars
  | .seq left right, vars =>
    (left.interp reversed64 vars).bind fun result =>
      (spareStm right result.1).or (spareStm left vars)

theorem spare_isSome (exp : Exp) (vars : Vars (BitVec 64))
    (value : exp.eval reversed64 vars = some v) : (spare exp vars).isSome ↔ exp.Nests 1 := by
  cases exp with
  | num n =>
    refine ⟨fun some => ?_, fun nests => ?_⟩
    · cases some
    · cases nests
  | var x =>
    refine ⟨fun some => ?_, fun nests => ?_⟩
    · cases some
    · cases nests
  | bin type left right =>
    obtain ⟨l, r, evalL, evalR, _⟩ := Exp.eval_bin_eq_some.mp value
    have isSome : (spare (.bin type left right) vars).isSome := by
      simp only [spare, evalL, evalR]
      split <;> rfl
    exact iff_of_true isSome (.left (.zero left))

theorem spareStm_isSome (stm : Stm) (vars : Vars (BitVec 64))
    (interp : stm.interp reversed64 vars = some result) :
    (spareStm stm vars).isSome ↔ stm.Nests 1 := by
  induction stm generalizing vars result with
  | assign x exp =>
    obtain ⟨value, evaluated, _⟩ := Stm.interp_assign_eq_some.mp interp
    refine (spare_isSome exp vars evaluated).trans ⟨.assign, fun nests => ?_⟩
    cases nests
    assumption
  | print exp =>
    obtain ⟨value, evaluated, _⟩ := Stm.interp_print_eq_some.mp interp
    refine (spare_isSome exp vars evaluated).trans ⟨.print, fun nests => ?_⟩
    cases nests
    assumption
  | seq left right first second =>
    obtain ⟨middle, final, one, two, interp1, interp2, _⟩ := Stm.interp_seq_eq_some.mp interp
    have inLeft := first vars interp1
    have inRight := second middle interp2
    simp only [spareStm, interp1, Option.bind_some, Option.isSome_or, Bool.or_eq_true]
    rw [inLeft, inRight]
    constructor
    · rintro (nests | nests)
      · exact .right nests
      · exact .left nests
    · intro nests
      cases nests with
      | left nests => exact .inr nests
      | right nests => exact .inl nests

theorem rbx_combine {env : Env} {type : BinType} {state after : State}
    (ran : exec (cpu env) (combine type) state = some after) :
    after.regs .rbx = if type = .div then state.regs .rax else state.regs .rbx := by
  cases type with
  | add =>
    cases ran
    rfl
  | sub =>
    cases ran
    rfl
  | times =>
    cases ran
    rfl
  | div =>
    let swapped := (state.set .rax (state.regs .rbx)).set .rbx (state.regs .rax)
    let ready := swapped.set .rdx (if (swapped.regs .rax).msb then -1 else 0)
    have code : exec (cpu env) (combine .div) state = idivq ready .rbx := by
      simp [exec, combine, cpu, step, ready, swapped]
    rw [code, idivq] at ran
    split at ran
    · cases ran
    · cases ran
      rfl

theorem rbx_expCode (env : Env) (exp : Exp) (state after : State) (vars : Vars (BitVec 64))
    (room : 8 * spills exp ≤ (state.regs .rsp).toNat)
    (holds : Holds env.symbol 8 vars exp.reads state.memory)
    (apart : Apart env.symbol 8 exp.reads ((state.regs .rsp).toNat - 8 * spills exp)
      (state.regs .rsp).toNat) (value : exp.eval reversed64 vars = some v)
    (ran : exec (cpu env) (expCode exp) state = some after) :
    after.regs .rbx = (spare exp vars).getD (state.regs .rbx) := by
  cases exp with
  | num n =>
    cases ran
    rfl
  | var x =>
    cases ran
    rfl
  | bin type left right =>
    obtain ⟨l, r, evalL, evalR, _⟩ := Exp.eval_bin_eq_some.mp value
    rw [expCode_bin, exec_append_eq_some] at ran
    obtain ⟨one, ran1, ran2⟩ := ran
    have operands := exec_operands type (exec_expCode env left) (exec_expCode env right) state
      vars room holds apart
    obtain ⟨⟨l', r'⟩, both, rbx, rax, _⟩ := Fallible.left_of_right operands ran1
    rw [evalL, evalR] at both
    obtain ⟨rfl, rfl⟩ := Prod.mk.inj (Option.some.inj both)
    rw [rbx_combine ran2, spare, evalL, evalR]
    split
    · exact rax
    · exact rbx

/-- What a statement leaves in the two registers. -/
structure Leaves (env : Env) (stm : Stm) (vars final : Vars (BitVec 64)) (before after : State) :
    Prop where
  rbx : after.regs .rbx = (spareStm stm vars).getD (before.regs .rbx)
  assigned : ∀ x exp, stm.last = .assign x exp → after.regs .rax = final x
  printed : ∀ exp, stm.last = .print exp →
    ∃ state, after.regs .rax = (env.printf state).regs .rax

section Statements

variable {env : Env} {prog : Stm} {base size : Nat}

theorem leaves_stm (area : Area env.symbol 8 (dataVars prog) base size)
    (abi : PrintfAbi env (text prog)) (stm : Stm) (state : State)
    (vars : Vars (BitVec 64)) (low : base + 8 * spillsStm stm ≤ (state.regs .rsp).toNat)
    (high : (state.regs .rsp).toNat ≤ base + size) (reads : ∀ y ∈ stm.reads, y ∈ dataVars prog)
    (assigned : ∀ y ∈ stm.assigned, y ∈ dataVars prog)
    (holds : Holds env.symbol 8 vars (dataVars prog) state.memory)
    (interp : stm.interp reversed64 vars = some (final, values))
    (ran : exec (cpu env) (stmCode stm) state = some after) :
    Leaves env stm vars final state after := by
  induction stm generalizing state vars final values after with
  | assign x exp =>
    simp only [spillsStm] at low
    obtain ⟨value, evaluated, done⟩ := Stm.interp_assign_eq_some.mp interp
    obtain ⟨rfl, _⟩ := Prod.mk.inj done
    have room : 8 * spills exp ≤ (state.regs .rsp).toNat := by omega
    have apart : Apart env.symbol 8 exp.reads ((state.regs .rsp).toNat - 8 * spills exp)
        (state.regs .rsp).toNat := area.offStack.sub reads (by omega) high
    obtain ⟨one, ran1, last⟩ := exec_append_eq_some.mp ran
    obtain ⟨_, same, rax, _⟩ := Fallible.left_of_right
      (exec_expCode env exp state vars room (holds.sub reads) apart) ran1
    obtain rfl := Option.some.inj (evaluated.symm.trans same)
    have rbx := rbx_expCode env exp state one vars room (holds.sub reads) apart evaluated ran1
    cases last
    refine ⟨rbx, fun y other isLast => ?_, fun other isLast => ?_⟩
    · cases isLast
      exact rax.trans (Vars.set_same vars).symm
    · cases isLast
  | print exp =>
    simp only [spillsStm] at low
    obtain ⟨value, evaluated, done⟩ := Stm.interp_print_eq_some.mp interp
    have room : 8 * spills exp ≤ (state.regs .rsp).toNat := by omega
    have apart : Apart env.symbol 8 exp.reads ((state.regs .rsp).toNat - 8 * spills exp)
        (state.regs .rsp).toNat := area.offStack.sub reads (by omega) high
    obtain ⟨one, ran1, last⟩ := exec_append_eq_some.mp ran
    have rbx := rbx_expCode env exp state one vars room (holds.sub reads) apart evaluated ran1
    cases last
    refine ⟨(abi.rbx _).trans rbx, fun y other isLast => ?_, fun other isLast => ⟨_, rfl⟩⟩
    cases isLast
  | seq left right first second =>
    simp only [Stm.reads, Stm.assigned, List.mem_append, spillsStm] at reads assigned low
    obtain ⟨middle, final', one, two, interp1, interp2, done⟩ := Stm.interp_seq_eq_some.mp interp
    obtain ⟨rfl, _⟩ := Prod.mk.inj done
    obtain ⟨between, ran1, ran2⟩ := exec_append_eq_some.mp ran
    have readsLeft : ∀ y ∈ left.reads, y ∈ dataVars prog := fun y member => reads y (.inl member)
    have assignedLeft : ∀ y ∈ left.assigned, y ∈ dataVars prog :=
      fun y member => assigned y (.inl member)
    have leaves1 := first state vars (by omega) high readsLeft assignedLeft holds interp1 ran1
    obtain ⟨reached, ran1', holds1, rsp1, _⟩ := Fallible.right_of_left (follows_stm area abi left
      state vars (by omega) high readsLeft assignedLeft holds) interp1
    obtain rfl := Option.some.inj (ran1.symm.trans ran1')
    have leaves2 := second between middle (by rw [rsp1]; omega) (by rw [rsp1]; exact high)
      (fun y member => reads y (.inr member)) (fun y member => assigned y (.inr member)) holds1
      interp2 ran2
    refine ⟨?_, leaves2.assigned, leaves2.printed⟩
    rw [leaves2.rbx, leaves1.rbx, spareStm, interp1, Option.bind_some]
    cases spareStm right middle <;> rfl

end Statements

/-- One run of `main`: called as the convention says, with a `printf` that returns how
many bytes it wrote or that it failed, and so never 0, it comes to its `ret`. -/
structure Runs (env : Env) (prog : Stm) (start after : State) : Prop where
  abi : PrintfAbi env (text prog)
  wrote : ∀ state, shown ((env.printf state).regs .rax) ≠ 0
  loaded : Loaded env.symbol (text prog) (frameSize prog + 8)
    ((start.regs .rsp).toNat + 8) start.memory
  aligned : (start.regs .rsp).toNat % 16 = 8
  ran : runMain env (text prog) start = some after

/-- What the caller of `main` may rely on. -/
structure Honours (start after : State) : Prop where
  rbx : after.regs .rbx = start.regs .rbx
  rbp : after.regs .rbp = start.regs .rbp
  rsp : after.regs .rsp = start.regs .rsp
  status : shown (after.regs .rax) = 0

section Main

variable {env : Env} {prog : Stm} {start after : State}

/-- What `main` returns with, for a program whose interpreter ends with `final`. -/
theorem runMain_leaves (closed : prog.Closed) (abi : PrintfAbi env (text prog))
    (loaded : Loaded env.symbol (text prog) (frameSize prog + 8)
      ((start.regs .rsp).toNat + 8) start.memory)
    (interp : prog.interp reversed64 (fun _ => 0) = some (final, values)) :
    ∃ after, runMain env (text prog) start = some after ∧
      after.regs .rsp = start.regs .rsp ∧ after.regs .rbp = start.regs .rbp ∧
      Leaves env prog (fun _ => 0) final start after := by
  have frame : frameSize prog = 8 + 8 * spillsStm prog := rfl
  have whole := loaded.drop
  have room := whole.room
  have area := whole.area (start.regs .rsp).isLt (objects_text prog)
  obtain ⟨one, begin, rsp1, below, _, saved, same⟩ := exec_prologue env start (by omega)
  have body1 : Body start one := ⟨rsp1, saved, same.load (by omega)⟩
  have reads : ∀ x ∈ prog.reads, x ∈ dataVars prog :=
    fun x member => (mem_dataVars prog x).mpr (closed x member)
  have assigned : ∀ x ∈ prog.assigned, x ∈ dataVars prog :=
    fun x member => (mem_dataVars prog x).mpr member
  have holds := zeroed_body whole area same
  obtain ⟨two, ran, _⟩ := Fallible.right_of_left
    (follows_stm area abi prog one _ (by omega) (by omega) reads assigned holds) interp
  have leaves := leaves_stm area abi prog one _ (by omega) (by omega) reads assigned holds interp
    ran
  have body2 : Body start two :=
    body_stmCode loaded.toPlaced abi prog (by omega) (fun _ => id) body1 ran
  obtain ⟨three, popped, rsp3, rbp3, _⟩ := @Body.restore env start two body2 (by omega)
  have rbx1 : one.regs .rbx = start.regs .rbx := by
    cases begin
    rfl
  refine ⟨three, ?_, rsp3, rbp3, ?_⟩
  · rw [runMain_text, mainCode, List.append_assoc, exec_append_some begin,
      exec_append_some ran, exec_cons_some popped]
    rfl
  · cases popped
    exact ⟨leaves.rbx.trans (by rw [rbx1]), leaves.assigned, leaves.printed⟩

/-- A run of `main` is one that the interpreter has, and ends accordingly. -/
theorem Runs.leaves (runs : Runs env prog start after) (closed : prog.Closed) :
    ∃ final values, prog.interp reversed64 (fun _ => 0) = some (final, values) ∧
      after.regs .rsp = start.regs .rsp ∧ after.regs .rbp = start.regs .rbp ∧
      Leaves env prog (fun _ => 0) final start after := by
  obtain ⟨⟨final, values⟩, interp, _⟩ :=
    Fallible.left_of_right (runMain_reversed closed runs.abi runs.loaded.drop) runs.ran
  obtain ⟨_, ran, rest⟩ := runMain_leaves closed runs.abi runs.loaded interp
  obtain rfl := Option.some.inj (ran.symm.trans runs.ran)
  exact ⟨final, values, interp, rest⟩

/-- With an operator in the program, what `rbx` was at entry does not matter. -/
theorem Runs.other (runs : Runs env prog start after) (closed : prog.Closed)
    (value : BitVec 64) : ∃ after', Runs env prog (start.set .rbx value) after' := by
  obtain ⟨final, values, interp, _⟩ := runs.leaves closed
  have loaded : Loaded env.symbol (text prog) (frameSize prog + 8)
      (((start.set .rbx value).regs .rsp).toNat + 8) (start.set .rbx value).memory := runs.loaded
  obtain ⟨after', ran, _⟩ := runMain_leaves closed runs.abi loaded interp
  exact ⟨after', runs.abi, runs.wrote, loaded, runs.aligned, ran⟩

theorem subFree_of_plain (exp : Exp) (plain : ¬ exp.Nests 1) : SubFree exp := by
  cases exp with
  | num n => trivial
  | var x => trivial
  | bin type left right => exact absurd (.left (.zero left)) plain

theorem subFreeStm_of_plain (stm : Stm) (plain : ¬ stm.Nests 1) : SubFreeStm stm := by
  induction stm with
  | assign x exp => exact subFree_of_plain exp fun nests => plain (.assign nests)
  | print exp => exact subFree_of_plain exp fun nests => plain (.print nests)
  | seq left right first second =>
    exact ⟨first fun nests => plain (.left nests), second fun nests => plain (.right nests)⟩

end Main

/-- `main` keeps the contract in all its runs exactly when its program has no operator
and its last statement assigns the value 0. -/
theorem honours_runs_iff (prog : Stm) (closed : prog.Closed)
    (runs : ∃ env start after, Runs env prog start after) :
    (∀ env start after, Runs env prog start after → Honours start after) ↔
      ¬ prog.Nests 1 ∧ ∃ x exp final values, prog.last = .assign x exp ∧
        prog.interp arith64 (fun _ => 0) = some (final, values) ∧ shown (final x) = 0 := by
  constructor
  · intro all
    obtain ⟨env, start, after, run⟩ := runs
    obtain ⟨final, values, interp, _, _, leaves⟩ := run.leaves closed
    have honours := all env start after run
    have plain : ¬ prog.Nests 1 := by
      intro nests
      obtain ⟨value, left⟩ :=
        Option.isSome_iff_exists.mp ((spareStm_isSome prog _ interp).mpr nests)
      obtain ⟨after', run'⟩ := run.other closed (value + 1)
      obtain ⟨_, _, _, _, _, leaves'⟩ := run'.leaves closed
      have kept := (all env _ after' run').rbx
      rw [leaves'.rbx, left] at kept
      have same : value = value + 1 := kept
      bv_omega
    refine ⟨plain, ?_⟩
    rw [interp_reversed_of_subFree prog (subFreeStm_of_plain prog plain)] at interp
    rcases prog.last_cases with ⟨x, exp, last⟩ | ⟨exp, last⟩
    · exact ⟨x, exp, final, values, last, interp, by
        rw [← leaves.assigned x exp last]
        exact honours.status⟩
    · obtain ⟨state, rax⟩ := leaves.printed exp last
      have status := honours.status
      rw [rax] at status
      exact absurd status (run.wrote state)
  · rintro ⟨plain, x, exp, final, values, last, interp, zero⟩ env start after run
    obtain ⟨final', values', interp', rsp, rbp, leaves⟩ := run.leaves closed
    have none : spareStm prog (fun _ => 0) = none := by
      rw [← Option.not_isSome_iff_eq_none, spareStm_isSome prog _ interp']
      exact plain
    rw [interp_reversed_of_subFree prog (subFreeStm_of_plain prog plain), interp] at interp'
    obtain ⟨rfl, rfl⟩ := Prod.mk.inj (Option.some.inj interp')
    refine ⟨?_, rbp, rsp, ?_⟩
    · rw [leaves.rbx, none]
      rfl
    · rw [leaves.assigned x exp last]
      exact zero

/-- A program that reads only what it assigns is written, links and keeps the contract in
all the runs of its `main` exactly when its names are few, short and not reserved, it has
no operator and its last statement assigns the value 0. -/
theorem honours_iff (prog : Stm) (closed : prog.Closed)
    (runs : ∃ env start after, Runs env prog start after) :
    (∃ lines, assembly prog = some lines ∧ Links Instr.refers ["printf"] lines ∧
        ∀ env start after, Runs env prog start after → Honours start after) ↔
      (prog.assigned.toFinset.card ≤ maxVar ∧ Short prog) ∧ (∀ x ∈ prog.names, x ∉ reserved) ∧
        ¬ prog.Nests 1 ∧ ∃ x exp final values, prog.last = .assign x exp ∧
          prog.interp arith64 (fun _ => 0) = some (final, values) ∧ shown (final x) = 0 := by
  rw [← honours_runs_iff prog closed runs]
  constructor
  · rintro ⟨lines, written, links, honours⟩
    obtain ⟨fits, rfl⟩ := (assembly_eq_some prog lines).mp written
    refine ⟨fits, fun x member => ?_, honours⟩
    have assigned := (links_iff prog).mp links
    exact assigned.assigned x (closed.assigned_of_mem_names member)
  · rintro ⟨fits, free, honours⟩
    exact ⟨text prog, (assembly_eq_some prog _).mpr ⟨fits, rfl⟩, links_text closed free, honours⟩

/-- `main` runs for `x = exp` if `exp` has a value and reads nothing. -/
theorem exists_run (exp : Exp) (ground : exp.reads = []) (small : spills exp ≤ 1)
    (value : exp.eval reversed64 (fun _ => 0) = some v) :
    ∃ env start after, Runs env (.assign "x" exp) start after := by
  let prog : Stm := .assign "x" exp
  let env : Env := ⟨fun _ => 0x1000, fun state => state.set .rax 2⟩
  let start : State := ⟨fun _ => 0x8008, fun _ => 0, []⟩
  have abi : PrintfAbi env (text prog) :=
    ⟨fun _ => rfl, fun _ => rfl, fun _ => rfl, fun _ _ _ => rfl, fun _ _ _ => rfl, fun _ => rfl⟩
  have wrote : ∀ state, shown ((env.printf state).regs .rax) ≠ 0 :=
    fun _ => (by decide : shown 2 ≠ 0)
  have frame : frameSize prog = 8 + 8 * spills exp := rfl
  have loaded : Loaded env.symbol (text prog) (frameSize prog + 8)
      ((start.regs .rsp).toNat + 8) start.memory := by
    have laidOut : objects (text prog) = [("x", 8)] := objects_text prog
    have top : (start.regs .rsp).toNat = 0x8008 := rfl
    refine ⟨⟨by omega, ?_, ?_⟩, ?_, fun _ _ => rfl⟩
    · rw [laidOut]
      decide
    · intro object member
      rw [laidOut, List.mem_singleton] at member
      have place : (env.symbol object.1).toNat = 0x1000 := rfl
      have size : object.2 = 8 := by rw [member]
      omega
    · rw [laidOut]
      decide
  have closed : prog.Closed := fun x read => by
    rw [Stm.reads, ground] at read
    cases read
  obtain ⟨after, ran, _⟩ := runMain_leaves closed abi loaded
    (Stm.interp_assign_eq_some.mpr ⟨v, value, rfl⟩)
  exact ⟨env, start, after, abi, wrote, loaded, by decide, ran⟩

/-- `x = 0` runs and keeps it. -/
theorem honours_iff_zero :
    (∃ env start after, Runs env (.assign "x" (.num 0)) start after) ∧
      ∃ lines, assembly (.assign "x" (.num 0)) = some lines ∧
        Links Instr.refers ["printf"] lines ∧
        ∀ env start after, Runs env (.assign "x" (.num 0)) start after → Honours start after := by
  have runs := exists_run (.num 0) rfl (by decide) rfl
  refine ⟨runs, (honours_iff _ (by decide) runs).mpr ⟨by decide, by decide, ?_, ?_⟩⟩
  · rintro (nests | _)
    cases nests
  · exact ⟨"x", .num 0, _, [], rfl, rfl, by decide⟩

/-- `x = 1 + 2` returns the exit status 3. -/
theorem sum_breaks_contract :
    ¬ ∀ (prog : Stm) (env : Env) (start after : State), prog.Closed →
      assembly prog = some (text prog) → Links Instr.refers ["printf"] (text prog) →
      Runs env prog start after → Honours start after := by
  intro always
  let sum : Exp := .bin .add (.num 1) (.num 2)
  let prog : Stm := .assign "x" sum
  have written : assembly prog = some (text prog) :=
    (assembly_eq_some prog _).mpr ⟨by decide, rfl⟩
  have links : Links Instr.refers ["printf"] (text prog) := links_text (by decide) (by decide)
  obtain ⟨env, start, after, run⟩ := exists_run sum rfl (by decide) rfl
  obtain ⟨final, values, interp, _, _, leaves⟩ := run.leaves (by decide)
  obtain ⟨rfl, _⟩ := Prod.mk.inj (Option.some.inj interp)
  have status := (always prog env start after (by decide) written links run).status
  rw [leaves.assigned "x" sum rfl] at status
  exact absurd status (by decide)

end CssLab.Mcc.X64
