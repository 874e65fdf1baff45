import CssLab.Mcc.Riscv.Correct
import CssLab.Mcc.X64.Correct
import Mathlib.Algebra.Group.Int.Defs

/-! Where the two back ends print the same. Sums and products of 64-bit words have
the low words that the 32-bit instructions compute; a quotient has it when both of
its operands are values of an `int`. -/

namespace CssLab.Mcc

open CssLab.Assembly CssLab.Memory

/-- The range of an `int`. -/
def IsInt (value : Int) : Prop := -2 ^ 31 ≤ value ∧ value < 2 ^ 31

instance (value : Int) : Decidable (IsInt value) :=
  inferInstanceAs (Decidable (-2 ^ 31 ≤ value ∧ value < 2 ^ 31))

/-- The operands of the divisions that the X64 code comes to are allowed. -/
def X64.Divides (allowed : Int → Int → Prop) : X64.Instr → X64.State → Prop
  | .idivq src, state =>
    allowed (state.regs .rdx ++ state.regs .rax).toInt (state.regs src).toInt
  | _, _ => True

/-- The operands of the divisions that the RISC-V code comes to are allowed. -/
def Riscv.Divides (allowed : Int → Int → Prop) : Riscv.Instr → Riscv.State → Prop
  | .divw _ rs1 rs2, state => allowed (state.low rs1).toInt (state.low rs2).toInt
  | _, _ => True

instance {allowed : Int → Int → Prop} [∀ one two, Decidable (allowed one two)]
    (instr : X64.Instr) (state : X64.State) : Decidable (X64.Divides allowed instr state) := by
  cases instr <;> unfold X64.Divides <;> infer_instance

instance {allowed : Int → Int → Prop} [∀ one two, Decidable (allowed one two)]
    (instr : Riscv.Instr) (state : Riscv.State) :
    Decidable (Riscv.Divides allowed instr state) := by
  cases instr <;> unfold Riscv.Divides <;> infer_instance

/-- Both operands are values of an `int`, and the second is not zero. -/
def Narrow (dividend divisor : Int) : Prop := IsInt dividend ∧ IsInt divisor ∧ divisor ≠ 0

instance (dividend divisor : Int) : Decidable (Narrow dividend divisor) :=
  inferInstanceAs (Decidable (IsInt dividend ∧ IsInt divisor ∧ divisor ≠ 0))

/-- The low word of a value is the value as an `int`. -/
theorem shown_eq_ofInt (value : BitVec 64) : X64.shown value = BitVec.ofInt 32 value.toInt := by
  rw [← BitVec.toInt_inj, X64.shown, BitVec.toInt_setWidth, BitVec.toInt_ofInt,
    BitVec.toInt_eq_toNat_bmod, Int.bmod_bmod_of_dvd (by decide)]

theorem toInt_shown {value : BitVec 64} (narrow : IsInt value.toInt) :
    (X64.shown value).toInt = value.toInt := by
  obtain ⟨lower, upper⟩ := narrow
  rw [shown_eq_ofInt, BitVec.toInt_ofInt]
  exact Int.bmod_eq_of_le (by omega) (by omega)

theorem Narrow.nonzero {left right : BitVec 64} (narrow : Narrow left.toInt right.toInt) :
    right ≠ 0 := by
  rintro rfl
  exact narrow.2.2 rfl

theorem Narrow.toInt_sdiv {left right : BitVec 64} (narrow : Narrow left.toInt right.toInt) :
    (left.sdiv right).toInt = left.toInt.tdiv right.toInt := by
  refine BitVec.toInt_sdiv_of_ne_or_ne left right (.inl ?_)
  rintro rfl
  exact absurd narrow.1.1 (by decide)

theorem Narrow.arith64_div {left right : BitVec 64} (narrow : Narrow left.toInt right.toInt) :
    X64.arith64.div left right = some (left.sdiv right) := by
  refine if_neg ?_
  rintro (zero | ⟨rfl, _⟩)
  · exact narrow.nonzero zero
  · exact absurd narrow.1.1 (by decide)

/-- The low word of a quotient of two values of an `int` is what `divw` computes. -/
theorem Narrow.shown_sdiv {left right : BitVec 64} (narrow : Narrow left.toInt right.toInt) :
    X64.shown (left.sdiv right) = Riscv.divw (X64.shown left) (X64.shown right) := by
  have dividend := toInt_shown narrow.1
  have divisor := toInt_shown narrow.2.1
  have nonzero : X64.shown right ≠ 0 := by
    intro zero
    rw [zero] at divisor
    exact narrow.2.2 divisor.symm
  rw [Riscv.divw, if_neg nonzero, shown_eq_ofInt, narrow.toInt_sdiv]
  by_cases extreme : X64.shown left = BitVec.intMin 32 ∧ X64.shown right = -1
  · -- 64 bits have room for the quotient, and its low word is the dividend again
    rw [extreme.1] at dividend
    rw [extreme.2] at divisor
    rw [if_pos extreme, ← dividend, ← divisor]
    decide
  · rw [if_neg extreme, dividend, divisor]

theorem apply_agrees {type : BinType} {left right : BitVec 64} (other : type ≠ .sub)
    (narrow : type = .div → Narrow left.toInt right.toInt) :
    ∃ value, X64.reversed64.apply type left right = some value ∧
      Riscv.arith32.apply type (X64.shown left) (X64.shown right) = some (X64.shown value) := by
  cases type with
  | add =>
    refine ⟨left + right, rfl, congrArg some ?_⟩
    exact (BitVec.setWidth_add left right (by decide)).symm
  | sub => exact absurd rfl other
  | times =>
    refine ⟨left * right, rfl, congrArg some ?_⟩
    exact (BitVec.setWidth_mul left right (by decide)).symm
  | div =>
    have operands := narrow rfl
    exact ⟨left.sdiv right, operands.arith64_div, congrArg some operands.shown_sdiv.symm⟩

/-- What `idivq` divides is what `combine` found in `rbx` and `rax`. -/
theorem narrow_of_checked {env : X64.Env} {state : X64.State} {left right : BitVec 64}
    (checked : Checked (X64.cpu env) (X64.Divides Narrow) (X64.combine .div) state)
    (rbx : state.regs .rbx = left) (rax : state.regs .rax = right) :
    Narrow left.toInt right.toInt := by
  have here := ((checked.tail rfl).tail rfl).1
  simp only [X64.Divides, X64.State.set_regs, reduceCtorEq, if_true, if_false, rbx, rax] at here
  rwa [X64.dividend_cqto] at here

/-- The low words of 64-bit variables. -/
def shownVars (vars : Vars (BitVec 64)) : Vars (BitVec 32) := fun x => X64.shown (vars x)

theorem shownVars_set (vars : Vars (BitVec 64)) (x : String) (value : BitVec 64) :
    shownVars (vars.set x value) = (shownVars vars).set x (X64.shown value) := by
  funext name
  exact apply_ite X64.shown (name = x) value (vars name)

section X64

variable {env : X64.Env} {prog : Stm}

/-- An expression whose divisions are narrow has a value in both widths. -/
theorem eval_agrees (exp : Exp) (free : X64.SubFree exp) (state : X64.State)
    (vars : Vars (BitVec 64)) (room : 8 * X64.spills exp ≤ (state.regs .rsp).toNat)
    (holds : Holds env.symbol 8 vars exp.reads state.memory)
    (apart : Apart env.symbol 8 exp.reads ((state.regs .rsp).toNat - 8 * X64.spills exp)
      (state.regs .rsp).toNat)
    (checked : Checked (X64.cpu env) (X64.Divides Narrow) (X64.expCode exp) state) :
    ∃ value, exp.eval X64.reversed64 vars = some value ∧
      exp.eval Riscv.arith32 (shownVars vars) = some (X64.shown value) := by
  induction exp generalizing state with
  | num n =>
    refine ⟨n.signExtend 64, rfl, congrArg some ?_⟩
    exact (Riscv.low_signExtend n).symm
  | var x => exact ⟨vars x, rfl, rfl⟩
  | bin type left right first second =>
    obtain ⟨other, freeLeft, freeRight⟩ := free
    have deep : X64.spills (.bin type left right) =
      max (X64.spills left) (X64.spills right + 1) := rfl
    have inLeft : ∀ x ∈ left.reads, x ∈ (Exp.bin type left right).reads :=
      fun x member => List.mem_append_left _ member
    obtain ⟨l, evalL, evalL'⟩ := first freeLeft state (by omega) (holds.sub inLeft)
      (apart.sub inLeft (by omega) (Nat.le_refl _)) (checked_append.mp checked).1
    obtain ⟨one, ran1, isL, spares1⟩ := Fallible.right_of_left (X64.exec_expCode env left state
      vars (by omega) (holds.sub inLeft) (apart.sub inLeft (by omega) (Nat.le_refl _))) evalL
    obtain ⟨two, push, room2, popped, reads⟩ := X64.spill_left room spares1
    obtain ⟨holds2, apart2⟩ := reads vars holds apart
    have later := (checked.rest ran1).tail push
    obtain ⟨r, evalR, evalR'⟩ := second freeRight two room2 holds2 apart2
      (checked_append.mp later).1
    obtain ⟨three, ran3, isR, spares3⟩ := Fallible.right_of_left
      (X64.exec_expCode env right two vars room2 holds2 apart2) evalR
    obtain ⟨four, pop, rbx, rax, -⟩ := popped three spares3
    have last := (later.rest ran3).tail pop
    have narrow : type = .div → Narrow l.toInt r.toInt := by
      rintro rfl
      exact narrow_of_checked last (rbx.trans isL) (rax.trans isR)
    obtain ⟨value, applied, applied'⟩ := apply_agrees other narrow
    exact ⟨value, Exp.eval_bin_eq_some.mpr ⟨l, r, evalL, evalR, applied⟩,
      Exp.eval_bin_eq_some.mpr ⟨_, _, evalL', evalR', applied'⟩⟩

/-- A program whose divisions are narrow has a run in both widths. -/
theorem interp_agrees (area : Area env.symbol 8 (dataVars prog) base size)
    (abi : X64.PrintfAbi env (X64.text prog)) (stm : Stm) (free : X64.SubFreeStm stm)
    (state : X64.State) (vars : Vars (BitVec 64))
    (low : base + 8 * X64.spillsStm stm ≤ (state.regs .rsp).toNat)
    (high : (state.regs .rsp).toNat ≤ base + size) (reads : ∀ y ∈ stm.reads, y ∈ dataVars prog)
    (assigned : ∀ y ∈ stm.assigned, y ∈ dataVars prog)
    (holds : Holds env.symbol 8 vars (dataVars prog) state.memory)
    (checked : Checked (X64.cpu env) (X64.Divides Narrow) (X64.stmCode stm) state) :
    ∃ final values, stm.interp X64.reversed64 vars = some (final, values) ∧
      stm.interp Riscv.arith32 (shownVars vars) =
        some (shownVars final, values.map X64.shown) := by
  induction stm generalizing state vars with
  | assign x exp =>
    obtain ⟨value, wide, narrow⟩ := eval_agrees exp free state vars
      (by simp only [X64.spillsStm] at low; omega) (holds.sub reads)
      (area.offStack.sub reads (by simp only [X64.spillsStm] at low; omega) high)
      (checked_append.mp checked).1
    refine ⟨vars.set x value, [], Stm.interp_assign_eq_some.mpr ⟨value, wide, rfl⟩, ?_⟩
    rw [shownVars_set]
    exact Stm.interp_assign_eq_some.mpr ⟨_, narrow, rfl⟩
  | print exp =>
    obtain ⟨value, wide, narrow⟩ := eval_agrees exp free state vars
      (by simp only [X64.spillsStm] at low; omega) (holds.sub reads)
      (area.offStack.sub reads (by simp only [X64.spillsStm] at low; omega) high)
      (checked_append.mp checked).1
    exact ⟨vars, [value], Stm.interp_print_eq_some.mpr ⟨value, wide, rfl⟩,
      Stm.interp_print_eq_some.mpr ⟨_, narrow, rfl⟩⟩
  | seq left right first second =>
    simp only [Stm.reads, Stm.assigned, List.mem_append, X64.spillsStm] at reads assigned low
    have readsLeft : ∀ y ∈ left.reads, y ∈ dataVars prog := fun y member => reads y (.inl member)
    have assignedLeft : ∀ y ∈ left.assigned, y ∈ dataVars prog :=
      fun y member => assigned y (.inl member)
    obtain ⟨middle, one, wide1, narrow1⟩ := first free.1 state vars (by omega) high readsLeft
      assignedLeft holds (checked_append.mp checked).1
    obtain ⟨after, ran, holds1, rsp1, _⟩ := Fallible.right_of_left (X64.follows_stm area abi left
      state vars (by omega) high readsLeft assignedLeft holds) wide1
    obtain ⟨final, two, wide2, narrow2⟩ := second free.2 after middle (by rw [rsp1]; omega)
      (by rw [rsp1]; exact high) (fun y member => reads y (.inr member))
      (fun y member => assigned y (.inr member)) holds1 (checked.rest ran)
    refine ⟨final, one ++ two,
      Stm.interp_seq_eq_some.mpr ⟨middle, final, one, two, wide1, wide2, rfl⟩, ?_⟩
    rw [List.map_append]
    exact Stm.interp_seq_eq_some.mpr ⟨_, _, _, _, narrow1, narrow2, rfl⟩

end X64

/-- Both back ends write a text for a program of few, short names, and both mains, loaded
without a difference in the program, print the same values if the X64 one divides nothing
but values of an `int`, and none by zero. -/
theorem backends_agree (prog : Stm) (subFree : X64.SubFreeStm prog) (closed : prog.Closed)
    (few : prog.assigned.toFinset.card ≤ maxVar)
    (short : ∀ x ∈ prog.names, x.utf8ByteSize ≤ 1004) :
    ∃ lines lines', X64.assembly prog = some lines ∧ Riscv.assembly prog = some lines' ∧
      ∀ env state env' state', X64.PrintfAbi env lines →
        Loaded env.symbol lines (X64.frameSize prog) (state.regs .rsp).toNat state.memory →
        Riscv.PrintfAbi env' lines' →
        Loaded env'.symbol lines' (Riscv.stacksize prog) (state'.regs .sp).toNat
          state'.memory →
        Checked (X64.cpu env) (X64.Divides Narrow) (entry "main" lines) state →
        ∃ values after after', X64.runMain env lines state = some after ∧
          Riscv.runMain env' lines' state' = some after' ∧
          after.calls = state.calls ++ printed env.symbol values ∧
          after'.calls = state'.calls ++ printed env'.symbol values := by
  have wide : X64.Short prog := (X64.short_iff prog).mpr short
  have small : Riscv.Short prog := ⟨fun x member => (wide.1 x member).trans (by decide),
    fun x member => (wide.2 x member).trans (by decide)⟩
  refine ⟨X64.text prog, Riscv.text prog, (X64.assembly_eq_some prog _).mpr ⟨⟨few, wide⟩, rfl⟩,
    (Riscv.assembly_eq_some prog _).mpr ⟨⟨few, small⟩, rfl⟩, ?_⟩
  intro env state env' state' abi loaded abi' loaded' narrow
  have area := loaded.area (state.regs .rsp).isLt (X64.objects_text prog)
  have frame : X64.frameSize prog = 8 + 8 * X64.spillsStm prog := rfl
  have room := loaded.room
  obtain ⟨one, start, _, rsp1, _, _, same⟩ := X64.exec_prologue env state (by omega)
  rw [X64.entry_text, X64.mainCode, List.append_assoc, List.append_assoc] at narrow
  have inside := (checked_append.mp (narrow.rest start)).1
  obtain ⟨final, values, wide, small⟩ := interp_agrees area abi prog subFree one (fun _ => 0)
    (by omega) (by omega) (fun x member => (mem_dataVars prog x).mpr (closed x member))
    (fun x member => (mem_dataVars prog x).mpr member) (X64.zeroed_body loaded area same) inside
  obtain ⟨after, ran, calls⟩ :=
    Fallible.right_of_left (X64.runMain_reversed closed abi loaded) wide
  obtain ⟨vars, values', after', interp, ran', calls', _⟩ :=
    Riscv.runMain_interp closed abi' loaded'
  have zero : shownVars (fun _ => 0) = fun _ => 0 := rfl
  rw [zero, interp] at small
  obtain ⟨rfl, rfl⟩ := Prod.mk.inj (Option.some.inj small)
  exact ⟨values.map X64.shown, after, after', ran, ran', calls, calls'⟩

private theorem loaded_of_empty {text : List (Line Instr)} {symbol : Symbols}
    (empty : objects text = []) (room : size ≤ sp) :
    Loaded symbol text size sp fun _ => 0 := by
  refine ⟨⟨room, ?_, ?_⟩, ?_, fun _ _ => rfl⟩ <;> simp [empty]

/-- Both print `-7 / 2` as `-3`. -/
theorem backends_agree_quotient :
    let prog : Stm := .print (.bin .div (.num (-7)) (.num 2))
    let env : X64.Env := ⟨fun _ => 0x2000, id⟩
    let state : X64.State := ⟨fun _ => 0x8000, fun _ => 0, []⟩
    let env' : Riscv.Env := ⟨fun _ => 0x2000, id⟩
    let state' : Riscv.State := ⟨fun _ => 0x8000, fun _ => 0, []⟩
    ∃ lines lines' values after after', X64.assembly prog = some lines ∧
      Riscv.assembly prog = some lines' ∧ X64.runMain env lines state = some after ∧
      Riscv.runMain env' lines' state' = some after' ∧
      after.calls = printed env.symbol values ∧ after'.calls = printed env'.symbol values := by
  intro prog env state env' state'
  obtain ⟨lines, lines', written, written', runs⟩ :=
    backends_agree prog ⟨by decide, trivial, trivial⟩ (by decide) (by decide) (by decide)
  obtain ⟨-, rfl⟩ := (X64.assembly_eq_some prog lines).mp written
  obtain ⟨-, rfl⟩ := (Riscv.assembly_eq_some prog lines').mp written'
  have abi : X64.PrintfAbi env (X64.text prog) :=
    ⟨fun _ => rfl, fun _ => rfl, fun _ => rfl, fun _ _ _ => rfl, fun _ _ _ => rfl, fun _ => rfl⟩
  have abi' : Riscv.PrintfAbi env' (Riscv.text prog) :=
    ⟨fun _ => rfl, fun _ => rfl, fun _ _ _ => rfl, fun _ _ _ => rfl, fun _ => rfl⟩
  have narrow : Checked (X64.cpu env) (X64.Divides Narrow) (entry "main" (X64.text prog))
      state := by
    rw [X64.entry_text]
    decide
  obtain ⟨values, after, after', ran, ran', calls, calls'⟩ := runs env state env' state' abi
    (loaded_of_empty (X64.objects_text prog) (by decide)) abi'
    (loaded_of_empty (Riscv.objects_text prog) (by decide)) narrow
  exact ⟨_, _, values, after, after', written, written', ran, ran', calls, calls'⟩

/-- `print(65536 * 65536 / 65536)`: the product has 33 bits. And for `xx...x = 1` with 1007
letters neither back end keeps to `instr`. -/
theorem backends_differ :
    (¬ ∀ (prog : Stm) (env : X64.Env) (state : X64.State) (env' : Riscv.Env)
        (state' : Riscv.State) (lines : List (Line X64.Instr)) (lines' : List (Line Riscv.Instr)),
      X64.SubFreeStm prog → prog.Closed → X64.assembly prog = some lines →
      Riscv.assembly prog = some lines' → X64.PrintfAbi env lines →
      Loaded env.symbol lines (X64.frameSize prog) (state.regs .rsp).toNat state.memory →
      Riscv.PrintfAbi env' lines' →
      Loaded env'.symbol lines' (Riscv.stacksize prog) (state'.regs .sp).toNat state'.memory →
      Checked (X64.cpu env) (X64.Divides fun _ divisor => divisor ≠ 0)
        (entry "main" lines) state →
      Checked (Riscv.cpu env') (Riscv.Divides fun _ divisor => divisor ≠ 0)
        (entry "main" lines') state' →
      ∃ values after after', X64.runMain env lines state = some after ∧
        Riscv.runMain env' lines' state' = some after' ∧
        after.calls = state.calls ++ printed env.symbol values ∧
        after'.calls = state'.calls ++ printed env'.symbol values) ∧
    ¬ ∀ prog : Stm, X64.SubFreeStm prog → prog.Closed →
      ∃ lines lines', X64.assembly prog = some lines ∧ Riscv.assembly prog = some lines' := by
  constructor
  · intro always
    let prog : Stm :=
      .print (.bin .div (.bin .times (.num 65536) (.num 65536)) (.num 65536))
    let env : X64.Env := ⟨fun _ => 0x2000, id⟩
    let state : X64.State := ⟨fun _ => 0x8000, fun _ => 0, []⟩
    let env' : Riscv.Env := ⟨fun _ => 0x2000, id⟩
    let state' : Riscv.State := ⟨fun _ => 0x8000, fun _ => 0, []⟩
    have abi : X64.PrintfAbi env (X64.text prog) :=
      ⟨fun _ => rfl, fun _ => rfl, fun _ => rfl, fun _ _ _ => rfl, fun _ _ _ => rfl, fun _ => rfl⟩
    have abi' : Riscv.PrintfAbi env' (Riscv.text prog) :=
      ⟨fun _ => rfl, fun _ => rfl, fun _ _ _ => rfl, fun _ _ _ => rfl, fun _ => rfl⟩
    have loaded : Loaded env.symbol (X64.text prog) (X64.frameSize prog)
        (state.regs .rsp).toNat state.memory :=
      loaded_of_empty (X64.objects_text prog) (by decide)
    have loaded' : Loaded env'.symbol (Riscv.text prog) (Riscv.stacksize prog)
        (state'.regs .sp).toNat state'.memory :=
      loaded_of_empty (Riscv.objects_text prog) (by decide)
    obtain ⟨values, after, after', ran, ran', calls, calls'⟩ :=
      always prog env state env' state' _ _ ⟨by decide, ⟨by decide, trivial, trivial⟩, trivial⟩
        (by decide) ((X64.assembly_eq_some prog _).mpr ⟨by decide, rfl⟩)
        ((Riscv.assembly_eq_some prog _).mpr ⟨by decide, rfl⟩) abi loaded abi' loaded'
        (by rw [X64.entry_text]; decide) (by rw [Riscv.entry_text]; decide)
    have wide : prog.interp X64.reversed64 (fun _ => 0) = some (fun _ => 0, [65536]) := rfl
    have narrow : prog.interp Riscv.arith32 (fun _ => 0) = some (fun _ => 0, [0]) := rfl
    obtain ⟨_, ran64, prints⟩ :=
      Fallible.right_of_left (X64.runMain_reversed (by decide) abi loaded) wide
    obtain ⟨_, _, _, interp, ran32, prints', _⟩ := Riscv.runMain_interp (by decide) abi' loaded'
    obtain rfl := Option.some.inj (ran.symm.trans ran64)
    obtain rfl := Option.some.inj (ran'.symm.trans ran32)
    obtain ⟨rfl, rfl⟩ := Prod.mk.inj (Option.some.inj (narrow.symm.trans interp))
    have same : printed env.symbol values = printed env.symbol [65536] := calls.symm.trans prints
    have same' : printed env.symbol values = printed env.symbol [0] := calls'.symm.trans prints'
    exact absurd (same.symm.trans same') (by decide)
  · intro always
    obtain ⟨lines, _, written, _⟩ := always (assignXs 1006) trivial (assignXs_closed 1006)
    exact X64.assembly_assignXs written

end CssLab.Mcc
