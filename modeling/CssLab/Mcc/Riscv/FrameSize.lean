import CssLab.Mcc.Riscv.Frame

namespace CssLab.Mcc.Riscv

open CssLab.Assembly CssLab.Memory

theorem nests_exp_iff (exp : Exp) (count : Nat) : exp.Nests count ↔ count ≤ deepExp exp := by
  induction exp generalizing count with
  | num n =>
    refine ⟨fun nests => ?_, fun small => ?_⟩
    · cases nests
      exact Nat.le_refl _
    · rw [Nat.le_zero.mp small]
      exact .zero _
  | var x =>
    refine ⟨fun nests => ?_, fun small => ?_⟩
    · cases nests
      exact Nat.le_refl _
    · rw [Nat.le_zero.mp small]
      exact .zero _
  | bin type left right first second =>
    have deep : deepExp (.bin type left right) = max (deepExp left) (deepExp right) + 1 := rfl
    constructor
    · intro nests
      cases nests with
      | zero => exact Nat.zero_le _
      | left inner =>
        have := (first _).mp inner
        omega
      | right inner =>
        have := (second _).mp inner
        omega
    · intro small
      cases count with
      | zero => exact .zero _
      | succ count =>
        by_cases inLeft : count ≤ deepExp left
        · exact .left ((first count).mpr inLeft)
        · exact .right ((second count).mpr (by omega))

theorem nests_iff (prog : Stm) (count : Nat) : prog.Nests count ↔ count ≤ deepStm prog := by
  induction prog with
  | assign x exp =>
    rw [deepStm, ← nests_exp_iff]
    refine ⟨fun nests => ?_, .assign⟩
    cases nests
    assumption
  | print exp =>
    rw [deepStm, ← nests_exp_iff]
    refine ⟨fun nests => ?_, .print⟩
    cases nests
    assumption
  | seq left right first second =>
    rw [deepStm, le_max_iff, ← first, ← second]
    constructor
    · intro nests
      cases nests with
      | left nests => exact .inl nests
      | right nests => exact .inr nests
    · rintro (nests | nests)
      · exact .left nests
      · exact .right nests

/-! ### The immediate operands -/

/-- The immediate operand of an `addi`, a load or a store. -/
def Instr.immediate : Instr → Option Int
  | .addi _ _ imm => some imm
  | .lw _ offset _ => some offset
  | .sw _ offset _ => some offset
  | .ld _ offset _ => some offset
  | .sd _ offset _ => some offset
  | _ => none

/-- It is a signed number of twelve bits. -/
def Instr.Encodable (instr : Instr) : Prop := ∀ imm ∈ instr.immediate, -2048 ≤ imm ∧ imm ≤ 2047

/-- The code of an expression has spills and reloads, and the load of a variable. -/
theorem immediate_expCode (exp : Exp) (slot : Int) :
    ∀ instr ∈ expCode slot exp, ∀ imm ∈ instr.immediate,
      imm = 0 ∨ instr = pushAt imm ∨ instr = popAt imm := by
  induction exp generalizing slot with
  | num n => simp [expCode, Instr.immediate]
  | var x => simp [expCode, Instr.immediate]
  | bin type left right first second =>
    intro instr member imm operand
    simp only [expCode, List.mem_append, List.mem_cons, List.not_mem_nil, or_false] at member
    rcases member with inLeft | rfl | inRight | rfl | rfl
    · exact first slot instr inLeft imm operand
    · cases operand
      exact .inr (.inl rfl)
    · exact second (slot + 1) instr inRight imm operand
    · cases operand
      exact .inr (.inr rfl)
    · cases type <;> cases operand

theorem immediate_stmCode (stm : Stm) (slot : Int) :
    ∀ instr ∈ stmCode slot stm, ∀ imm ∈ instr.immediate,
      imm = 0 ∨ instr = pushAt imm ∨ instr = popAt imm := by
  induction stm with
  | assign x exp =>
    intro instr member imm operand
    simp only [stmCode, List.mem_append, List.mem_cons, List.not_mem_nil, or_false] at member
    rcases member with inExp | rfl | rfl
    · exact immediate_expCode exp slot instr inExp imm operand
    · cases operand
    · cases operand
      exact .inl rfl
  | print exp =>
    intro instr member imm operand
    simp only [stmCode, List.mem_append, List.mem_cons, List.not_mem_nil, or_false] at member
    rcases member with inExp | rfl | rfl
    · exact immediate_expCode exp slot instr inExp imm operand
    · cases operand
    · cases operand
  | seq left right first second =>
    intro instr member imm operand
    rcases List.mem_append.mp member with inLeft | inRight
    · exact first instr inLeft imm operand
    · exact second instr inRight imm operand

theorem immediate_text (prog : Stm) : ∀ instr ∈ code (text prog),
    ∀ imm ∈ instr.immediate, -(stacksize prog : Int) ≤ imm ∧ imm ≤ stacksize prog := by
  intro instr member imm operand
  have least := le_stacksize prog
  have whole : instr ∈ code (text prog) := member
  simp only [code_text, mainCode, prologue, epilogue, List.mem_append, List.mem_cons,
    List.not_mem_nil, or_false] at member
  rcases member with ((start | inside) | finish) | rfl
  · rcases start with rfl | rfl | rfl | rfl <;> cases operand <;> omega
  · rcases immediate_stmCode prog 4 instr inside imm operand with rfl | rfl | rfl
    · omega
    · have fits := (matched_text prog).2 imm
      rw [entry_text, ← code_text] at fits
      have := fits (.inl whole)
      omega
    · have fits := (matched_text prog).2 imm
      rw [entry_text, ← code_text] at fits
      have := fits (.inr whole)
      omega
  · rcases finish with rfl | rfl | rfl | rfl | rfl <;> cases operand <;> omega
  · cases operand

theorem encodable_iff_stacksize (prog : Stm) :
    (∀ instr ∈ code (text prog), instr.Encodable) ↔ stacksize prog ≤ 2047 := by
  constructor
  · intro all
    have pointer : Instr.addi .s0 .sp (stacksize prog) ∈ code (text prog) := by
      simp [code_text, mainCode, prologue]
    have := (all _ pointer (stacksize prog) rfl).2
    omega
  · intro small instr member imm operand
    have := immediate_text prog instr member imm operand
    omega

/-- A text is written of which the assembler can encode every immediate operand exactly
when the names are few and short and no 507 operators lie inside one another. -/
theorem encodable_iff (prog : Stm) :
    (∃ lines, assembly prog = some lines ∧ ∀ instr ∈ code lines, instr.Encodable) ↔
      (prog.assigned.toFinset.card ≤ maxVar ∧ Short prog) ∧ ¬ prog.Nests 507 := by
  have deep : stacksize prog ≤ 2047 ↔ ¬ prog.Nests 507 := by
    rw [nests_iff, stacksize]
    omega
  rw [← deep, ← encodable_iff_stacksize]
  constructor
  · rintro ⟨lines, written, encodable⟩
    obtain ⟨fits, rfl⟩ := (assembly_eq_some prog lines).mp written
    exact ⟨fits, encodable⟩
  · rintro ⟨fits, encodable⟩
    exact ⟨text prog, (assembly_eq_some prog _).mpr ⟨fits, rfl⟩, encodable⟩

/-- `1 + 1 + ... + 1` with so many operators. -/
def sum : Nat → Exp
  | 0 => .num 1
  | count + 1 => .bin .add (sum count) (.num 1)

theorem deepExp_sum (count : Nat) : deepExp (sum count) = count := by
  induction count with
  | zero => rfl
  | succ count ih => simp [sum, deepExp, ih]

theorem reads_sum (count : Nat) : (sum count).reads = [] := by
  induction count with
  | zero => rfl
  | succ count ih => simp [sum, Exp.reads, ih]

/-- The sum of 508 ones, printed, is given a frame of 2048 bytes. -/
theorem sum_not_encodable :
    ¬ ∀ prog lines, assembly prog = some lines → ∀ instr ∈ code lines, instr.Encodable := by
  intro always
  have short : Short (.print (sum 507)) := by
    refine ⟨nofun, fun x member => ?_⟩
    rw [Stm.reads, reads_sum] at member
    cases member
  have written : assembly (.print (sum 507)) = some (text (.print (sum 507))) :=
    (assembly_eq_some _ _).mpr ⟨⟨Nat.zero_le _, short⟩, rfl⟩
  have small := (encodable_iff_stacksize (.print (sum 507))).mp (always _ _ written)
  rw [stacksize, deepStm, deepExp_sum] at small
  omega

/-! ### The alignment of `sp` -/

/-- A call finds `sp` at a multiple of 16. -/
def CallAligned : Instr → State → Prop
  | .call _, state => (state.regs .sp).toNat % 16 = 0
  | _, _ => True

theorem call_of_prints {stm : Stm} (prints : stm.Prints) (slot : Int) :
    ∃ front back, stmCode slot stm = front ++ .call "printf" :: back := by
  induction prints with
  | print exp => exact ⟨expCode slot exp ++ [.lla .a0 "mcc_format"], [], by simp [stmCode]⟩
  | @left left right _ ih =>
    obtain ⟨front, back, split⟩ := ih
    refine ⟨front, back ++ stmCode slot right, ?_⟩
    rw [stmCode, split, List.append_assoc, List.cons_append]
  | @right right left _ ih =>
    obtain ⟨front, back, split⟩ := ih
    refine ⟨stmCode slot left ++ front, back, ?_⟩
    rw [stmCode, split, List.append_assoc]

theorem callAligned_expCode (exp : Exp) (slot : Int) :
    ∀ instr ∈ expCode slot exp, ∀ state, CallAligned instr state := by
  induction exp generalizing slot with
  | num n => simp [expCode, CallAligned]
  | var x => simp [expCode, CallAligned]
  | bin type left right first second =>
    intro instr member state
    simp only [expCode, List.mem_append, List.mem_cons, List.not_mem_nil, or_false] at member
    rcases member with inLeft | rfl | inRight | rfl | rfl
    · exact first slot instr inLeft state
    · trivial
    · exact second (slot + 1) instr inRight state
    · trivial
    · cases type <;> trivial

theorem callAligned_stmCode (stm : Stm) (silent : ¬ stm.Prints) (slot : Int) :
    ∀ instr ∈ stmCode slot stm, ∀ state, CallAligned instr state := by
  induction stm with
  | assign x exp =>
    intro instr member state
    simp only [stmCode, List.mem_append, List.mem_cons, List.not_mem_nil, or_false] at member
    rcases member with inExp | rfl | rfl
    · exact callAligned_expCode exp slot instr inExp state
    · trivial
    · trivial
  | print exp => exact absurd (.print exp) silent
  | seq left right first second =>
    intro instr member state
    rcases List.mem_append.mp member with inLeft | inRight
    · exact first (fun prints => silent (.left prints)) instr inLeft state
    · exact second (fun prints => silent (.right prints)) instr inRight state

/-- All calls of a program find `sp` at the bottom of the frame. -/
theorem checked_iff_stacksize (prog : Stm) {env : Env} {start : State}
    (abi : PrintfAbi env (text prog))
    (placed : Placed env.symbol (text prog) (stacksize prog) (start.regs .sp).toNat)
    (aligned : (start.regs .sp).toNat % 16 = 0) :
    Checked (cpu env) CallAligned (entry "main" (text prog)) start ↔
      (prog.Prints → stacksize prog % 16 = 0) := by
  have room := placed.room
  have deep := le_stacksize prog
  obtain ⟨one, ran1, body1⟩ := body_prologue placed
  have inside : Throughout (cpu env) (Body env prog start) one (stmCode 4 prog) :=
    throughout_stmCode placed abi prog (fun _ => id) deep body1
  have base : frameBase prog start = (start.regs .sp).toNat - stacksize prog := rfl
  rw [entry_text, mainCode, List.append_assoc, List.append_assoc]
  constructor
  · intro checked prints
    obtain ⟨front, back, split⟩ := call_of_prints prints 4
    obtain ⟨last, ran, _⟩ := exec_stmCode abi prog one (by
      have bound := (start.regs .sp).isLt
      have := body1.sp
      omega)
    rw [split] at ran
    obtain ⟨two, ran2, _⟩ := exec_append_eq_some.mp ran
    have atCall := (checked_append.mp (checked.rest ran1)).1
    rw [split] at atCall
    have here : (two.regs .sp).toNat % 16 = 0 := (atCall.rest ran2).1
    have body2 := inside front (.call "printf" :: back) split two ran2
    rw [body2.sp] at here
    omega
  · intro divides
    refine checked_append.mpr ⟨checked_of_forall ?_, fun middle ran => ?_⟩
    · simp [prologue, CallAligned]
    obtain rfl := Option.some.inj (ran1.symm.trans ran)
    refine checked_append.mpr ⟨?_, fun middle _ => checked_of_forall ?_⟩
    · by_cases prints : prog.Prints
      · refine inside.checked fun instr _ state body => ?_
        have here := body.sp
        have whole := divides prints
        cases instr <;> first | trivial | (change (state.regs .sp).toNat % 16 = 0; omega)
      · exact checked_of_forall (callAligned_stmCode prog prints 4)
    · simp [epilogue, CallAligned]

/-- A text is written whose `main`, called with `sp` at a multiple of 16, keeps it at one
for its own calls exactly when the names are few and short and it makes no call or the
deepest nest of operators of the program counts 0 or 3 modulo 4. -/
theorem calls_aligned_iff (prog : Stm) (env : Env) (start : State)
    (abi : PrintfAbi env (text prog))
    (placed : Placed env.symbol (text prog) (stacksize prog) (start.regs .sp).toNat)
    (aligned : (start.regs .sp).toNat % 16 = 0) :
    (∃ lines, assembly prog = some lines ∧
        Checked (cpu env) CallAligned (entry "main" lines) start) ↔
      (prog.assigned.toFinset.card ≤ maxVar ∧ Short prog) ∧
        (prog.Prints → ∀ deepest, prog.Nests deepest → ¬ prog.Nests (deepest + 1) →
          deepest % 4 = 0 ∨ deepest % 4 = 3) := by
  have modulo : stacksize prog % 16 = 0 ↔ ∀ deepest, prog.Nests deepest →
      ¬ prog.Nests (deepest + 1) → deepest % 4 = 0 ∨ deepest % 4 = 3 := by
    simp only [nests_iff, stacksize]
    constructor
    · intro whole deepest inside beyond
      omega
    · intro modulo
      have := modulo (deepStm prog) (Nat.le_refl _) (by omega)
      omega
  rw [← modulo, ← checked_iff_stacksize prog abi placed aligned]
  constructor
  · rintro ⟨lines, written, checked⟩
    obtain ⟨fits, rfl⟩ := (assembly_eq_some prog lines).mp written
    exact ⟨fits, checked⟩
  · rintro ⟨fits, checked⟩
    exact ⟨text prog, (assembly_eq_some prog _).mpr ⟨fits, rfl⟩, checked⟩

/-- `print(1 + 2 * (3 - 4))` is aligned. -/
theorem calls_aligned_iff_three :
    let prog : Stm := .print
      (.bin .add (.num 1) (.bin .times (.num 2) (.bin .sub (.num 3) (.num 4))))
    let env : Env := ⟨fun _ => 0x2000, id⟩
    let start : State := ⟨fun _ => 0x8000, fun _ => 0, []⟩
    ∃ lines, assembly prog = some lines ∧
      Checked (cpu env) CallAligned (entry "main" lines) start := by
  intro prog env start
  have empty : objects (text prog) = [] := objects_text prog
  have abi : PrintfAbi env (text prog) :=
    ⟨fun _ => rfl, fun _ => rfl, fun _ _ _ => rfl, fun _ _ _ => rfl, fun _ => rfl⟩
  have placed : Placed env.symbol (text prog) (stacksize prog) (start.regs .sp).toNat := by
    refine ⟨by decide, ?_, ?_⟩ <;> simp [empty]
  refine (calls_aligned_iff prog env start abi placed (by decide)).mpr ⟨by decide, ?_⟩
  intro _ deepest nests
  have bound := (nests_iff prog deepest).mp nests
  have three : deepStm prog = 3 := rfl
  intro beyond
  rw [nests_iff] at beyond
  omega

/-- `print(1 + 2)` has a frame of 24 bytes. -/
theorem call_not_aligned :
    ¬ ∀ (prog : Stm) (env : Env) (start : State) (lines : List (Line Instr)),
      assembly prog = some lines → PrintfAbi env lines →
      Placed env.symbol lines (stacksize prog) (start.regs .sp).toNat →
      (start.regs .sp).toNat % 16 = 0 →
      Checked (cpu env) CallAligned (entry "main" lines) start := by
  intro always
  let prog : Stm := .print (.bin .add (.num 1) (.num 2))
  let env : Env := ⟨fun _ => 0x2000, id⟩
  let start : State := ⟨fun _ => 0x8000, fun _ => 0, []⟩
  have empty : objects (text prog) = [] := objects_text prog
  have written : assembly prog = some (text prog) :=
    (assembly_eq_some prog _).mpr ⟨by decide, rfl⟩
  have abi : PrintfAbi env (text prog) :=
    ⟨fun _ => rfl, fun _ => rfl, fun _ _ _ => rfl, fun _ _ _ => rfl, fun _ => rfl⟩
  have placed : Placed env.symbol (text prog) (stacksize prog) (start.regs .sp).toNat := by
    refine ⟨by decide, ?_, ?_⟩ <;> simp [empty]
  have checked := always prog env start _ written abi placed (by decide)
  exact absurd ((checked_iff_stacksize prog abi placed (by decide)).mp checked (.print _))
    (by decide)

end CssLab.Mcc.Riscv
