import CssLab.Mcc.Image

/-! The RISC-V back end (compile-riscv.c): the instructions it can emit with
their text, the functions that emit them, and the code each of these produces
as a function of the tree and of `stackoffset` alone. -/

namespace CssLab.Mcc.Riscv

open CssLab.Assembly Enumeration

/-- The registers the emitted code names. -/
inductive Reg where
  | ra | sp | s0 | a0 | a1 | a2 | a3 | a5
  deriving Repr, DecidableEq

def Reg.name : Reg → String
  | .ra => "ra"
  | .sp => "sp"
  | .s0 => "s0"
  | .a0 => "a0"
  | .a1 => "a1"
  | .a2 => "a2"
  | .a3 => "a3"
  | .a5 => "a5"

/-- The instructions and pseudo-instructions mcc writes. Immediates are
unbounded: whether they can be encoded is the assembler's concern. -/
inductive Instr where
  | li (rd : Reg) (imm : Int)
  | lla (rd : Reg) (symbol : String)
  | lw (rd : Reg) (offset : Int) (base : Reg)
  | sw (rs : Reg) (offset : Int) (base : Reg)
  | ld (rd : Reg) (offset : Int) (base : Reg)
  | sd (rs : Reg) (offset : Int) (base : Reg)
  | addi (rd rs : Reg) (imm : Int)
  | addw (rd rs1 rs2 : Reg)
  | subw (rd rs1 rs2 : Reg)
  | mulw (rd rs1 rs2 : Reg)
  | divw (rd rs1 rs2 : Reg)
  | mv (rd rs : Reg)
  | call (symbol : String)
  | jr (rs : Reg)
  deriving Repr, DecidableEq

private def threeRegs (mnemonic : String) (rd rs1 rs2 : Reg) : String :=
  "\t" ++ mnemonic ++ "\t" ++ rd.name ++ ", " ++ rs1.name ++ ", " ++ rs2.name ++ "\n"

private def memoryOperand (mnemonic : String) (reg : Reg) (offset : Int) (base : Reg) : String :=
  "\t" ++ mnemonic ++ "\t" ++ reg.name ++ ", " ++ toString offset ++ "(" ++ base.name ++ ")\n"

def Instr.render : Instr → String
  | .li rd imm => "\tli\t" ++ rd.name ++ ", " ++ toString imm ++ "\n"
  | .lla rd symbol => "\tlla\t" ++ rd.name ++ ", " ++ symbol ++ "\n"
  | .lw rd offset base => memoryOperand "lw" rd offset base
  | .sw rs offset base => memoryOperand "sw" rs offset base
  | .ld rd offset base => memoryOperand "ld" rd offset base
  | .sd rs offset base => memoryOperand "sd" rs offset base
  | .addi rd rs imm =>
    "\taddi\t" ++ rd.name ++ ", " ++ rs.name ++ ", " ++ toString imm ++ "\n"
  | .addw rd rs1 rs2 => threeRegs "addw" rd rs1 rs2
  | .subw rd rs1 rs2 => threeRegs "subw" rd rs1 rs2
  | .mulw rd rs1 rs2 => threeRegs "mulw" rd rs1 rs2
  | .divw rd rs1 rs2 => threeRegs "divw" rd rs1 rs2
  | .mv rd rs => "\tmv\t" ++ rd.name ++ ", " ++ rs.name ++ "\n"
  | .call symbol => "\tcall " ++ symbol ++ "\n"
  | .jr rs => "\tjr\t" ++ rs.name ++ "\n"

/-- The symbols an instruction refers to. -/
def Instr.refers : Instr → List String
  | .lla _ symbol => [symbol]
  | .call symbol => [symbol]
  | _ => []

/-! ### The source's functions -/

def PUSH : Emit Instr Unit := do
  let compiler ← get
  emit (.instr (.sw .a1 (4 * compiler.stackoffset) .sp))
  modify fun compiler => { compiler with stackoffset := compiler.stackoffset + 1 }

def POP : Emit Instr Unit := do
  modify fun compiler => { compiler with stackoffset := compiler.stackoffset - 1 }
  let compiler ← get
  emit (.instr (.lw .a2 (4 * compiler.stackoffset) .sp))

/-- `compile_exp`. Its default branch is for tags that are not in `Exp_Type_t`. -/
def compileExp : Exp → Emit Instr Unit
  | .num n => emit (.instr (.li .a1 n.toInt))
  | .var x => do
    emitName Instr.render (.instr (.lla .a3 x))
    emit (.instr (.lw .a1 0 .a3))
  | .bin .add left right => do
    compileExp left
    PUSH
    compileExp right
    POP
    emit (.instr (.addw .a1 .a1 .a2))
  | .bin .sub left right => do
    compileExp left
    PUSH
    compileExp right
    POP
    emit (.instr (.subw .a1 .a2 .a1))
  | .bin .times left right => do
    compileExp left
    PUSH
    compileExp right
    POP
    emit (.instr (.mulw .a1 .a1 .a2))
  | .bin .div left right => do
    compileExp left
    PUSH
    compileExp right
    POP
    emit (.instr (.divw .a1 .a2 .a1))

/-- `compile_stm`. -/
def compileStm : Stm → Emit Instr Unit
  | .assign x exp => do
    setAdd x
    compileExp exp
    emitName Instr.render (.instr (.lla .a3 x))
    emit (.instr (.sw .a1 0 .a3))
  | .print exp => do
    compileExp exp
    emit (.instr (.lla .a0 "mcc_format"))
    emit (.instr (.call "printf"))
  | .seq left right => do
    compileStm left
    compileStm right

/-- `Deep_exp`. -/
def deepExp : Exp → Nat
  | .num _ => 0
  | .var _ => 0
  | .bin _ left right => max (deepExp left) (deepExp right) + 1

/-- `Deep_stm`. -/
def deepStm : Stm → Nat
  | .print exp => deepExp exp
  | .assign _ exp => deepExp exp
  | .seq left right => max (deepStm left) (deepStm right)

/-- The frame size `riscv_compile` computes. -/
def stacksize (prog : Stm) : Nat := (20 + 4 * deepStm prog) / 8 * 8

/-- The lines one turn of `emit_vars` writes. -/
def emitVar (var : String) : List (Line Instr) :=
  [.text ("\t.global\t" ++ var ++ "\n"),
   .text "\t.align\t2\n",
   .text ("\t.type\t" ++ var ++ ", @object\n"),
   .text ("\t.size\t" ++ var ++ ", 4\n"),
   .label var "",
   .zeros "\t.zero\t4\n" 4]

def emitVars : Emit Instr Unit := emitVarsWith Instr.render "\n\t.section\t.sdata\n" emitVar

def riscvCompile (prog : Stm) : Emit Instr Unit := do
  emit (.text "# Auto-generated by mcc. Do not modify.\n")
  emit (.text "\t.file \"input.c\"\n")
  emit (.text "\t.text\n")
  emit (.text "\t.align\t3\n")
  emit (.label "mcc_format" "")
  emit (.text "\t.string\t\"%d\\n\"\n")
  emit (.text "\t.align\t1\n")
  emit (.text "\t.globl main\n")
  emit (.text "\t.type main, @function\n")
  emit (.label "main" "")
  let stacksize := stacksize prog
  emit (.instr (.addi .sp .sp (-stacksize)))
  emit (.instr (.sd .ra 0 .sp))
  emit (.instr (.sd .s0 8 .sp))
  emit (.instr (.addi .s0 .sp stacksize))
  compileStm prog
  emit (.instr (.li .a5 0))
  emit (.instr (.mv .a0 .a5))
  emit (.instr (.ld .ra 0 .sp))
  emit (.instr (.ld .s0 8 .sp))
  emit (.instr (.addi .sp .sp stacksize))
  emit (.instr (.jr .ra))
  emitVars
  emit (.text "# End and bye.\n\n")

/-- The lines a fresh process writes for a program, where that is defined. -/
def assembly (prog : Stm) : Option (List (Line Instr)) :=
  ((riscvCompile prog).run .fresh).map fun done => done.2.out

/-! ### The emitted code without the emitting -/

/-- The instruction after the reload in the code of `left type right`. -/
def combine : BinType → Instr
  | .add => .addw .a1 .a1 .a2
  | .sub => .subw .a1 .a2 .a1
  | .times => .mulw .a1 .a1 .a2
  | .div => .divw .a1 .a2 .a1

def expCode (offset : Int) : Exp → List Instr
  | .num n => [.li .a1 n.toInt]
  | .var x => [.lla .a3 x, .lw .a1 0 .a3]
  | .bin type left right =>
    expCode offset left ++ .sw .a1 (4 * offset) .sp ::
      (expCode (offset + 1) right ++ [.lw .a2 (4 * offset) .sp, combine type])

def stmCode (offset : Int) : Stm → List Instr
  | .assign x exp => expCode offset exp ++ [.lla .a3 x, .sw .a1 0 .a3]
  | .print exp => expCode offset exp ++ [.lla .a0 "mcc_format", .call "printf"]
  | .seq left right => stmCode offset left ++ stmCode offset right

def prologue (size : Nat) : List Instr :=
  [.addi .sp .sp (-size), .sd .ra 0 .sp, .sd .s0 8 .sp, .addi .s0 .sp size]

def epilogue (size : Nat) : List Instr :=
  [.li .a5 0, .mv .a0 .a5, .ld .ra 0 .sp, .ld .s0 8 .sp, .addi .sp .sp size]

/-- The body of `main`, up to its `jr`. -/
def mainCode (prog : Stm) : List Instr :=
  prologue (stacksize prog) ++ stmCode 4 prog ++ epilogue (stacksize prog)

theorem compileExp_bin (type : BinType) (left right : Exp) :
    compileExp (.bin type left right) = (do
      compileExp left
      PUSH
      compileExp right
      POP
      emit (.instr (combine type))) := by
  cases type <;> rfl

/-- The lines before the code of `main`. -/
def header : List (Line Instr) :=
  [.text "# Auto-generated by mcc. Do not modify.\n", .text "\t.file \"input.c\"\n",
   .text "\t.text\n", .text "\t.align\t3\n", .label "mcc_format" "",
   .text "\t.string\t\"%d\\n\"\n", .text "\t.align\t1\n", .text "\t.globl main\n",
   .text "\t.type main, @function\n", .label "main" ""]

/-- The lines after the code of `main`, with the variables that are laid out. -/
def trailer (vars : List String) : List (Line Instr) :=
  .text "\n\t.section\t.sdata\n" :: (vars.flatMap emitVar ++ [.text "# End and bye.\n\n"])

def textWith (vars : List String) (prog : Stm) : List (Line Instr) :=
  header ++ ((mainCode prog ++ [Instr.jr .ra]).map .instr ++ trailer vars)

/-- The text for a program with all its variables. -/
def text (prog : Stm) : List (Line Instr) := textWith (dataVars prog) prog

/-- Every name leaves room for the lines it stands in. The `.type` line of a variable that
is laid out has the longest format, and one that is only read stands in no such line. -/
def Short (prog : Stm) : Prop := prog.Short 1006 1013

instance (prog : Stm) : Decidable (Short prog) :=
  inferInstanceAs (Decidable (prog.Short 1006 1013))

theorem inInstr_lla (x : String) :
    InInstr Instr.render (.instr (.lla .a3 x)) ↔ x.utf8ByteSize ≤ 1013 := by
  have rest : ("\tlla\t" ++ "a3" ++ ", ").utf8ByteSize + "\n".utf8ByteSize = 10 := by decide
  rw [inInstr_iff Instr.render _ _ x "\n" rfl rest, instrSize]
  omega

theorem inInstr_emitVar (x : String) :
    (∀ line ∈ emitVar x, InInstr Instr.render line) ↔ x.utf8ByteSize ≤ 1006 := by
  have align : InInstr Instr.render (.text "\t.align\t2\n") := by decide
  have zeros : InInstr Instr.render (.zeros "\t.zero\t4\n" 4) := by decide
  rw [emitVar]
  simp only [List.forall_mem_cons, List.not_mem_nil, IsEmpty.forall_iff, implies_true, align,
    zeros, true_and, and_true]
  rw [inInstr_iff Instr.render _ "\t.global\t" x "\n" rfl (by decide : _ = 10),
    inInstr_iff Instr.render _ "\t.type\t" x ", @object\n" rfl (by decide : _ = 17),
    inInstr_iff Instr.render _ "\t.size\t" x ", 4\n" rfl (by decide : _ = 11),
    inInstr_iff Instr.render _ "" x (":" ++ "" ++ "\n")
      (by simp only [Line.render, String.append_assoc, String.empty_append])
      (by decide : _ = 2), instrSize]
  omega

section Drafts

variable (added : List String) (passed : Nat) (offset : Int) (out : List (Line Instr))

theorem drafts_PUSH :
    Drafts PUSH ⟨added, passed, offset, out⟩ True
      ⟨added, passed, offset + 1, out ++ [.instr (.sw .a1 (4 * offset) .sp)]⟩ := by
  intro compiler has
  refine .inl ⟨trivial, _, rfl, has.set, ?_, ?_⟩
  · change compiler.stackoffset + 1 = _
    rw [has.stackoffset]
  · change compiler.out ++ [.instr (.sw .a1 (4 * compiler.stackoffset) .sp)] = _
    rw [has.out, has.stackoffset]

theorem drafts_POP :
    Drafts POP ⟨added, passed, offset, out⟩ True
      ⟨added, passed, offset - 1, out ++ [.instr (.lw .a2 (4 * (offset - 1)) .sp)]⟩ := by
  intro compiler has
  refine .inl ⟨trivial, _, rfl, has.set, ?_, ?_⟩
  · change compiler.stackoffset - 1 = _
    rw [has.stackoffset]
  · change compiler.out ++ [.instr (.lw .a2 (4 * (compiler.stackoffset - 1)) .sp)] = _
    rw [has.out, has.stackoffset]

/-- `compile_exp` writes `expCode` and leaves the process otherwise as it was:
every `PUSH` has been undone by its `POP`. -/
theorem drafts_compileExp (exp : Exp) :
    Drafts (compileExp exp) ⟨added, passed, offset, out⟩
      (∀ x ∈ exp.reads, x.utf8ByteSize ≤ 1013)
      ⟨added, passed, offset, out ++ (expCode offset exp).map .instr⟩ := by
  induction exp generalizing offset out with
  | num n => exact (drafts_emit _ added passed offset out).of_iff (fun _ => by simp [Exp.reads]) rfl
  | var x =>
    refine ((drafts_emitName Instr.render _ added passed offset out).bind
      (drafts_emit _ _ _ _ _)).of_iff (fun _ => ?_) ?_
    · rw [inInstr_lla, and_true, Exp.reads, List.forall_mem_singleton]
    · simp [expCode]
  | bin type left right first second =>
    rw [compileExp_bin]
    refine ((first offset out).bind ((drafts_PUSH added passed _ _).bind ((second _ _).bind
      ((drafts_POP added passed _ _).bind (drafts_emit _ _ _ _ _))))).of_iff (fun _ => ?_) ?_
    · rw [true_and, and_true, and_true, Exp.reads, List.forall_mem_append]
    · simp [expCode]

theorem drafts_compileStm (stm : Stm) :
    Drafts (compileStm stm) ⟨added, passed, offset, out⟩
      ((added ++ stm.assigned).eraseDups.length ≤ maxVar ∧
        stm.Short 1013 1013)
      ⟨added ++ stm.assigned, passed, offset, out ++ (stmCode offset stm).map .instr⟩ := by
  induction stm generalizing added out with
  | assign x exp =>
    refine ((drafts_setAdd x added passed offset out).bind
      ((drafts_compileExp _ passed offset _ exp).bind
        ((drafts_emitName Instr.render _ _ _ _ _).bind (drafts_emit _ _ _ _ _)))).of_iff
          (fun _ => ?_) ?_
    · rw [inInstr_lla, and_true, Stm.Short, Stm.assigned, Stm.reads, List.forall_mem_singleton,
        and_comm (b := x.utf8ByteSize ≤ 1013)]
    · simp [stmCode, Stm.assigned]
  | print exp =>
    refine ((drafts_compileExp added passed offset out exp).bind
      ((drafts_emit _ _ _ _ _).bind (drafts_emit _ _ _ _ _))).of_iff (fun fits => ?_) ?_
    · have few : added.eraseDups.length ≤ maxVar := fits
      simp [Stm.Short, Stm.assigned, Stm.reads, few]
    · simp [stmCode, Stm.assigned]
  | seq left right first second =>
    refine ((first added out).bind (second _ _)).of_iff (fun _ => ?_) ?_
    · exact fits_seq added left right _ _
    · simp [stmCode, Stm.assigned]

/-- `riscv_compile` in a process that has laid out everything that has been added: it lays
out the variables that the program adds. -/
theorem drafts_riscvCompile (prog : Stm) (short : ∀ x ∈ added, x.utf8ByteSize ≤ 1006) :
    Drafts (riscvCompile prog) ⟨added, added.eraseDups.length, 4, out⟩
      ((added ++ prog.assigned).eraseDups.length ≤ maxVar ∧ Short prog)
      ⟨added ++ prog.assigned, (added ++ prog.assigned).eraseDups.length, 4,
        out ++ textWith (prog.assigned.removeAll added).eraseDups prog⟩ := by
  have left : (added ++ prog.assigned).eraseDups.drop added.eraseDups.length =
      (prog.assigned.removeAll added).eraseDups := by
    rw [List.eraseDups_append, List.drop_left]
  unfold riscvCompile
  refine (Drafts.emit <| .emit <| .emit <| .emit <| .emit <| .emit <| .emit <| .emit <| .emit <|
    .emit <| .emit <| .emit <| .emit <| .emit <| (drafts_compileStm _ _ _ _ prog).bind <|
    .emit <| .emit <| .emit <| .emit <| .emit <| .emit <|
    (drafts_emitVarsWith Instr.render _ emitVar _ _ (length_eraseDups_le _ _)).bind
      (drafts_emit _ _ _ _ _)).of_iff (fun _ => ?_) ?_
  · simp only [left, inInstr_emitVar, and_true, List.mem_eraseDups]
    constructor
    · rintro ⟨⟨few, -, reads⟩, laidOut⟩
      refine ⟨few, fun x member => ?_, reads⟩
      by_cases old : x ∈ added
      · exact short x old
      · exact laidOut x (by simp [List.removeAll, member, old])
    · rintro ⟨few, assigned, reads⟩
      refine ⟨⟨few, fun x member => (assigned x member).trans (by decide), reads⟩, ?_⟩
      exact fun x member => assigned x (List.mem_of_mem_filter member)
  · rw [left]
    simp [textWith, header, trailer, mainCode, prologue, epilogue]

end Drafts

theorem ends_riscvCompile (prog : Stm) :
    Ends (riscvCompile prog) .fresh (prog.assigned.toFinset.card ≤ maxVar ∧ Short prog)
      ⟨prog.assigned, (dataVars prog).length, 4, text prog⟩ := by
  have start := drafts_riscvCompile [] [] prog nofun .fresh Compiler.has_fresh
  rw [List.removeAll_nil, List.nil_append, List.nil_append] at start
  exact start.of_iff (by rw [length_eraseDups]) rfl

/-- A fresh process writes the text, unless it would come to the end of an array. -/
theorem assembly_eq_some (prog : Stm) (lines : List (Line Instr)) :
    assembly prog = some lines ↔
      (prog.assigned.toFinset.card ≤ maxVar ∧ Short prog) ∧ text prog = lines :=
  (ends_riscvCompile prog).out_iff

theorem assembly_assignXs {lines : List (Line Instr)} : assembly (assignXs 1006) ≠ some lines := by
  rw [Ne, assembly_eq_some]
  rintro ⟨⟨-, assigned, -⟩, -⟩
  have short := assigned _ (List.mem_singleton_self _)
  rw [utf8ByteSize_xs] at short
  omega

end CssLab.Mcc.Riscv
