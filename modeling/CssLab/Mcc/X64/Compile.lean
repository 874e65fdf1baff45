import CssLab.Mcc.Image

/-! The X64 back end (compile-x64.c): the instructions it can emit with their
text, the functions that emit them, and the code each of these produces. -/

namespace CssLab.Mcc.X64

open CssLab.Assembly Enumeration

/-- The registers the emitted code names. -/
inductive Reg where
  | rax | rbx | rdx | rsi | rdi | rsp | rbp
  deriving Repr, DecidableEq

def Reg.name : Reg → String
  | .rax => "%rax"
  | .rbx => "%rbx"
  | .rdx => "%rdx"
  | .rsi => "%rsi"
  | .rdi => "%rdi"
  | .rsp => "%rsp"
  | .rbp => "%rbp"

/-- The instructions mcc writes, operands in AT&T order. Where the source spells
one instruction in two ways the mnemonic is kept with its blanks. -/
inductive Instr where
  | movImm (imm : Int) (dst : Reg)
  | load (symbol : String) (dst : Reg)
  | store (src : Reg) (symbol : String)
  | mov (mnemonic : String) (src dst : Reg)
  | lea (symbol : String) (dst : Reg)
  | push (mnemonic : String) (src : Reg)
  | pop (mnemonic : String) (dst : Reg)
  | addq (src dst : Reg)
  | subq (src dst : Reg)
  | imulq (src dst : Reg)
  | xchg (first second : Reg)
  | cqto
  | idivq (src : Reg)
  | call (symbol : String)
  | ret
  deriving Repr, DecidableEq

private def twoRegs (mnemonic : String) (src dst : Reg) : String :=
  "\t" ++ mnemonic ++ src.name ++ ", " ++ dst.name ++ "\n"

def Instr.render : Instr → String
  | .movImm imm dst => "\tmovq $" ++ toString imm ++ ", " ++ dst.name ++ "\n"
  | .load symbol dst => "\tmovq " ++ symbol ++ "(%rip), " ++ dst.name ++ "\n"
  | .store src symbol => "\tmovq " ++ src.name ++ ", " ++ symbol ++ "(%rip)\n"
  | .mov mnemonic src dst => twoRegs mnemonic src dst
  | .lea symbol dst => "\tleaq " ++ symbol ++ "(%rip), " ++ dst.name ++ "\n"
  | .push mnemonic src => "\t" ++ mnemonic ++ src.name ++ "\n"
  | .pop mnemonic dst => "\t" ++ mnemonic ++ dst.name ++ "\n"
  | .addq src dst => twoRegs "addq " src dst
  | .subq src dst => twoRegs "subq " src dst
  | .imulq src dst => twoRegs "imulq " src dst
  | .xchg first second => twoRegs "xchg " first second
  | .cqto => "\tcqto\n"
  | .idivq src => "\tidivq " ++ src.name ++ "\n"
  | .call symbol => "\tcall " ++ symbol ++ "\n"
  | .ret => "\tret\n"

/-- The symbols an instruction refers to. -/
def Instr.refers : Instr → List String
  | .load symbol _ => [symbol]
  | .store _ symbol => [symbol]
  | .lea symbol _ => [symbol]
  | .call symbol => [symbol]
  | _ => []

/-! ### The source's functions -/

/-- `compile_exp`. Its default branch is for tags that are not in `Exp_Type_t`. -/
def compileExp : Exp → Emit Instr Unit
  | .num n => emit (.instr (.movImm n.toInt .rax))
  | .var x => emitName Instr.render (.instr (.load x .rax))
  | .bin .add left right => do
    compileExp left
    emit (.instr (.push "push " .rax))
    compileExp right
    emit (.instr (.pop "pop " .rbx))
    emit (.instr (.addq .rbx .rax))
  | .bin .sub left right => do
    compileExp left
    emit (.instr (.push "push " .rax))
    compileExp right
    emit (.instr (.pop "pop " .rbx))
    emit (.instr (.subq .rbx .rax))
  | .bin .times left right => do
    compileExp left
    emit (.instr (.push "push " .rax))
    compileExp right
    emit (.instr (.pop "pop " .rbx))
    emit (.instr (.imulq .rbx .rax))
  | .bin .div left right => do
    compileExp left
    emit (.instr (.push "push " .rax))
    compileExp right
    emit (.instr (.pop "pop " .rbx))
    emit (.instr (.xchg .rax .rbx))
    emit (.instr .cqto)
    emit (.instr (.idivq .rbx))

/-- `compile_stm`. -/
def compileStm : Stm → Emit Instr Unit
  | .assign x exp => do
    setAdd x
    compileExp exp
    emitName Instr.render (.instr (.store .rax x))
  | .print exp => do
    compileExp exp
    emit (.instr (.mov "movq " .rax .rsi))
    emit (.instr (.lea "mcc_format" .rdi))
    emit (.instr (.call "printf"))
  | .seq left right => do
    compileStm left
    compileStm right

/-- The lines one turn of `emit_vars` writes. -/
def emitVar (var : String) : List (Line Instr) :=
  [.text ("\t.global\t" ++ var ++ "\n"),
   .text "\t.align 8\n",
   .text ("\t.type\t" ++ var ++ ", @object\n"),
   .text ("\t.size\t" ++ var ++ ", 8\n"),
   .label var "",
   .zeros "\t.quad\t0\n" 8]

def emitVars : Emit Instr Unit := emitVarsWith Instr.render "\n\t.data\n" emitVar

/-- `set_reset`. -/
def setReset : Emit Instr Unit :=
  modify fun compiler => { compiler with set := compiler.set.setReset }

def compile (prog : Stm) : Emit Instr Unit := do
  setReset
  emit (.text "// Auto-generated by mcc. Do not modify.\n")
  emit (.text "\t.file \"input.c\"\n")
  emit (.text "\t.text\n")
  emit (.label "mcc_format" " .string \"%d\\n\"")
  emit (.text "\t.globl main\n")
  emit (.text "\t.type main, @function\n")
  emit (.label "main" "")
  emit (.instr (.push "pushq   " .rbp))
  emit (.instr (.mov "movq    " .rsp .rbp))
  compileStm prog
  emit (.instr (.pop "popq    " .rbp))
  emit (.instr .ret)
  emitVars
  emit (.text "// End and bye.\n\n")

/-- The lines a fresh process writes for a program, where that is defined. -/
def assembly (prog : Stm) : Option (List (Line Instr)) :=
  ((compile prog).run .fresh).map fun done => done.2.out

/-! ### The emitted code without the emitting -/

/-- The instructions after the `pop` in the code of `left type right`. -/
def combine : BinType → List Instr
  | .add => [.addq .rbx .rax]
  | .sub => [.subq .rbx .rax]
  | .times => [.imulq .rbx .rax]
  | .div => [.xchg .rax .rbx, .cqto, .idivq .rbx]

def expCode : Exp → List Instr
  | .num n => [.movImm n.toInt .rax]
  | .var x => [.load x .rax]
  | .bin type left right =>
    expCode left ++ .push "push " .rax :: (expCode right ++ .pop "pop " .rbx :: combine type)

/-- The code of both operands, up to the `pop`. -/
def operandsCode (left right : Exp) : List Instr :=
  expCode left ++ .push "push " .rax :: (expCode right ++ [.pop "pop " .rbx])

theorem expCode_bin (type : BinType) (left right : Exp) :
    expCode (.bin type left right) = operandsCode left right ++ combine type := by
  simp [expCode, operandsCode]

def stmCode : Stm → List Instr
  | .assign x exp => expCode exp ++ [.store .rax x]
  | .print exp =>
    expCode exp ++ [.mov "movq " .rax .rsi, .lea "mcc_format" .rdi, .call "printf"]
  | .seq left right => stmCode left ++ stmCode right

def prologue : List Instr := [.push "pushq   " .rbp, .mov "movq    " .rsp .rbp]

/-- The body of `main`, up to its `ret`. -/
def mainCode (prog : Stm) : List Instr := prologue ++ stmCode prog ++ [.pop "popq    " .rbp]

/-- How many words the code of an expression pushes at most. -/
def spills : Exp → Nat
  | .num _ => 0
  | .var _ => 0
  | .bin _ left right => max (spills left) (spills right + 1)

def spillsStm : Stm → Nat
  | .assign _ exp => spills exp
  | .print exp => spills exp
  | .seq left right => max (spillsStm left) (spillsStm right)

/-- The bytes below the return address that `main` uses itself. -/
def frameSize (prog : Stm) : Nat := 8 + 8 * spillsStm prog

/-- The lines before the code of `main`. -/
def header : List (Line Instr) :=
  [.text "// Auto-generated by mcc. Do not modify.\n", .text "\t.file \"input.c\"\n",
   .text "\t.text\n", .label "mcc_format" " .string \"%d\\n\"", .text "\t.globl main\n",
   .text "\t.type main, @function\n", .label "main" ""]

/-- The lines after the code of `main`. -/
def trailer (prog : Stm) : List (Line Instr) :=
  .text "\n\t.data\n" :: ((dataVars prog).flatMap emitVar ++ [.text "// End and bye.\n\n"])

/-- The text for a program. -/
def text (prog : Stm) : List (Line Instr) :=
  header ++ ((mainCode prog ++ [Instr.ret]).map .instr ++ trailer prog)

/-- Every name leaves room for the lines it stands in: a load and a store have the longest
formats. -/
def Short (prog : Stm) : Prop := prog.Short 1004 1004

instance (prog : Stm) : Decidable (Short prog) :=
  inferInstanceAs (Decidable (prog.Short 1004 1004))

theorem short_iff (prog : Stm) : Short prog ↔ ∀ x ∈ prog.names, x.utf8ByteSize ≤ 1004 := by
  simp only [Short, Stm.Short, Stm.names, List.mem_toFinset, List.forall_mem_append]

theorem inInstr_load (x : String) :
    InInstr Instr.render (.instr (.load x .rax)) ↔ x.utf8ByteSize ≤ 1004 := by
  have text : (Line.instr (.load x .rax)).render Instr.render =
      "\tmovq " ++ x ++ ("(%rip), " ++ "%rax" ++ "\n") := by
    simp only [Line.render, Instr.render, Reg.name, String.append_assoc]
  rw [inInstr_iff Instr.render _ _ x _ text (by decide : _ = 19), instrSize]
  omega

theorem inInstr_store (x : String) :
    InInstr Instr.render (.instr (.store .rax x)) ↔ x.utf8ByteSize ≤ 1004 := by
  have rest : ("\tmovq " ++ "%rax" ++ ", ").utf8ByteSize + "(%rip)\n".utf8ByteSize = 19 := by
    decide
  rw [inInstr_iff Instr.render _ _ x "(%rip)\n" rfl rest, instrSize]
  omega

theorem inInstr_emitVar (x : String) :
    (∀ line ∈ emitVar x, InInstr Instr.render line) ↔ x.utf8ByteSize ≤ 1006 := by
  have align : InInstr Instr.render (.text "\t.align 8\n") := by decide
  have zeros : InInstr Instr.render (.zeros "\t.quad\t0\n" 8) := by decide
  rw [emitVar]
  simp only [List.forall_mem_cons, List.not_mem_nil, IsEmpty.forall_iff, implies_true, align,
    zeros, true_and, and_true]
  rw [inInstr_iff Instr.render _ "\t.global\t" x "\n" rfl (by decide : _ = 10),
    inInstr_iff Instr.render _ "\t.type\t" x ", @object\n" rfl (by decide : _ = 17),
    inInstr_iff Instr.render _ "\t.size\t" x ", 8\n" rfl (by decide : _ = 11),
    inInstr_iff Instr.render _ "" x (":" ++ "" ++ "\n")
      (by simp only [Line.render, String.append_assoc, String.empty_append])
      (by decide : _ = 2), instrSize]
  omega

section Drafts

variable (added : List String) (passed : Nat) (offset : Int) (out : List (Line Instr))

theorem drafts_compileExp (exp : Exp) :
    Drafts (compileExp exp) ⟨added, passed, offset, out⟩
      (∀ x ∈ exp.reads, x.utf8ByteSize ≤ 1004)
      ⟨added, passed, offset, out ++ (expCode exp).map .instr⟩ := by
  induction exp generalizing out with
  | num n => exact (drafts_emit _ added passed offset out).of_iff (fun _ => by simp [Exp.reads]) rfl
  | var x =>
    refine (drafts_emitName Instr.render _ added passed offset out).of_iff (fun _ => ?_) rfl
    rw [inInstr_load, Exp.reads, List.forall_mem_singleton]
  | bin type left right first second =>
    rw [Exp.reads, List.forall_mem_append]
    cases type with
    | add =>
      refine ((first _).bind (.emit ((second _).bind (.emit (drafts_emit _ _ _ _ _))))).of_iff
        (fun _ => ?_) ?_
      · rw [and_true]
      · simp [expCode, combine]
    | sub =>
      refine ((first _).bind (.emit ((second _).bind (.emit (drafts_emit _ _ _ _ _))))).of_iff
        (fun _ => ?_) ?_
      · rw [and_true]
      · simp [expCode, combine]
    | times =>
      refine ((first _).bind (.emit ((second _).bind (.emit (drafts_emit _ _ _ _ _))))).of_iff
        (fun _ => ?_) ?_
      · rw [and_true]
      · simp [expCode, combine]
    | div =>
      refine ((first _).bind (.emit ((second _).bind (.emit (.emit (.emit
        (drafts_emit _ _ _ _ _))))))).of_iff (fun _ => ?_) ?_
      · rw [and_true]
      · simp [expCode, combine]

theorem drafts_compileStm (stm : Stm) :
    Drafts (compileStm stm) ⟨added, passed, offset, out⟩
      ((added ++ stm.assigned).eraseDups.length ≤ maxVar ∧ stm.Short 1004 1004)
      ⟨added ++ stm.assigned, passed, offset, out ++ (stmCode stm).map .instr⟩ := by
  induction stm generalizing added out with
  | assign x exp =>
    refine ((drafts_setAdd x added passed offset out).bind
      ((drafts_compileExp _ passed offset _ exp).bind
        (drafts_emitName Instr.render _ _ _ _ _))).of_iff (fun _ => ?_) ?_
    · rw [inInstr_store, Stm.Short, Stm.assigned, Stm.reads, List.forall_mem_singleton,
        and_comm (b := x.utf8ByteSize ≤ 1004)]
    · simp [stmCode, Stm.assigned]
  | print exp =>
    refine ((drafts_compileExp added passed offset out exp).bind
      (.emit (.emit (drafts_emit _ _ _ _ _)))).of_iff (fun fits => ?_) ?_
    · have few : added.eraseDups.length ≤ maxVar := fits
      simp [Stm.Short, Stm.assigned, Stm.reads, few]
    · simp [stmCode, Stm.assigned]
  | seq left right first second =>
    refine ((first added out).bind (second _ _)).of_iff (fun _ => ?_) ?_
    · exact fits_seq added left right _ _
    · simp [stmCode, Stm.assigned]

/-- `compile` does the same in every process: it resets the set. -/
theorem ends_compile (prog : Stm) (compiler : Compiler Instr) :
    Ends (compile prog) compiler (prog.assigned.toFinset.card ≤ maxVar ∧ Short prog)
      ⟨prog.assigned, (dataVars prog).length, compiler.stackoffset, compiler.out ++ text prog⟩ := by
  have reset : Ends setReset compiler True ⟨[], 0, compiler.stackoffset, compiler.out⟩ :=
    .inl ⟨trivial, _, rfl, stores_setReset compiler.set, rfl, rfl⟩
  unfold compile
  refine (reset.bind <| .emit <| .emit <| .emit <| .emit <| .emit <| .emit <| .emit <| .emit <|
    .emit <| (drafts_compileStm _ _ _ _ prog).bind <| .emit <| .emit <|
    (drafts_emitVarsWith Instr.render _ emitVar _ _ (Nat.zero_le _)).bind
      (drafts_emit _ _ _ _ _)).of_iff ?_ ?_
  · simp only [List.nil_append, List.drop_zero, inInstr_emitVar, List.mem_eraseDups,
      length_eraseDups, true_and, and_true]
    refine and_iff_left_of_imp fun fits x member => (fits.2.1 x member).trans (by decide)
  · simp [text, header, trailer, mainCode, prologue, dataVars]

end Drafts

/-- A fresh process writes the text, unless it would come to the end of an array. -/
theorem assembly_eq_some (prog : Stm) (lines : List (Line Instr)) :
    assembly prog = some lines ↔
      (prog.assigned.toFinset.card ≤ maxVar ∧ Short prog) ∧ text prog = lines :=
  (ends_compile prog .fresh).out_iff

theorem assembly_assignXs {lines : List (Line Instr)} : assembly (assignXs 1006) ≠ some lines := by
  rw [Ne, assembly_eq_some]
  rintro ⟨⟨-, assigned, -⟩, -⟩
  have short := assigned _ (List.mem_singleton_self _)
  rw [utf8ByteSize_xs] at short
  omega

end CssLab.Mcc.X64
