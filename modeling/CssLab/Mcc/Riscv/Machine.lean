import CssLab.Mcc.Riscv.Compile

/-! RV64 as far as mcc uses it: registers, byte memory and the log of `printf`
calls, the effect of one instruction, and the process image a loaded program
starts in. -/

namespace CssLab.Mcc.Riscv

open CssLab.Assembly CssLab.Memory

structure State where
  regs : Reg → BitVec 64
  memory : Bytes
  calls : List Call

def State.set (state : State) (reg : Reg) (value : BitVec 64) : State :=
  { state with regs := fun other => if other = reg then value else state.regs other }

@[simp] theorem State.set_regs (state : State) (reg : Reg) (value : BitVec 64) (other : Reg) :
    (state.set reg value).regs other = if other = reg then value else state.regs other := rfl

@[simp] theorem State.set_memory (state : State) (reg : Reg) (value : BitVec 64) :
    (state.set reg value).memory = state.memory := rfl

@[simp] theorem State.set_calls (state : State) (reg : Reg) (value : BitVec 64) :
    (state.set reg value).calls = state.calls := rfl

/-- What the linker and the C library add: the addresses of the symbols, and
what `printf` does to the state (which includes the call log, so that different
calls may behave differently). -/
structure Env where
  symbol : Symbols
  printf : State → State

def State.address (state : State) (base : Reg) (offset : Int) : Nat :=
  (state.regs base + BitVec.ofInt 64 offset).toNat

def State.low (state : State) (reg : Reg) : BitVec 32 := (state.regs reg).setWidth 32

/-- `divw`: truncating, `-1` for a zero divisor, `INT_MIN` for `INT_MIN / -1`. -/
def divw (x y : BitVec 32) : BitVec 32 :=
  if y = 0 then -1
  else if x = BitVec.intMin 32 ∧ y = -1 then BitVec.intMin 32
  else BitVec.ofInt 32 (x.toInt.tdiv y.toInt)

/-- The effect of one instruction. Only `printf` can be called; the return
address `call` leaves in `ra` is one more thing `printf` may change. -/
def step (env : Env) : Instr → State → Option State
  | .li rd imm, state => some (state.set rd (BitVec.ofInt 64 imm))
  | .lla rd symbol, state => some (state.set rd (env.symbol symbol))
  | .lw rd offset base, state =>
    some (state.set rd
      ((BitVec.ofNat 32 (load state.memory (state.address base offset) 4)).signExtend 64))
  | .sw rs offset base, state =>
    some { state with
      memory := store state.memory (state.address base offset) 4 (state.regs rs).toNat }
  | .ld rd offset base, state =>
    some (state.set rd (BitVec.ofNat 64 (load state.memory (state.address base offset) 8)))
  | .sd rs offset base, state =>
    some { state with
      memory := store state.memory (state.address base offset) 8 (state.regs rs).toNat }
  | .addi rd rs imm, state => some (state.set rd (state.regs rs + BitVec.ofInt 64 imm))
  | .addw rd rs1 rs2, state =>
    some (state.set rd ((state.low rs1 + state.low rs2).signExtend 64))
  | .subw rd rs1 rs2, state =>
    some (state.set rd ((state.low rs1 - state.low rs2).signExtend 64))
  | .mulw rd rs1 rs2, state =>
    some (state.set rd ((state.low rs1 * state.low rs2).signExtend 64))
  | .divw rd rs1 rs2, state =>
    some (state.set rd ((divw (state.low rs1) (state.low rs2)).signExtend 64))
  | .mv rd rs, state => some (state.set rd (state.regs rs))
  | .call symbol, state =>
    if symbol = "printf" then
      some (env.printf { state with calls := state.calls ++ [⟨state.regs .a0, state.low .a1⟩] })
    else none
  | .jr _, _ => none

def cpu (env : Env) : Processor Instr State where
  step := step env
  returns
    | .jr _ => true
    | _ => false

/-- Run the emitted text from the label `main` to its `jr`. -/
def runMain (env : Env) (text : List (Line Instr)) (state : State) : Option State :=
  run (cpu env) (entry "main" text) state

/-- What `printf` keeps: `sp`, `s0`, the memory at and above `sp`, the objects. -/
structure PrintfAbi (env : Env) (text : List (Line Instr)) : Prop where
  sp : ∀ state, (env.printf state).regs .sp = state.regs .sp
  s0 : ∀ state, (env.printf state).regs .s0 = state.regs .s0
  stack : ∀ state place, (state.regs .sp).toNat ≤ place →
    (env.printf state).memory place = state.memory place
  vars : ∀ state place, InObject env.symbol text place →
    (env.printf state).memory place = state.memory place
  calls : ∀ state, (env.printf state).calls = state.calls

/-! ### The text as the machine sees it -/

theorem code_trailer (vars : List String) : code (trailer vars) = [] := by
  have rest : code (vars.flatMap emitVar) = [] := code_flatMap (fun _ => rfl) _
  simpa [trailer, code] using rest

theorem labels_trailer (vars : List String) : labels (trailer vars) = vars := by
  have rest : labels (vars.flatMap emitVar) = vars := labels_flatMap (fun _ => rfl) _
  simpa [trailer, labels] using rest

theorem entry_text (prog : Stm) :
    entry "main" (text prog) = mainCode prog ++ [.jr .ra] := by
  rw [text, textWith, entry]
  have skipped (tail : List (Line Instr)) :
      (header ++ tail).dropWhile (fun line => !line.defines "main") = .label "main" "" :: tail := by
    simp [header, Line.defines]
  rw [skipped]
  change code ((mainCode prog ++ [Instr.jr .ra]).map .instr ++ trailer (dataVars prog)) = _
  rw [code_append, code_instrs, code_trailer, List.append_nil]

/-- What an instruction of an expression can be: no return, and a symbol only
if the expression reads it. -/
theorem instr_expCode (env : Env) (exp : Exp) (offset : Int) : ∀ instr ∈ expCode offset exp,
    (cpu env).returns instr = false ∧ ∀ name ∈ instr.refers, name ∈ exp.reads := by
  induction exp generalizing offset with
  | num n => simp [expCode, cpu, Instr.refers]
  | var x => simp [expCode, cpu, Instr.refers, Exp.reads]
  | bin type left right first second =>
    intro instr member
    simp only [expCode, List.mem_append, List.mem_cons] at member
    rcases member with inLeft | rfl | inRight | rfl | rfl | none
    · obtain ⟨stays, reads⟩ := first offset instr inLeft
      exact ⟨stays, fun name refers => List.mem_append_left _ (reads name refers)⟩
    · exact ⟨rfl, by simp [Instr.refers]⟩
    · obtain ⟨stays, reads⟩ := second (offset + 1) instr inRight
      exact ⟨stays, fun name refers => List.mem_append_right _ (reads name refers)⟩
    · exact ⟨rfl, by simp [Instr.refers]⟩
    · cases type <;> exact ⟨rfl, by simp [combine, Instr.refers]⟩
    · exact absurd none List.not_mem_nil

theorem instr_stmCode (env : Env) (stm : Stm) (offset : Int) : ∀ instr ∈ stmCode offset stm,
    (cpu env).returns instr = false ∧ ∀ name ∈ instr.refers,
      name ∈ stm.reads ∨ name ∈ stm.assigned ∨ name = "mcc_format" ∨ name = "printf" := by
  apply refers_of_parts
  · exact fun _ _ => rfl
  · intro x exp instr member
    rcases List.mem_append.mp member with inExp | store
    · obtain ⟨stays, reads⟩ := instr_expCode env exp offset instr inExp
      exact ⟨stays, fun name refers => .inl (reads name refers)⟩
    · simp only [List.mem_cons, List.not_mem_nil, or_false] at store
      rcases store with rfl | rfl <;> exact ⟨rfl, by simp [Instr.refers]⟩
  · intro exp instr member
    rcases List.mem_append.mp member with inExp | call
    · obtain ⟨stays, reads⟩ := instr_expCode env exp offset instr inExp
      exact ⟨stays, fun name refers => .inl (reads name refers)⟩
    · simp only [List.mem_cons, List.not_mem_nil, or_false] at call
      rcases call with rfl | rfl <;> exact ⟨rfl, by simp [Instr.refers]⟩

theorem runMain_text (env : Env) (prog : Stm) (state : State) :
    runMain env (text prog) state = exec (cpu env) (mainCode prog) state := by
  rw [runMain, entry_text]
  apply run_eq_exec _ _ _ _ _ rfl
  intro instr member
  simp only [mainCode, List.mem_append] at member
  rcases member with (start | inside) | finish
  · simp only [prologue, List.mem_cons, List.not_mem_nil, or_false] at start
    rcases start with rfl | rfl | rfl | rfl <;> rfl
  · exact (instr_stmCode env prog 4 instr inside).1
  · simp only [epilogue, List.mem_cons, List.not_mem_nil, or_false] at finish
    rcases finish with rfl | rfl | rfl | rfl | rfl <;> rfl

theorem objects_text (prog : Stm) :
    objects (text prog) = (dataVars prog).map fun x => (x, 4) := by
  rw [text, textWith]
  change objects ((mainCode prog ++ [Instr.jr .ra]).map .instr ++ trailer (dataVars prog)) = _
  rw [objects_instrs]
  exact (objects_flatMap (fun _ _ => rfl) (dataVars prog) _).trans (List.append_nil _)

theorem labels_text (prog : Stm) :
    labels (text prog) = "mcc_format" :: "main" :: dataVars prog := by
  rw [text, textWith, labels_append, labels_append, labels_instrs, labels_trailer]
  rfl

theorem code_text (prog : Stm) : code (text prog) = mainCode prog ++ [.jr .ra] := by
  rw [text, textWith, code_append, code_append, code_instrs, code_trailer, List.append_nil]
  rfl

theorem refers_text (prog : Stm) : ∀ instr ∈ code (text prog), ∀ name ∈ instr.refers,
    name ∈ prog.reads ∨ name ∈ prog.assigned ∨ name = "mcc_format" ∨ name = "printf" := by
  intro instr member
  let env : Env := ⟨fun _ => 0, id⟩
  simp only [code_text, mainCode, prologue, epilogue, List.mem_append, List.mem_cons,
    List.not_mem_nil, or_false] at member
  rcases member with ((start | inside) | finish) | rfl
  · rcases start with rfl | rfl | rfl | rfl <;> simp [Instr.refers]
  · exact (instr_stmCode env prog 4 instr inside).2
  · rcases finish with rfl | rfl | rfl | rfl | rfl <;> simp [Instr.refers]
  · simp [Instr.refers]

/-- Without a reserved or an unassigned name the text assembles and links. -/
theorem links_text {prog : Stm} (closed : prog.Closed)
    (free : ∀ x ∈ prog.names, x ∉ reserved) : Links Instr.refers ["printf"] (text prog) :=
  links_of_named (labels_text prog) (refers_text prog) (.of_closed closed free)

theorem reads_expCode (exp : Exp) (offset : Int) (read : x ∈ exp.reads) :
    ∃ instr ∈ expCode offset exp, x ∈ instr.refers := by
  induction exp generalizing offset with
  | num n => simp [Exp.reads] at read
  | var y => exact ⟨.lla .a3 y, by simp [expCode], read⟩
  | bin type left right first second =>
    rcases List.mem_append.mp read with inLeft | inRight
    · obtain ⟨instr, inside, refers⟩ := first offset inLeft
      exact ⟨instr, by simp [expCode, inside], refers⟩
    · obtain ⟨instr, inside, refers⟩ := second (offset + 1) inRight
      exact ⟨instr, by simp [expCode, inside], refers⟩

theorem reads_stmCode (stm : Stm) (offset : Int) (read : x ∈ stm.reads) :
    ∃ instr ∈ stmCode offset stm, x ∈ instr.refers := by
  apply reads_of_parts (expCode offset)
  · exact fun exp x read => reads_expCode exp offset read
  · exact fun _ _ => rfl
  · exact fun _ _ => List.subset_append_left _ _
  · exact fun _ => List.subset_append_left _ _
  · exact read

theorem links_iff (prog : Stm) : Links Instr.refers ["printf"] (text prog) ↔ prog.Named := by
  refine ⟨named_of_links (labels_text prog) fun x read => ?_,
    links_of_named (labels_text prog) (refers_text prog)⟩
  obtain ⟨instr, inside, refers⟩ := reads_stmCode prog 4 read
  exact ⟨instr, by simp [code_text, mainCode, inside], refers⟩

end CssLab.Mcc.Riscv
