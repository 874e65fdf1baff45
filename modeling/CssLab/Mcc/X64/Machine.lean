import CssLab.Mcc.X64.Compile
import Mathlib.Algebra.Group.Int.Defs

/-! x86-64 as far as mcc uses it: registers, byte memory and the log of `printf`
calls, and the effect of one instruction. -/

namespace CssLab.Mcc.X64

open CssLab.Assembly CssLab.Memory

structure State where
  regs : Reg → BitVec 64
  memory : Bytes
  calls : List Call

def State.set (state : State) (reg : Reg) (value : BitVec 64) : State :=
  { state with regs := fun other => if other = reg then value else state.regs other }

@[simp] theorem State.set_regs (state : State) (reg : Reg) (value : BitVec 64) (other : Reg) :
    (state.set reg value).regs other = if other = reg then value else state.regs other := rfl

@[simp] theorem State.set_memory (state : State) (reg : Reg) (value : BitVec 64) :
    (state.set reg value).memory = state.memory := rfl

@[simp] theorem State.set_calls (state : State) (reg : Reg) (value : BitVec 64) :
    (state.set reg value).calls = state.calls := rfl

/-- What the linker and the C library add: the addresses of the symbols, and
what `printf` does to the state. -/
structure Env where
  symbol : Symbols
  printf : State → State

/-- `idivq`: the quotient of `rdx:rax`, truncating. It traps for a zero divisor
and for a quotient that does not fit. -/
def idivq (state : State) (src : Reg) : Option State :=
  let dividend := (state.regs .rdx ++ state.regs .rax).toInt
  let divisor := (state.regs src).toInt
  let quotient := dividend.tdiv divisor
  if divisor = 0 ∨ quotient < -2 ^ 63 ∨ 2 ^ 63 ≤ quotient then none
  else some ((state.set .rax (BitVec.ofInt 64 quotient)).set .rdx
    (BitVec.ofInt 64 (dividend.tmod divisor)))

/-- The effect of one instruction. Only `printf` can be called; the return
address `call` leaves below `rsp` is part of what `printf` may overwrite. -/
def step (env : Env) : Instr → State → Option State
  | .movImm imm dst, state => some (state.set dst (BitVec.ofInt 64 imm))
  | .load symbol dst, state =>
    some (state.set dst (BitVec.ofNat 64 (load state.memory (env.symbol symbol).toNat 8)))
  | .store src symbol, state =>
    some { state with
      memory := store state.memory (env.symbol symbol).toNat 8 (state.regs src).toNat }
  | .mov _ src dst, state => some (state.set dst (state.regs src))
  | .lea symbol dst, state => some (state.set dst (env.symbol symbol))
  | .push _ src, state =>
    let top := state.regs .rsp - 8
    some ({ state with
      memory := store state.memory top.toNat 8 (state.regs src).toNat }.set .rsp top)
  | .pop _ dst, state =>
    some ((state.set .rsp (state.regs .rsp + 8)).set dst
      (BitVec.ofNat 64 (load state.memory (state.regs .rsp).toNat 8)))
  | .addq src dst, state => some (state.set dst (state.regs dst + state.regs src))
  | .subq src dst, state => some (state.set dst (state.regs dst - state.regs src))
  | .imulq src dst, state => some (state.set dst (state.regs dst * state.regs src))
  | .xchg first second, state =>
    some ((state.set first (state.regs second)).set second (state.regs first))
  | .cqto, state => some (state.set .rdx (if (state.regs .rax).msb then -1 else 0))
  | .idivq src, state => idivq state src
  | .call symbol, state =>
    if symbol = "printf" then
      some (env.printf { state with
        calls := state.calls ++ [⟨state.regs .rdi, (state.regs .rsi).setWidth 32⟩] })
    else none
  | .ret, _ => none

def cpu (env : Env) : Processor Instr State where
  step := step env
  returns
    | .ret => true
    | _ => false

/-- Run the emitted text from the label `main` to its `ret`. -/
def runMain (env : Env) (text : List (Line Instr)) (state : State) : Option State :=
  run (cpu env) (entry "main" text) state

/-- What `printf` keeps: the callee-saved registers, the memory at and above
`rsp`, the objects. -/
structure PrintfAbi (env : Env) (text : List (Line Instr)) : Prop where
  rsp : ∀ state, (env.printf state).regs .rsp = state.regs .rsp
  rbp : ∀ state, (env.printf state).regs .rbp = state.regs .rbp
  rbx : ∀ state, (env.printf state).regs .rbx = state.regs .rbx
  stack : ∀ state place, (state.regs .rsp).toNat ≤ place →
    (env.printf state).memory place = state.memory place
  vars : ∀ state place, InObject env.symbol text place →
    (env.printf state).memory place = state.memory place
  calls : ∀ state, (env.printf state).calls = state.calls

/-! ### The text as the machine sees it -/

theorem code_trailer (prog : Stm) : code (trailer prog) = [] := by
  have rest : code ((dataVars prog).flatMap emitVar) = [] := code_flatMap (fun _ => rfl) _
  simpa [trailer, code] using rest

theorem labels_trailer (prog : Stm) : labels (trailer prog) = dataVars prog := by
  have rest : labels ((dataVars prog).flatMap emitVar) = dataVars prog :=
    labels_flatMap (fun _ => rfl) _
  simpa [trailer, labels] using rest

theorem entry_text (prog : Stm) : entry "main" (text prog) = mainCode prog ++ [.ret] := by
  rw [text, entry]
  have skipped (tail : List (Line Instr)) :
      (header ++ tail).dropWhile (fun line => !line.defines "main") = .label "main" "" :: tail := by
    simp [header, Line.defines]
  rw [skipped]
  change code ((mainCode prog ++ [Instr.ret]).map .instr ++ trailer prog) = _
  rw [code_append, code_instrs, code_trailer, List.append_nil]

theorem code_text (prog : Stm) : code (text prog) = mainCode prog ++ [.ret] := by
  rw [text, code_append, code_append, code_instrs, code_trailer, List.append_nil]
  rfl

theorem objects_text (prog : Stm) :
    objects (text prog) = (dataVars prog).map fun x => (x, 8) := by
  rw [text]
  change objects ((mainCode prog ++ [Instr.ret]).map .instr ++ trailer prog) = _
  rw [objects_instrs]
  exact (objects_flatMap (fun _ _ => rfl) (dataVars prog) _).trans (List.append_nil _)

theorem labels_text (prog : Stm) :
    labels (text prog) = "mcc_format" :: "main" :: dataVars prog := by
  rw [text, labels_append, labels_append, labels_instrs, labels_trailer]
  rfl

/-- What an instruction of an expression can be: no return, and a symbol only
if the expression reads it. -/
theorem instr_expCode (env : Env) (exp : Exp) : ∀ instr ∈ expCode exp,
    (cpu env).returns instr = false ∧ ∀ name ∈ instr.refers, name ∈ exp.reads := by
  induction exp with
  | num n => simp [expCode, cpu, Instr.refers]
  | var x => simp [expCode, cpu, Instr.refers, Exp.reads]
  | bin type left right first second =>
    intro instr member
    simp only [expCode, List.mem_append, List.mem_cons] at member
    rcases member with inLeft | rfl | inRight | rfl | last
    · obtain ⟨stays, reads⟩ := first instr inLeft
      exact ⟨stays, fun name refers => List.mem_append_left _ (reads name refers)⟩
    · exact ⟨rfl, by simp [Instr.refers]⟩
    · obtain ⟨stays, reads⟩ := second instr inRight
      exact ⟨stays, fun name refers => List.mem_append_right _ (reads name refers)⟩
    · exact ⟨rfl, by simp [Instr.refers]⟩
    · cases type <;> simp only [combine, List.mem_cons, List.not_mem_nil, or_false] at last
      · subst last
        exact ⟨rfl, by simp [Instr.refers]⟩
      · subst last
        exact ⟨rfl, by simp [Instr.refers]⟩
      · subst last
        exact ⟨rfl, by simp [Instr.refers]⟩
      · rcases last with rfl | rfl | rfl <;> exact ⟨rfl, by simp [Instr.refers]⟩

theorem instr_stmCode (env : Env) (stm : Stm) : ∀ instr ∈ stmCode stm,
    (cpu env).returns instr = false ∧ ∀ name ∈ instr.refers,
      name ∈ stm.reads ∨ name ∈ stm.assigned ∨ name = "mcc_format" ∨ name = "printf" := by
  apply refers_of_parts
  · exact fun _ _ => rfl
  · intro x exp instr member
    rcases List.mem_append.mp member with inExp | store
    · obtain ⟨stays, reads⟩ := instr_expCode env exp instr inExp
      exact ⟨stays, fun name refers => .inl (reads name refers)⟩
    · rw [List.mem_singleton.mp store]
      exact ⟨rfl, by simp [Instr.refers]⟩
  · intro exp instr member
    rcases List.mem_append.mp member with inExp | call
    · obtain ⟨stays, reads⟩ := instr_expCode env exp instr inExp
      exact ⟨stays, fun name refers => .inl (reads name refers)⟩
    · simp only [List.mem_cons, List.not_mem_nil, or_false] at call
      rcases call with rfl | rfl | rfl <;> exact ⟨rfl, by simp [Instr.refers]⟩

theorem runMain_text (env : Env) (prog : Stm) (state : State) :
    runMain env (text prog) state = exec (cpu env) (mainCode prog) state := by
  rw [runMain, entry_text]
  apply run_eq_exec _ _ _ _ _ rfl
  intro instr member
  simp only [mainCode, prologue, List.mem_append, List.mem_cons, List.not_mem_nil,
    or_false] at member
  rcases member with ((rfl | rfl) | inside) | rfl
  · rfl
  · rfl
  · exact (instr_stmCode env prog instr inside).1
  · rfl

theorem refers_text (prog : Stm) : ∀ instr ∈ code (text prog), ∀ name ∈ instr.refers,
    name ∈ prog.reads ∨ name ∈ prog.assigned ∨ name = "mcc_format" ∨ name = "printf" := by
  intro instr member
  let env : Env := ⟨fun _ => 0, id⟩
  simp only [code_text, mainCode, prologue, List.mem_append, List.mem_cons, List.not_mem_nil,
    or_false] at member
  rcases member with (((rfl | rfl) | inside) | rfl) | rfl
  · simp [Instr.refers]
  · simp [Instr.refers]
  · exact (instr_stmCode env prog instr inside).2
  · simp [Instr.refers]
  · simp [Instr.refers]

/-- Without a reserved or an unassigned name the text assembles and links. -/
theorem links_text {prog : Stm} (closed : prog.Closed)
    (free : ∀ x ∈ prog.names, x ∉ reserved) : Links Instr.refers ["printf"] (text prog) :=
  links_of_named (labels_text prog) (refers_text prog) (.of_closed closed free)

theorem reads_expCode (exp : Exp) (read : x ∈ exp.reads) :
    ∃ instr ∈ expCode exp, x ∈ instr.refers := by
  induction exp with
  | num n => simp [Exp.reads] at read
  | var y => exact ⟨.load y .rax, by simp [expCode], read⟩
  | bin type left right first second =>
    rcases List.mem_append.mp read with inLeft | inRight
    · obtain ⟨instr, inside, refers⟩ := first inLeft
      exact ⟨instr, by simp [expCode, inside], refers⟩
    · obtain ⟨instr, inside, refers⟩ := second inRight
      exact ⟨instr, by simp [expCode, inside], refers⟩

theorem reads_stmCode (stm : Stm) (read : x ∈ stm.reads) :
    ∃ instr ∈ stmCode stm, x ∈ instr.refers := by
  apply reads_of_parts expCode
  · exact fun exp x read => reads_expCode exp read
  · exact fun _ _ => rfl
  · exact fun _ _ => List.subset_append_left _ _
  · exact fun _ => List.subset_append_left _ _
  · exact read

theorem links_iff (prog : Stm) : Links Instr.refers ["printf"] (text prog) ↔ prog.Named := by
  refine ⟨named_of_links (labels_text prog) fun x read => ?_,
    links_of_named (labels_text prog) (refers_text prog)⟩
  obtain ⟨instr, inside, refers⟩ := reads_stmCode prog read
  exact ⟨instr, by simp [code_text, mainCode, inside], refers⟩

end CssLab.Mcc.X64
