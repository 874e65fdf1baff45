import CssLab.Mcc.X64.Correct

namespace CssLab.Mcc.X64

open CssLab.Assembly CssLab.Memory

/-- The subexpressions of an expression, each with the code that runs before its own. -/
def occurrences : Exp → List (List Instr × Exp)
  | .num n => [([], .num n)]
  | .var x => [([], .var x)]
  | .bin type left right =>
    ([], .bin type left right) :: (occurrences left ++
      (occurrences right).map fun (before, exp) =>
        (expCode left ++ .push "push " .rax :: before, exp))

def occurrencesStm : Stm → List (List Instr × Exp)
  | .assign _ exp => occurrences exp
  | .print exp => occurrences exp
  | .seq left right =>
    occurrencesStm left ++
      (occurrencesStm right).map fun (before, exp) => (stmCode left ++ before, exp)

/-- No `idivq` traps. -/
def Untrapped : Instr → State → Prop
  | .idivq src, state => (idivq state src).isSome
  | _, _ => True

instance (instr : Instr) (state : State) : Decidable (Untrapped instr state) :=
  match instr with
  | .idivq src => inferInstanceAs (Decidable (idivq state src).isSome)
  | .movImm .. | .load .. | .store .. | .mov .. | .lea .. | .push .. | .pop .. | .addq ..
  | .subq .. | .imulq .. | .xchg .. | .cqto | .call .. | .ret => .isTrue trivial

/-- What the instructions that hand over control, and the one that restores `rbp`, find
when `main` was called in the state `start` and its prologue left the state `body`. -/
def Disciplined (start body : State) : Instr → State → Prop
  | .call _, state => state.regs .rsp = body.regs .rsp ∧ (state.regs .rsp).toNat % 16 = 0
  | .pop _ .rbp, state => load state.memory (state.regs .rsp).toNat 8 = (start.regs .rbp).toNat
  | .ret, state =>
    state.regs .rsp = start.regs .rsp ∧ state.regs .rbp = start.regs .rbp ∧
      load state.memory (state.regs .rsp).toNat 8 =
        load start.memory (start.regs .rsp).toNat 8
  | _, _ => True

theorem spares_idivq {state after : State} (top : Nat) (ran : idivq state src = some after) :
    Spares top top state after := by
  dsimp only [idivq] at ran
  split at ran
  · cases ran
  · cases ran
    exact (Spares.set state _ (.inl rfl)).trans (.set _ _ (.inr (.inr rfl)))

/-- An instruction of an expression: no call, no return, and `rbp` is not its business. -/
def Instr.Simple : Instr → Prop
  | .call _ => False
  | .ret => False
  | .pop _ .rbp => False
  | _ => True

theorem spares_combine {env : Env} {type : BinType} {state after : State} (top : Nat)
    (ran : exec (cpu env) (combine type) state = some after) : Spares top top state after := by
  cases type with
  | add =>
    cases ran
    exact .set state _ (.inl rfl)
  | sub =>
    cases ran
    exact .set state _ (.inl rfl)
  | times =>
    cases ran
    exact .set state _ (.inl rfl)
  | div =>
    let swapped := (state.set .rax (state.regs .rbx)).set .rbx (state.regs .rax)
    let ready := swapped.set .rdx (if (swapped.regs .rax).msb then -1 else 0)
    have code : exec (cpu env) (combine .div) state = idivq ready .rbx := by
      simp [exec, combine, cpu, step, ready, swapped]
    have moved : Spares top top state ready :=
      ((Spares.set state _ (.inl rfl)).trans (.set _ _ (.inr (.inl rfl)))).trans
        (.set _ _ (.inr (.inr rfl)))
    exact moved.trans (spares_idivq top (code.symm.trans ran))

/-- The code of an expression leaves `rsp` and the stack above it as they were. -/
theorem spares_expCode {env : Env} (exp : Exp) {state after : State}
    (room : 8 * spills exp ≤ (state.regs .rsp).toNat)
    (ran : exec (cpu env) (expCode exp) state = some after) :
    Spares ((state.regs .rsp).toNat - 8 * spills exp) (state.regs .rsp).toNat state after := by
  induction exp generalizing state after with
  | num n =>
    cases ran
    exact .set state _ (.inl rfl)
  | var x =>
    cases ran
    exact .set state _ (.inl rfl)
  | bin type left right first second =>
    have deep : spills (.bin type left right) = max (spills left) (spills right + 1) := rfl
    rw [expCode, exec_append_eq_some] at ran
    obtain ⟨one, ran1, rest⟩ := ran
    obtain ⟨two, push, room2, popped, -⟩ := spill_left room (first (by omega) ran1)
    rw [exec_cons_some push, exec_append_eq_some] at rest
    obtain ⟨three, ran3, rest⟩ := rest
    obtain ⟨four, pop, _, _, spares4⟩ := popped three (second room2 ran3)
    rw [exec_cons_some pop] at rest
    exact spares4.trans ((spares_combine (state.regs .rsp).toNat rest).mono (by omega)
      (Nat.le_refl _))

theorem room_occurrences {env : Env} (exp : Exp) {before : List Instr} {inner : Exp}
    {state one : State}
    (room : 8 * spills exp ≤ (state.regs .rsp).toNat) (member : (before, inner) ∈ occurrences exp)
    (ran : exec (cpu env) before state = some one) :
    8 * spills inner ≤ (one.regs .rsp).toNat := by
  induction exp generalizing state before with
  | num n =>
    obtain ⟨rfl, rfl⟩ := Prod.mk.inj (List.mem_singleton.mp member)
    cases ran
    exact room
  | var x =>
    obtain ⟨rfl, rfl⟩ := Prod.mk.inj (List.mem_singleton.mp member)
    cases ran
    exact room
  | bin type left right first second =>
    have deep : spills (.bin type left right) = max (spills left) (spills right + 1) := rfl
    simp only [occurrences, List.mem_cons, List.mem_append, List.mem_map] at member
    rcases member with itself | inLeft | ⟨⟨behind, other⟩, inRight, same⟩
    · obtain ⟨rfl, rfl⟩ := Prod.mk.inj itself
      cases ran
      exact room
    · exact first (by omega) inLeft ran
    · obtain ⟨rfl, rfl⟩ := Prod.mk.inj same
      obtain ⟨middle, ran1, rest⟩ := exec_append_eq_some.mp ran
      have rsp1 := (spares_expCode left (by omega) ran1).rsp
      obtain ⟨two, push, rsp2, _⟩ :=
        @exec_spill (state.regs .rsp).toNat 0 env middle (by rw [rsp1]) (by omega)
      rw [exec_cons_some push] at rest
      exact second (by omega) inRight rest

/-- The code of an occurrence stands behind the code before it. -/
theorem split_occurrences (exp : Exp) {before : List Instr} {inner : Exp}
    (member : (before, inner) ∈ occurrences exp) :
    ∃ rest, expCode exp = before ++ (expCode inner ++ rest) := by
  induction exp generalizing before with
  | num n =>
    obtain ⟨rfl, rfl⟩ := Prod.mk.inj (List.mem_singleton.mp member)
    exact ⟨[], by simp⟩
  | var x =>
    obtain ⟨rfl, rfl⟩ := Prod.mk.inj (List.mem_singleton.mp member)
    exact ⟨[], by simp⟩
  | bin type left right first second =>
    simp only [occurrences, List.mem_cons, List.mem_append, List.mem_map] at member
    rcases member with itself | inLeft | ⟨⟨behind, other⟩, inRight, same⟩
    · obtain ⟨rfl, rfl⟩ := Prod.mk.inj itself
      exact ⟨[], by simp⟩
    · obtain ⟨rest, split⟩ := first inLeft
      exact ⟨rest ++ .push "push " .rax :: (expCode right ++ .pop "pop " .rbx :: combine type),
        by simp [expCode, split]⟩
    · obtain ⟨rfl, rfl⟩ := Prod.mk.inj same
      obtain ⟨rest, split⟩ := second inRight
      exact ⟨rest ++ .pop "pop " .rbx :: combine type, by simp [expCode, split]⟩

/-- What holds between the prologue and the `popq` when `main` was called in `start`. -/
structure Body (start state : State) : Prop where
  rsp : state.regs .rsp = start.regs .rsp - 8
  saved : load state.memory ((start.regs .rsp).toNat - 8) 8 = (start.regs .rbp).toNat
  back : load state.memory (start.regs .rsp).toNat 8 = load start.memory (start.regs .rsp).toNat 8

section Main

variable {env : Env} {prog : Stm} {start state after : State}

theorem Body.top (body : Body start state) (room : 8 ≤ (start.regs .rsp).toNat) :
    (state.regs .rsp).toNat = (start.regs .rsp).toNat - 8 := by
  have bound := (start.regs .rsp).isLt
  rw [body.rsp, BitVec.toNat_sub]
  simp only [BitVec.reduceToNat]
  omega

theorem Body.spares (body : Body start state)
    (spares : Spares low ((start.regs .rsp).toNat - 8) state after) : Body start after where
  rsp := spares.rsp.trans body.rsp
  saved := (spares.memory.load (.inr (Nat.le_refl _))).trans body.saved
  back := (spares.memory.load (.inr (Nat.sub_le _ _))).trans body.back

theorem Body.set (body : Body start state) (other : reg ≠ .rsp) (value : BitVec 64) :
    Body start (state.set reg value) where
  rsp := by simpa [Ne.symm other] using body.rsp
  saved := body.saved
  back := body.back

theorem Body.store (body : Body start state)
    (placed : Placed env.symbol (text prog) (frameSize prog + 8)
      ((start.regs .rsp).toNat + 8))
    (assigned : x ∈ prog.assigned) (value : Nat) :
    Body start { state with memory := store state.memory (env.symbol x).toNat 8 value } := by
  have clear := placed.offStack (x, 8)
    (by simp [objects_text, (mem_dataVars prog x).mpr assigned])
  have frame : frameSize prog = 8 + 8 * spillsStm prog := rfl
  have room := placed.room
  simp only at clear
  exact ⟨body.rsp, (load_store_apart (by omega)).trans body.saved,
    (load_store_apart (by omega)).trans body.back⟩

theorem Body.printf (body : Body start state) (abi : PrintfAbi env (text prog))
    (room : 8 ≤ (start.regs .rsp).toNat) : Body start (env.printf state) where
  rsp := (abi.rsp state).trans body.rsp
  saved := by
    have top := body.top room
    rw [load_congr fun place lower _ => abi.stack state place (by omega)]
    exact body.saved
  back := by
    have top := body.top room
    rw [load_congr fun place lower _ => abi.stack state place (by omega)]
    exact body.back

theorem simple_expCode (exp : Exp) : ∀ instr ∈ expCode exp, instr.Simple := by
  induction exp with
  | num n => simp [expCode, Instr.Simple]
  | var x => simp [expCode, Instr.Simple]
  | bin type left right first second =>
    intro instr member
    simp only [expCode, List.mem_append, List.mem_cons] at member
    rcases member with inLeft | rfl | inRight | rfl | last
    · exact first instr inLeft
    · trivial
    · exact second instr inRight
    · trivial
    · cases type <;> simp only [combine, List.mem_cons, List.not_mem_nil, or_false] at last
      · subst last
        trivial
      · subst last
        trivial
      · subst last
        trivial
      · rcases last with rfl | rfl | rfl <;> trivial

theorem Instr.Simple.disciplined {instr : Instr} (simple : instr.Simple)
    (start body state : State) : Disciplined start body instr state := by
  cases instr with
  | pop mnemonic dst =>
    cases dst with
    | rbp => exact simple.elim
    | rax | rbx | rdx | rsi | rdi | rsp => trivial
  | call | ret => exact simple.elim
  | movImm | load | store | mov | lea | push | addq | subq | imulq | xchg | cqto | idivq => trivial

theorem Instr.Simple.steps {instr : Instr} (simple : instr.Simple) {state : State}
    (untrapped : Untrapped instr state) : ∃ after, (cpu env).step instr state = some after := by
  cases instr with
  | idivq src => exact Option.isSome_iff_exists.mp untrapped
  | call | ret => exact simple.elim
  | movImm | load | store | mov | lea | push | pop | addq | subq | imulq | xchg | cqto =>
    exact ⟨_, rfl⟩

theorem steps_stmCode (stm : Stm) : ∀ instr ∈ stmCode stm, ∀ state, Untrapped instr state →
    ∃ after, (cpu env).step instr state = some after := by
  induction stm with
  | assign x exp =>
    intro instr member state untrapped
    rcases List.mem_append.mp member with inExp | last
    · exact (simple_expCode exp instr inExp).steps untrapped
    · rw [List.mem_singleton.mp last]
      exact ⟨_, rfl⟩
  | print exp =>
    intro instr member state untrapped
    rcases List.mem_append.mp member with inExp | last
    · exact (simple_expCode exp instr inExp).steps untrapped
    · simp only [List.mem_cons, List.not_mem_nil, or_false] at last
      rcases last with rfl | rfl | rfl <;> exact ⟨_, rfl⟩
  | seq left right first second =>
    intro instr member state untrapped
    rcases List.mem_append.mp member with inLeft | inRight
    · exact first instr inLeft state untrapped
    · exact second instr inRight state untrapped

theorem body_stmCode (placed : Placed env.symbol (text prog) (frameSize prog + 8)
      ((start.regs .rsp).toNat + 8)) (abi : PrintfAbi env (text prog)) (stm : Stm)
    (room : 8 + 8 * spillsStm stm ≤ (start.regs .rsp).toNat)
    (assigned : ∀ x ∈ stm.assigned, x ∈ prog.assigned) (body : Body start state)
    (ran : exec (cpu env) (stmCode stm) state = some after) : Body start after := by
  induction stm generalizing state after with
  | assign x exp =>
    simp only [spillsStm] at room
    have top := body.top (by omega)
    obtain ⟨one, ran1, last⟩ := exec_append_eq_some.mp ran
    have spares := spares_expCode exp (by omega) ran1
    rw [top] at spares
    cases last
    exact (body.spares spares).store placed (assigned x (by simp [Stm.assigned])) _
  | print exp =>
    simp only [spillsStm] at room
    have top := body.top (by omega)
    obtain ⟨one, ran1, last⟩ := exec_append_eq_some.mp ran
    have spares := spares_expCode exp (by omega) ran1
    rw [top] at spares
    cases last
    have ready := ((body.spares spares).set (by decide : Reg.rsi ≠ .rsp) (one.regs .rax)).set
      (by decide : Reg.rdi ≠ .rsp) (env.symbol "mcc_format")
    exact Body.printf ⟨ready.rsp, ready.saved, ready.back⟩ abi (by omega)
  | seq left right first second =>
    simp only [Stm.assigned, List.mem_append, spillsStm] at assigned room
    obtain ⟨one, ran1, ran2⟩ := exec_append_eq_some.mp ran
    exact second (by omega) (fun x member => assigned x (.inr member))
      (first (by omega) (fun x member => assigned x (.inl member)) body ran1) ran2

/-- Every `printf` in the code of a statement is called with the `rsp` of the body. -/
theorem disciplined_stmCode (placed : Placed env.symbol (text prog) (frameSize prog + 8)
      ((start.regs .rsp).toNat + 8)) (abi : PrintfAbi env (text prog)) (stm : Stm)
    (room : 8 + 8 * spillsStm stm ≤ (start.regs .rsp).toNat)
    (assigned : ∀ x ∈ stm.assigned, x ∈ prog.assigned)
    (aligned : (start.regs .rsp).toNat % 16 = 8) {one : State}
    (rsp : one.regs .rsp = start.regs .rsp - 8) (body : Body start state) :
    Checked (cpu env) (Disciplined start one) (stmCode stm) state := by
  induction stm generalizing state with
  | assign x exp =>
    exact checked_append.mpr ⟨checked_of_forall fun instr member =>
      (simple_expCode exp instr member).disciplined start one,
      fun middle _ => ⟨trivial, fun _ _ => trivial⟩⟩
  | print exp =>
    simp only [spillsStm] at room
    have top := body.top (by omega)
    refine checked_append.mpr ⟨checked_of_forall fun instr member =>
      (simple_expCode exp instr member).disciplined start one, ?_⟩
    intro middle ran
    have spares := spares_expCode exp (by omega) ran
    rw [top] at spares
    have later := body.spares spares
    have top' := later.top (by omega)
    refine ⟨trivial, fun two stepped => ⟨trivial, fun three stepped' => ⟨?_, fun _ _ => trivial⟩⟩⟩
    cases stepped
    cases stepped'
    refine ⟨later.rsp.trans rsp.symm, ?_⟩
    change (middle.regs .rsp).toNat % 16 = 0
    omega
  | seq left right first second =>
    simp only [Stm.assigned, List.mem_append, spillsStm] at assigned room
    refine checked_append.mpr
      ⟨first (by omega) (fun x member => assigned x (.inl member)) body, fun middle ran => ?_⟩
    exact second (by omega) (fun x member => assigned x (.inr member))
      (body_stmCode placed abi left (by omega) (fun x member => assigned x (.inl member)) body ran)

theorem split_occurrencesStm (stm : Stm) {before : List Instr} {inner : Exp}
    (member : (before, inner) ∈ occurrencesStm stm) :
    ∃ rest, stmCode stm = before ++ (expCode inner ++ rest) := by
  induction stm generalizing before with
  | assign x exp =>
    obtain ⟨rest, split⟩ := split_occurrences exp member
    exact ⟨rest ++ [.store .rax x], by simp [stmCode, split]⟩
  | print exp =>
    obtain ⟨rest, split⟩ := split_occurrences exp member
    exact ⟨rest ++ [.mov "movq " .rax .rsi, .lea "mcc_format" .rdi, .call "printf"],
      by simp [stmCode, split]⟩
  | seq left right first second =>
    simp only [occurrencesStm, List.mem_append, List.mem_map] at member
    rcases member with inLeft | ⟨⟨behind, other⟩, inRight, same⟩
    · obtain ⟨rest, split⟩ := first inLeft
      exact ⟨rest ++ stmCode right, by simp [stmCode, split]⟩
    · obtain ⟨rfl, rfl⟩ := Prod.mk.inj same
      obtain ⟨rest, split⟩ := second inRight
      exact ⟨rest, by simp [stmCode, split]⟩

theorem room_occurrencesStm (placed : Placed env.symbol (text prog) (frameSize prog + 8)
      ((start.regs .rsp).toNat + 8)) (abi : PrintfAbi env (text prog)) (stm : Stm)
    (room : 8 + 8 * spillsStm stm ≤ (start.regs .rsp).toNat)
    (assigned : ∀ x ∈ stm.assigned, x ∈ prog.assigned) (body : Body start state)
    {before : List Instr} {inner : Exp} (member : (before, inner) ∈ occurrencesStm stm)
    (ran : exec (cpu env) before state = some after) :
    8 * spills inner ≤ (after.regs .rsp).toNat := by
  induction stm generalizing before state with
  | assign x exp =>
    simp only [spillsStm] at room
    have top := body.top (by omega)
    exact room_occurrences exp (by omega) member ran
  | print exp =>
    simp only [spillsStm] at room
    have top := body.top (by omega)
    exact room_occurrences exp (by omega) member ran
  | seq left right first second =>
    simp only [Stm.assigned, List.mem_append, spillsStm, occurrencesStm, List.mem_map] at *
    have assignedLeft : ∀ x ∈ left.assigned, x ∈ prog.assigned :=
      fun x member => assigned x (.inl member)
    rcases member with inLeft | ⟨⟨behind, other⟩, inRight, same⟩
    · exact first (by omega) assignedLeft body inLeft ran
    · obtain ⟨rfl, rfl⟩ := Prod.mk.inj same
      obtain ⟨one, ran1, ran2⟩ := exec_append_eq_some.mp ran
      exact second (by omega) (fun x member => assigned x (.inr member))
        (body_stmCode placed abi left (by omega) assignedLeft body ran1) inRight ran2

theorem Body.restore (body : Body start state) (room : 8 ≤ (start.regs .rsp).toNat) :
    ∃ after, (cpu env).step (.pop "popq    " .rbp) state = some after ∧
      after.regs .rsp = start.regs .rsp ∧ after.regs .rbp = start.regs .rbp ∧
      load after.memory (start.regs .rsp).toNat 8 =
        load start.memory (start.regs .rsp).toNat 8 := by
  have top := body.top room
  refine ⟨_, rfl, ?_, ?_, body.back⟩
  · simp only [State.set_regs, reduceCtorEq, if_false, if_true, body.rsp]
    exact BitVec.sub_add_cancel _ _
  · simp [top, body.saved]

end Main

/-- For every program of few, short names, started with a return address on a stack that
is eight bytes off a multiple of 16, and unless a division traps: every subexpression
leaves `rsp` and what is at or above it as they were, every call of `printf` finds the
aligned `rsp` of the body, and the `popq` and the `ret` at the end find what the caller
left. -/
theorem stack_discipline (prog : Stm) (few : prog.assigned.toFinset.card ≤ maxVar)
    (short : Short prog) :
    ∃ lines, assembly prog = some lines ∧ ∀ env start, PrintfAbi env lines →
      Placed env.symbol lines (frameSize prog + 8) ((start.regs .rsp).toNat + 8) →
      (start.regs .rsp).toNat % 16 = 8 →
      Checked (cpu env) Untrapped (entry "main" lines) start →
      (∀ before exp, (before, exp) ∈ occurrencesStm prog →
        ∃ one two, exec (cpu env) (prologue ++ before) start = some one ∧
          exec (cpu env) (expCode exp) one = some two ∧ two.regs .rsp = one.regs .rsp ∧
          ∀ place, (one.regs .rsp).toNat ≤ place → two.memory place = one.memory place) ∧
      ∃ body after, exec (cpu env) prologue start = some body ∧
        Checked (cpu env) (Disciplined start body) (entry "main" lines) start ∧
        runMain env lines start = some after ∧
        after.regs .rsp = start.regs .rsp ∧ after.regs .rbp = start.regs .rbp ∧
        load after.memory (start.regs .rsp).toNat 8 =
          load start.memory (start.regs .rsp).toNat 8 := by
  refine ⟨text prog, (assembly_eq_some prog _).mpr ⟨⟨few, short⟩, rfl⟩, ?_⟩
  intro env start abi placed aligned untrapped
  have frame : frameSize prog = 8 + 8 * spillsStm prog := rfl
  have room := placed.room
  obtain ⟨one, begin, rsp1, _, _, saved, same⟩ := exec_prologue env start (by omega)
  have body1 : Body start one := ⟨rsp1, saved, same.load (by omega)⟩
  have code : entry "main" (text prog) =
      prologue ++ (stmCode prog ++ [.pop "popq    " .rbp, .ret]) := by
    rw [entry_text, mainCode]
    simp
  rw [code] at untrapped
  have inside := (checked_append.mp (untrapped.rest begin)).1
  obtain ⟨two, ran⟩ := inside.runs (steps_stmCode prog)
  have body2 : Body start two :=
    body_stmCode placed abi prog (by omega) (fun _ => id) body1 ran
  have top2 := body2.top (by omega)
  obtain ⟨three, popped, rsp3, rbp3, back3⟩ := @Body.restore env start two body2 (by omega)
  refine ⟨?_, one, three, begin, ?_, ?_, rsp3, rbp3, back3⟩
  · intro before exp member
    obtain ⟨rest, split⟩ := split_occurrencesStm prog member
    rw [split] at ran
    obtain ⟨first, ran1, later⟩ := exec_append_eq_some.mp ran
    obtain ⟨second, ran2, _⟩ := exec_append_eq_some.mp later
    have deep := room_occurrencesStm placed abi prog (by omega) (fun _ => id) body1 member ran1
    have spares := spares_expCode exp deep ran2
    exact ⟨first, second, (exec_append_some begin).trans ran1, ran2, spares.rsp,
      fun place above => spares.memory place (.inr above)⟩
  · rw [code]
    refine checked_append.mpr ⟨⟨trivial, fun _ _ => ⟨trivial, fun _ _ => trivial⟩⟩, ?_⟩
    intro middle started
    cases begin.symm.trans started
    refine checked_append.mpr ⟨disciplined_stmCode placed abi prog (by omega) (fun _ => id) aligned
      rsp1 body1, ?_⟩
    intro last ended
    cases ran.symm.trans ended
    refine ⟨?_, fun after stepped => ⟨?_, fun _ _ => trivial⟩⟩
    · change load two.memory (two.regs .rsp).toNat 8 = _
      rw [top2]
      exact body2.saved
    · cases popped.symm.trans stepped
      exact ⟨rsp3, rbp3, by rw [rsp3, back3]⟩
  · rw [runMain_text, mainCode, List.append_assoc, exec_append_some begin,
      exec_append_some ran, exec_cons_some popped]
    rfl

/-- In `x = 6 / 2; print(x)` the calls and the return find the stack as they should. -/
theorem stack_discipline_quotient :
    let prog : Stm :=
      .seq (.assign "x" (.bin .div (.num 6) (.num 2))) (.print (.var "x"))
    let env : Env := ⟨fun name => if name = "x" then 0x1000 else 0x2000, id⟩
    let start : State := ⟨fun _ => 0x8008, fun _ => 0, []⟩
    ∃ lines body after, assembly prog = some lines ∧ exec (cpu env) prologue start = some body ∧
      Checked (cpu env) (Disciplined start body) (entry "main" lines) start ∧
      runMain env lines start = some after ∧ after.regs .rsp = 0x8008 := by
  intro prog env start
  obtain ⟨lines, written, runs⟩ := stack_discipline prog (by decide) (by decide)
  obtain ⟨-, rfl⟩ := (assembly_eq_some prog lines).mp written
  have abi : PrintfAbi env (text prog) :=
    ⟨fun _ => rfl, fun _ => rfl, fun _ => rfl, fun _ _ _ => rfl, fun _ _ _ => rfl, fun _ => rfl⟩
  have placed : Placed env.symbol (text prog) (frameSize prog + 8)
      ((start.regs .rsp).toNat + 8) := by
    have laidOut : objects (text prog) = [("x", 8)] := objects_text prog
    refine ⟨by decide, ?_, ?_⟩ <;> rw [laidOut] <;> decide
  have untrapped : Checked (cpu env) Untrapped (entry "main" (text prog)) start := by
    rw [entry_text]
    decide
  obtain ⟨_, body, after, begin, checked, ran, rsp, _⟩ :=
    runs env start abi placed (by decide) untrapped
  exact ⟨_, body, after, written, begin, checked, ran, rsp⟩

/-- For `xx...x = 1` with 1007 letters `sprintf` writes past the end of `instr`. -/
theorem no_code_for_long_name : ¬ ∀ prog : Stm, ∃ lines, assembly prog = some lines ∧
    ∀ env start, PrintfAbi env lines →
      Placed env.symbol lines (frameSize prog + 8) ((start.regs .rsp).toNat + 8) →
      (start.regs .rsp).toNat % 16 = 8 →
      Checked (cpu env) Untrapped (entry "main" lines) start →
      ∃ after, runMain env lines start = some after ∧ after.regs .rsp = start.regs .rsp ∧
        after.regs .rbp = start.regs .rbp := by
  intro always
  obtain ⟨lines, written, -⟩ := always (assignXs 1006)
  exact assembly_assignXs written

end CssLab.Mcc.X64
