import CssLab.Mcc.Riscv.Machine

namespace CssLab.Mcc.Riscv

open CssLab.Assembly CssLab.Memory

/-- The arithmetic of the interpreter: 32-bit words that wrap around. -/
def arith32 : Arith (BitVec 32) where
  num := id
  add left right := left + right
  sub left right := left - right
  times left right := left * right
  div left right := some (divw left right)

/-- Expression code may change `a1`, `a2`, `a3` and the bytes of `[low, high)`. -/
structure Spares (low high : Nat) (before after : State) : Prop where
  regs : ∀ reg, reg ≠ .a1 → reg ≠ .a2 → reg ≠ .a3 → after.regs reg = before.regs reg
  memory : SameOutside low high before.memory after.memory
  calls : after.calls = before.calls

theorem Spares.trans (first : Spares low high before middle)
    (second : Spares low high middle after) : Spares low high before after where
  regs reg one two three := (second.regs reg one two three).trans (first.regs reg one two three)
  memory := first.memory.trans second.memory
  calls := second.calls.trans first.calls

theorem Spares.mono (spares : Spares low high before after) (lower : low' ≤ low)
    (upper : high ≤ high') : Spares low' high' before after where
  regs := spares.regs
  memory := spares.memory.mono lower upper
  calls := spares.calls

theorem Spares.sp (spares : Spares low high before after) :
    after.regs .sp = before.regs .sp := spares.regs .sp (by decide) (by decide) (by decide)

theorem Spares.set (state : State) (value : BitVec 64)
    (free : reg = .a1 ∨ reg = .a2 ∨ reg = .a3) : Spares low high state (state.set reg value) where
  regs other one two three := by
    rcases free with rfl | rfl | rfl <;> simp [one, two, three]
  memory := .refl low high state.memory
  calls := rfl

theorem address_eq (state : State) (base : Reg) (offset : Nat)
    (room : (state.regs base).toNat + offset < 2 ^ 64) :
    state.address base (offset : Nat) = (state.regs base).toNat + offset := by
  rw [State.address, BitVec.ofInt_natCast, BitVec.toNat_add, BitVec.toNat_ofNat]
  omega

theorem address_zero (state : State) (base : Reg) :
    state.address base 0 = (state.regs base).toNat := by
  simp [State.address]

theorem low_signExtend (value : BitVec 32) : (value.signExtend 64).setWidth 32 = value := by
  apply BitVec.eq_of_getLsbD_eq
  intro i inside
  simp only [BitVec.getLsbD_setWidth, BitVec.getLsbD_signExtend, inside]
  simp [show i < 64 by omega]

/-- The last instruction of `left type right`, once the operands are in `a2` and `a1`. -/
theorem step_combine (env : Env) (type : BinType) {state : State} (left right : BitVec 32)
    (second : state.regs .a2 = left.signExtend 64) (first : state.regs .a1 = right.signExtend 64) :
    ∃ value, arith32.apply type left right = some value ∧
      (cpu env).step (combine type) state = some (state.set .a1 (value.signExtend 64)) := by
  have low2 : state.low .a2 = left := by rw [State.low, second, low_signExtend]
  have low1 : state.low .a1 = right := by rw [State.low, first, low_signExtend]
  cases type with
  | add => exact ⟨left + right, rfl, by simp [cpu, step, combine, low1, low2, BitVec.add_comm]⟩
  | sub => exact ⟨left - right, rfl, by simp [cpu, step, combine, low1, low2]⟩
  | times => exact ⟨left * right, rfl, by simp [cpu, step, combine, low1, low2, BitVec.mul_comm]⟩
  | div => exact ⟨divw left right, rfl, by simp [cpu, step, combine, low1, low2]⟩

theorem step_combine_spares (env : Env) (type : BinType) (state : State) :
    ∃ value, (cpu env).step (combine type) state = some (state.set .a1 value) := by
  cases type <;> exact ⟨_, rfl⟩

/-- What is spilled to a slot is reloaded after code that works above the slot. -/
theorem exec_spill (env : Env) (one : State) (slot : Nat) (isBase : (one.regs .sp).toNat = base)
    (room : base + 4 * slot < 2 ^ 64) :
    ∃ two, (cpu env).step (.sw .a1 (4 * (slot : Int)) .sp) one = some two ∧
      Spares (base + 4 * slot) (base + 4 * slot + 4) one two ∧
      ∀ three, Spares (base + 4 * (slot + 1)) high two three →
        ∃ four, (cpu env).step (.lw .a2 (4 * (slot : Int)) .sp) three = some four ∧
          (∀ low high, Spares low high three four) ∧ four.regs .a1 = three.regs .a1 ∧
          ∀ value : BitVec 32, one.regs .a1 = value.signExtend 64 →
            four.regs .a2 = value.signExtend 64 := by
  let two : State := { one with
    memory := store one.memory (base + 4 * slot) 4 (one.regs .a1).toNat }
  have place : one.address .sp (4 * (slot : Int)) = base + 4 * slot := by
    have := address_eq one .sp (4 * slot) (by rw [isBase]; exact room)
    simpa [isBase] using this
  have spill : (cpu env).step (.sw .a1 (4 * (slot : Int)) .sp) one = some two := by
    simp [cpu, step, place, two]
  refine ⟨two, spill, ⟨fun _ _ _ _ => rfl, .store (Nat.le_refl _) (Nat.le_refl _), rfl⟩, ?_⟩
  intro three spares
  have sp3 : (three.regs .sp).toNat = base := (congrArg BitVec.toNat spares.sp).trans isBase
  have kept : load three.memory (base + 4 * slot) 4 = (one.regs .a1).toNat % 256 ^ 4 := by
    rw [spares.memory.load (by omega)]
    exact load_store
  let four : State := three.set .a2
    ((BitVec.ofNat 32 (load three.memory (base + 4 * slot) 4)).signExtend 64)
  have place3 : three.address .sp (4 * (slot : Int)) = base + 4 * slot := by
    have := address_eq three .sp (4 * slot) (by rw [sp3]; exact room)
    simpa [sp3] using this
  have reload : (cpu env).step (.lw .a2 (4 * (slot : Int)) .sp) three = some four := by
    simp [cpu, step, place3, four]
  refine ⟨four, reload, fun _ _ => .set three _ (.inr (.inl rfl)), rfl, ?_⟩
  intro value isValue
  have word : BitVec.ofNat 32 ((one.regs .a1).toNat % 256 ^ 4) = value := by
    rw [← low_signExtend value, ← isValue]
    apply BitVec.eq_of_toNat_eq
    simp
  have loaded : four.regs .a2 =
      (BitVec.ofNat 32 (load three.memory (base + 4 * slot) 4)).signExtend 64 := by
    simp only [four, State.set_regs, if_true]
  rw [loaded, kept, word]

/-- The code of an expression runs to its end, spills only into the slots from
`slot` on, and leaves the value of the expression in `a1`. The induction needs
`slot` general: the right operand starts one slot further up, above the slot
that keeps the left one. -/
theorem exec_expCode (env : Env) (exp : Exp) (slot : Nat) (state : State)
    (room : (state.regs .sp).toNat + 4 * (slot + deepExp exp) ≤ 2 ^ 64) :
    ∃ after, exec (cpu env) (expCode slot exp) state = some after ∧
      Spares ((state.regs .sp).toNat + 4 * slot)
        ((state.regs .sp).toNat + 4 * (slot + deepExp exp)) state after ∧
      ∀ vars, Holds env.symbol 4 vars exp.reads state.memory →
        Apart env.symbol 4 exp.reads ((state.regs .sp).toNat + 4 * slot)
          ((state.regs .sp).toNat + 4 * (slot + deepExp exp)) →
        ∃ value, exp.eval arith32 vars = some value ∧
          after.regs .a1 = value.signExtend 64 := by
  induction exp generalizing slot state with
  | num n =>
    refine ⟨_, rfl, .set state _ (.inl rfl), ?_⟩
    intro vars _ _
    exact ⟨n, rfl, rfl⟩
  | var x =>
    refine ⟨_, rfl, (Spares.set state _ (.inr (.inr rfl))).trans (.set _ _ (.inl rfl)), ?_⟩
    intro vars holds _
    refine ⟨vars x, rfl, ?_⟩
    have word := holds x (by simp [Exp.reads])
    simp [address_zero, word]
  | bin type left right first second =>
    have deep : deepExp (.bin type left right) = max (deepExp left) (deepExp right) + 1 := rfl
    obtain ⟨base, isBase⟩ : ∃ base, base = (state.regs .sp).toNat := ⟨_, rfl⟩
    rw [← isBase] at room ⊢
    obtain ⟨one, ran1, spares1, value1⟩ := first slot state (by omega)
    rw [← isBase] at spares1 value1
    have sp1 : (one.regs .sp).toNat = base := by rw [spares1.sp, isBase]
    obtain ⟨two, spill, spares2, reloaded⟩ :=
      @exec_spill base (base + 4 * (slot + deepExp (.bin type left right))) env one slot sp1
        (by omega)
    have sp2 : (two.regs .sp).toNat = base := by rw [spares2.sp, sp1]
    obtain ⟨three, ran3, spares3, value3⟩ := second (slot + 1) two (by omega)
    rw [sp2] at spares3 value3
    rw [Int.natCast_succ] at ran3
    obtain ⟨four, reload, spares4, a1, a2⟩ :=
      reloaded three (spares3.mono (Nat.le_refl _) (by omega))
    obtain ⟨result, last⟩ := step_combine_spares env type four
    refine ⟨four.set .a1 result, ?_, ?_, ?_⟩
    · rw [expCode, exec_append_some ran1, exec_cons_some spill, exec_append_some ran3,
        exec_cons_some reload, exec_cons_some last]
      rfl
    · have all : Spares (base + 4 * slot) (base + 4 * (slot + deepExp (.bin type left right)))
          state three :=
        (spares1.mono (Nat.le_refl _) (by omega)).trans
          ((spares2.mono (Nat.le_refl _) (by omega)).trans (spares3.mono (by omega) (by omega)))
      exact all.trans ((spares4 _ _).trans (.set four _ (.inl rfl)))
    · intro vars holds apart
      have inLeft : ∀ x ∈ left.reads, x ∈ (Exp.bin type left right).reads :=
        fun x member => List.mem_append_left _ member
      have inRight : ∀ x ∈ right.reads, x ∈ (Exp.bin type left right).reads :=
        fun x member => List.mem_append_right _ member
      obtain ⟨l, evalL, isL⟩ := value1 vars (holds.sub inLeft)
        (apart.sub inLeft (Nat.le_refl _) (by omega))
      have holds2 : Holds env.symbol 4 vars right.reads two.memory :=
        ((holds.sub inRight).sameOutside (apart.sub inRight (Nat.le_refl _) (by omega))
          spares1.memory).sameOutside (apart.sub inRight (Nat.le_refl _) (by omega)) spares2.memory
      obtain ⟨r, evalR, isR⟩ := value3 vars holds2 (apart.sub inRight (by omega) (by omega))
      obtain ⟨value, applied, same⟩ := step_combine env type l r (a2 l isL) (a1.trans isR)
      have result_eq : four.set .a1 result = four.set .a1 (value.signExtend 64) :=
        Option.some.inj (last.symm.trans same)
      refine ⟨value, Exp.eval_bin_eq_some.mpr ⟨l, r, evalL, evalR, applied⟩, ?_⟩
      simp [result_eq]

theorem signExtend_mod (value : BitVec 32) :
    (value.signExtend 64).toNat % 256 ^ 4 = value.toNat := by
  have low := congrArg BitVec.toNat (low_signExtend value)
  simpa [BitVec.toNat_setWidth] using low

/-- What a statement and the interpreter do together, from related states. -/
def Agrees (env : Env) (names : List String) (stm : Stm) (vars : Vars (BitVec 32))
    (before : State) : Prop :=
  ∃ after vars' values, exec (cpu env) (stmCode 4 stm) before = some after ∧
    stm.interp arith32 vars = some (vars', values) ∧
    Holds env.symbol 4 vars' names after.memory ∧
    after.regs .sp = before.regs .sp ∧ after.calls = before.calls ++ printed env.symbol values

section Statements

variable {env : Env} {prog : Stm} {vars : Vars (BitVec 32)}

theorem agrees_assign (area : Area env.symbol 4 names base size) {state : State}
    (sp : (state.regs .sp).toNat = base) (reads : ∀ y ∈ exp.reads, y ∈ names) (assigned : x ∈ names)
    (room : 16 + 4 * deepExp exp ≤ size) (holds : Holds env.symbol 4 vars names state.memory) :
    Agrees env names (.assign x exp) vars state := by
  have fits := area.fits
  obtain ⟨one, ran, spares, value⟩ := exec_expCode env exp 4 state (by omega)
  rw [sp] at spares value
  obtain ⟨v, evaluated, a1⟩ := value vars (holds.sub reads)
    (area.offStack.sub reads (by omega) (by omega))
  let two : State := { one.set .a3 (env.symbol x) with
    memory := store one.memory (env.symbol x).toNat 4 (one.regs .a1).toNat }
  have stored : exec (cpu env) [.lla .a3 x, .sw .a1 0 .a3] one = some two := by
    simp [exec, cpu, step, address_zero, two]
  have holds1 : Holds env.symbol 4 vars names one.memory :=
    holds.sameOutside (area.offStack.sub (fun _ => id) (by omega) (by omega)) spares.memory
  refine ⟨two, vars.set x v, [], ?_, ?_, ?_, ?_, ?_⟩
  · exact (exec_append_some ran).trans stored
  · exact Stm.interp_assign_eq_some.mpr ⟨v, evaluated, rfl⟩
  · exact area.assign holds1 assigned (by rw [a1, signExtend_mod])
  · simpa [two] using spares.sp
  · simpa [two, printed] using spares.calls

theorem agrees_print (area : Area env.symbol 4 (dataVars prog) base size)
    (abi : PrintfAbi env (text prog)) {state : State}
    (sp : (state.regs .sp).toNat = base) (reads : ∀ y ∈ exp.reads, y ∈ dataVars prog)
    (room : 16 + 4 * deepExp exp ≤ size)
    (holds : Holds env.symbol 4 vars (dataVars prog) state.memory) :
    Agrees env (dataVars prog) (.print exp) vars state := by
  have fits := area.fits
  obtain ⟨one, ran, spares, value⟩ := exec_expCode env exp 4 state (by omega)
  rw [sp] at spares value
  obtain ⟨v, evaluated, a1⟩ := value vars (holds.sub reads)
    (area.offStack.sub reads (by omega) (by omega))
  let two : State := { one.set .a0 (env.symbol "mcc_format") with
    calls := one.calls ++ [⟨env.symbol "mcc_format", v⟩] }
  have called : exec (cpu env) [.lla .a0 "mcc_format", .call "printf"] one =
      some (env.printf two) := by
    have low : (one.set .a0 (env.symbol "mcc_format")).low .a1 = v := by
      simp [State.low, a1, low_signExtend]
    simp [exec, cpu, step, low, two]
  have holds1 : Holds env.symbol 4 vars (dataVars prog) two.memory :=
    holds.sameOutside (area.offStack.sub (fun _ => id) (by omega) (by omega)) spares.memory
  refine ⟨env.printf two, vars, [v], ?_, ?_, ?_, ?_, ?_⟩
  · exact (exec_append_some ran).trans called
  · exact Stm.interp_print_eq_some.mpr ⟨v, evaluated, rfl⟩
  · exact holds1.objects (objects_text prog) (abi.vars two)
  · rw [abi.sp two]
    simpa [two] using spares.sp
  · rw [abi.calls two]
    simp [two, printed, spares.calls]

theorem agrees_stm (area : Area env.symbol 4 (dataVars prog) base size)
    (abi : PrintfAbi env (text prog)) (stm : Stm) (vars : Vars (BitVec 32))
    (state : State) (sp : (state.regs .sp).toNat = base)
    (reads : ∀ y ∈ stm.reads, y ∈ dataVars prog)
    (assigned : ∀ y ∈ stm.assigned, y ∈ dataVars prog) (room : 16 + 4 * deepStm stm ≤ size)
    (holds : Holds env.symbol 4 vars (dataVars prog) state.memory) :
    Agrees env (dataVars prog) stm vars state := by
  induction stm generalizing vars state with
  | assign x exp =>
    exact agrees_assign area sp reads (assigned x (by simp [Stm.assigned])) room holds
  | print exp => exact agrees_print area abi sp reads room holds
  | seq left right first second =>
    simp only [Stm.reads, Stm.assigned, List.mem_append, deepStm] at reads assigned room
    obtain ⟨one, vars1, values1, ran1, interp1, holds1, sp1, calls1⟩ :=
      first vars state sp (fun y member => reads y (.inl member))
        (fun y member => assigned y (.inl member)) (by omega) holds
    obtain ⟨two, vars2, values2, ran2, interp2, holds2, sp2, calls2⟩ :=
      second vars1 one (by rw [sp1]; exact sp) (fun y member => reads y (.inr member))
        (fun y member => assigned y (.inr member)) (by omega) holds1
    refine ⟨two, vars2, values1 ++ values2, ?_, ?_, holds2, sp2.trans sp1, ?_⟩
    · exact (exec_append_some ran1).trans ran2
    · exact Stm.interp_seq_eq_some.mpr ⟨vars1, vars2, values1, values2, interp1, interp2, rfl⟩
    · rw [calls2, calls1, printed_append, List.append_assoc]

end Statements

theorem le_stacksize (prog : Stm) : 16 + 4 * deepStm prog ≤ stacksize prog := by
  unfold stacksize
  omega

/-- The prologue moves `sp` down by the frame size and saves `ra` and `s0` in
the first sixteen bytes of the frame. -/
theorem exec_prologue (env : Env) (size : Nat) (state : State) (least : 16 ≤ size)
    (room : size ≤ (state.regs .sp).toNat) :
    ∃ after, exec (cpu env) (prologue size) state = some after ∧
      (after.regs .sp).toNat = (state.regs .sp).toNat - size ∧
      after.regs .s0 = state.regs .sp ∧ after.calls = state.calls ∧
      load after.memory ((state.regs .sp).toNat - size) 8 = (state.regs .ra).toNat ∧
      load after.memory ((state.regs .sp).toNat - size + 8) 8 = (state.regs .s0).toNat ∧
      SameOutside ((state.regs .sp).toNat - size) ((state.regs .sp).toNat - size + 16)
        state.memory after.memory := by
  obtain ⟨base, same⟩ : ∃ base, base = (state.regs .sp).toNat - size := ⟨_, rfl⟩
  have bound := (state.regs .sp).isLt
  have lowered : (state.regs .sp + BitVec.ofInt 64 (-(size : Int))).toNat = base := by
    rw [BitVec.ofInt_neg, BitVec.ofInt_natCast, ← BitVec.sub_eq_add_neg, BitVec.toNat_sub,
      BitVec.toNat_ofNat]
    omega
  have raised : state.regs .sp + BitVec.ofInt 64 (-(size : Int)) + BitVec.ofInt 64 size =
      state.regs .sp := by
    rw [BitVec.ofInt_neg, BitVec.add_assoc, BitVec.add_comm (-_), ← BitVec.sub_eq_add_neg,
      BitVec.sub_self, BitVec.add_zero]
  let one := state.set .sp (state.regs .sp + BitVec.ofInt 64 (-(size : Int)))
  have first : one.address .sp 0 = base := by
    rw [address_zero]
    exact lowered
  let two : State := { one with memory := store state.memory base 8 (state.regs .ra).toNat }
  have second : two.address .sp 8 = base + 8 := by
    have := address_eq two .sp 8 (by simp [two, one, lowered]; omega)
    simpa [two, one, lowered] using this
  let three : State := { two with memory := store two.memory (base + 8) 8 (state.regs .s0).toNat }
  let after : State := three.set .s0 (state.regs .sp)
  have ran : exec (cpu env) (prologue size) state = some after := by
    have lower : (cpu env).step (.addi .sp .sp (-size)) state = some one := rfl
    have saveRa : (cpu env).step (.sd .ra 0 .sp) one = some two := by
      simp [cpu, step, first, two, one]
    have saveS0 : (cpu env).step (.sd .s0 8 .sp) two = some three := by
      simp only [cpu, step, second]
      rfl
    have pointer : (cpu env).step (.addi .s0 .sp size) three = some after := by
      simp only [cpu, step, after, three, two, one, State.set_regs, if_true, raised]
    rw [prologue, exec_cons_some lower, exec_cons_some saveRa, exec_cons_some saveS0,
      exec_cons_some pointer]
    rfl
  rw [← same]
  refine ⟨after, ran, ?_, ?_, rfl, ?_, ?_, ?_⟩
  · simpa [after, three, two, one] using lowered
  · simp [after]
  · have := (state.regs .ra).isLt
    change load (store (store _ _ _ _) _ _ _) _ _ = _
    rw [load_store_apart (by omega), load_store]
    omega
  · have := (state.regs .s0).isLt
    change load (store _ _ _ _) _ _ = _
    rw [load_store]
    omega
  · exact (SameOutside.store (Nat.le_refl _) (by omega)).trans
      (SameOutside.store (by omega) (by omega))

/-- The epilogue reads nothing but the two saved registers and writes no memory. -/
theorem exec_epilogue (env : Env) (size : Nat) (state : State)
    (fits : (state.regs .sp).toNat + 16 ≤ 2 ^ 64) :
    ∃ after, exec (cpu env) (epilogue size) state = some after ∧ after.regs .a0 = 0 ∧
      after.regs .sp = state.regs .sp + BitVec.ofInt 64 size ∧
      after.regs .ra = BitVec.ofNat 64 (load state.memory (state.regs .sp).toNat 8) ∧
      after.regs .s0 = BitVec.ofNat 64 (load state.memory ((state.regs .sp).toNat + 8) 8) ∧
      after.calls = state.calls ∧ after.memory = state.memory := by
  have second : (state.regs .sp + BitVec.ofInt 64 8).toNat = (state.regs .sp).toNat + 8 :=
    address_eq state .sp 8 (by omega)
  refine ⟨_, rfl, rfl, rfl, ?_, ?_, rfl, rfl⟩
  · simp [State.address]
  · rw [← second]
    simp [State.address]

/-- `main` of a program that reads only what it assigns, started in any state the text
is loaded in, calls `printf` with the values of the interpreter and returns with `a0 = 0`. -/
theorem runMain_interp (closed : prog.Closed) {env : Env} {state : State}
    (abi : PrintfAbi env (text prog))
    (loaded : Loaded env.symbol (text prog) (stacksize prog) (state.regs .sp).toNat
      state.memory) :
    ∃ vars values after, prog.interp arith32 (fun _ => 0) = some (vars, values) ∧
      runMain env (text prog) state = some after ∧
      after.calls = state.calls ++ printed env.symbol values ∧ after.regs .a0 = 0 := by
  have deep := le_stacksize prog
  have area := loaded.area (state.regs .sp).isLt (objects_text prog)
  obtain ⟨one, ran1, sp1, _, calls1, _, _, frame1⟩ :=
    exec_prologue env (stacksize prog) state (by omega) loaded.room
  have zeroed : Holds env.symbol 4 (fun _ => (0 : BitVec 32)) (dataVars prog) one.memory :=
    (loaded.holds (objects_text prog)).sameOutside
      (area.offStack.sub (fun _ => id) (Nat.le_refl _) (by omega)) frame1
  obtain ⟨two, vars, values, ran2, interp, _, sp2, calls2⟩ :=
    agrees_stm area abi prog (fun _ => 0) one sp1
      (fun x member => (mem_dataVars prog x).mpr (closed x member))
      (fun x member => (mem_dataVars prog x).mpr member) deep zeroed
  have fits := area.fits
  obtain ⟨three, ran3, a0, _, _, _, calls3, _⟩ :=
    exec_epilogue env (stacksize prog) two (by rw [sp2, sp1]; omega)
  refine ⟨vars, values, three, interp, ?_, ?_, a0⟩
  · rw [runMain_text, mainCode, List.append_assoc, exec_append_some ran1,
      exec_append_some ran2, ran3]
  · rw [calls3, calls2, calls1]

/-- For a program with few, short, unreserved names that reads only what it assigns: the
text is written and links, and `main`, started in any state the text is loaded in, calls
`printf` with the values the interpreter prints and returns with `a0 = 0`. -/
theorem main_prints_interp (prog : Stm) (few : prog.names.card ≤ maxVar)
    (short : ∀ x ∈ prog.names, x.utf8ByteSize ≤ 1006) (free : ∀ x ∈ prog.names, x ∉ reserved)
    (closed : prog.Closed) :
    ∃ lines, assembly prog = some lines ∧ Links Instr.refers ["printf"] lines ∧
      ∀ env state, PrintfAbi env lines →
        Loaded env.symbol lines (stacksize prog) (state.regs .sp).toNat state.memory →
        ∃ vars values after, prog.interp arith32 (fun _ => 0) = some (vars, values) ∧
          runMain env lines state = some after ∧
          after.calls = state.calls ++ printed env.symbol values ∧ after.regs .a0 = 0 := by
  have fits : Short prog := by
    refine ⟨fun x member => short x (Stm.assigned_mem_names member), fun x member => ?_⟩
    exact (short x (Stm.assigned_mem_names (closed x member))).trans (by decide)
  refine ⟨text prog, (assembly_eq_some prog _).mpr ⟨⟨(card_assigned_le prog).trans few, fits⟩, rfl⟩,
    links_text closed free, fun env state abi loaded => runMain_interp closed abi loaded⟩

/-- For `xx...x = 1` with 1007 letters `sprintf` writes past the end of `instr`. -/
theorem long_name_overruns :
    ¬ ∀ prog : Stm, prog.names.card ≤ maxVar → (∀ x ∈ prog.names, x ∉ reserved) → prog.Closed →
      ∃ lines, assembly prog = some lines ∧ ∀ env state, PrintfAbi env lines →
        Loaded env.symbol lines (stacksize prog) (state.regs .sp).toNat state.memory →
        ∃ vars values after, prog.interp arith32 (fun _ => 0) = some (vars, values) ∧
          runMain env lines state = some after ∧
          after.calls = state.calls ++ printed env.symbol values ∧ after.regs .a0 = 0 := by
  intro always
  obtain ⟨lines, written, -⟩ := always (assignXs 1006) (by decide) (assignXs_free (by decide))
    (assignXs_closed 1006)
  exact assembly_assignXs written

/-- `x = 7; print(x - 2)` prints `5`. -/
theorem main_prints_difference :
    let prog : Stm := .seq (.assign "x" (.num 7)) (.print (.bin .sub (.var "x") (.num 2)))
    let env : Env := ⟨fun name => if name = "x" then 0x1000 else 0x2000, id⟩
    let state : State := ⟨fun _ => 0x8000, fun _ => 0, []⟩
    ∃ lines after, assembly prog = some lines ∧ runMain env lines state = some after ∧
      after.calls = [⟨0x2000, 5⟩] ∧ after.regs .a0 = 0 := by
  intro prog env state
  have laidOut : objects (text prog) = [("x", 4)] := objects_text prog
  have abi : PrintfAbi env (text prog) :=
    ⟨fun _ => rfl, fun _ => rfl, fun _ _ _ => rfl, fun _ _ _ => rfl, fun _ => rfl⟩
  have loaded : Loaded env.symbol (text prog) (stacksize prog) (state.regs .sp).toNat
      state.memory := by
    refine ⟨⟨by decide, ?_, ?_⟩, ?_, fun _ _ => rfl⟩ <;> rw [laidOut]
    · decide
    · decide
    · intro first one second two different
      rw [List.mem_singleton.mp one, List.mem_singleton.mp two] at different
      exact absurd rfl different
  obtain ⟨lines, written, _, runs⟩ :=
    main_prints_interp prog (by decide) (by decide) (by decide) (by decide)
  obtain ⟨-, rfl⟩ := (assembly_eq_some prog lines).mp written
  obtain ⟨vars, values, after, interp, ran, calls, a0⟩ := runs env state abi loaded
  have five : values = [5] := by
    have run : prog.interp arith32 (fun _ => 0) = some (Vars.set (fun _ => 0) "x" 7, [5]) := rfl
    exact (congrArg Prod.snd (Option.some.inj (run.symm.trans interp))).symm
  exact ⟨_, after, written, ran, by rw [calls, five]; rfl, a0⟩

end CssLab.Mcc.Riscv
