import CssLab.Lib.Fallible
import CssLab.Mcc.X64.Machine

/-! What the code of `main` prints: the values of an interpreter that takes the
operands of `-` the other way round. So the back end is right exactly for the
programs whose output this exchange does not change. -/

namespace CssLab.Mcc.X64

open CssLab.Assembly CssLab.Memory

/-- The arithmetic of the direct interpreter: 64-bit words that wrap around, and
a division without result where the processor traps. -/
def arith64 : Arith (BitVec 64) where
  num n := n.signExtend 64
  add left right := left + right
  sub left right := left - right
  times left right := left * right
  div left right :=
    if right = 0 ∨ (left = BitVec.intMin 64 ∧ right = -1) then none
    else some (left.sdiv right)

/-- The same with `left - right` read as `right - left`. -/
def reversed64 : Arith (BitVec 64) := { arith64 with sub := fun left right => right - left }

/-- The word `%d` prints of a 64-bit value. -/
def shown (value : BitVec 64) : BitVec 32 := value.setWidth 32

/-- Expression code may change `rax`, `rbx`, `rdx` and the bytes of `[low, high)`. -/
structure Spares (low high : Nat) (before after : State) : Prop where
  regs : ∀ reg, reg ≠ .rax → reg ≠ .rbx → reg ≠ .rdx → after.regs reg = before.regs reg
  memory : SameOutside low high before.memory after.memory
  calls : after.calls = before.calls

theorem Spares.trans (first : Spares low high before middle)
    (second : Spares low high middle after) : Spares low high before after where
  regs reg one two three := (second.regs reg one two three).trans (first.regs reg one two three)
  memory := first.memory.trans second.memory
  calls := second.calls.trans first.calls

theorem Spares.mono (spares : Spares low high before after) (lower : low' ≤ low)
    (upper : high ≤ high') : Spares low' high' before after where
  regs := spares.regs
  memory := spares.memory.mono lower upper
  calls := spares.calls

theorem Spares.rsp (spares : Spares low high before after) :
    after.regs .rsp = before.regs .rsp := spares.regs .rsp (by decide) (by decide) (by decide)

theorem Spares.set (state : State) (value : BitVec 64)
    (free : reg = .rax ∨ reg = .rbx ∨ reg = .rdx) :
    Spares low high state (state.set reg value) where
  regs other one two three := by
    rcases free with rfl | rfl | rfl <;> simp [one, two, three]
  memory := SameOutside.refl low high state.memory
  calls := rfl

theorem dividend_cqto (value : BitVec 64) :
    ((if value.msb then (-1 : BitVec 64) else 0) ++ value).toInt = value.toInt := by
  rw [BitVec.toInt_append, BitVec.toInt_eq_msb_cond value]
  cases value.msb <;> simp
  omega

/-- `cqto; idivq` divides `rax` as the interpreter does, or traps with it. -/
theorem idivq_rel (low high : Nat) (state : State) (left right : BitVec 64)
    (rax : state.regs .rax = left)
    (rbx : state.regs .rbx = right)
    (rdx : state.regs .rdx = if left.msb then -1 else 0) :
    Option.Rel (fun value after => after.regs .rax = value ∧ Spares low high state after)
      (arith64.div left right) (idivq state .rbx) := by
  have dividend : (state.regs .rdx ++ state.regs .rax).toInt = left.toInt := by
    rw [rdx, rax]
    exact dividend_cqto left
  have zero : right.toInt = 0 ↔ right = 0 := by
    rw [← BitVec.toInt_inj]
    exact Iff.rfl
  by_cases traps : right = 0 ∨ (left = BitVec.intMin 64 ∧ right = -1)
  · have stops : idivq state .rbx = none := by
      simp only [idivq, dividend, rbx]
      apply if_pos
      rcases traps with isZero | ⟨rfl, rfl⟩
      · exact .inl (zero.mpr isZero)
      · exact .inr (.inr (by decide))
    rw [stops, show arith64.div left right = none from if_pos traps]
    exact .none
  · have quotient : left.toInt.tdiv right.toInt = (left.sdiv right).toInt := by
      refine (BitVec.toInt_sdiv_of_ne_or_ne left right ?_).symm
      by_contra both
      simp only [not_or, not_not] at both
      exact traps (.inr both)
    have lower := BitVec.le_toInt (left.sdiv right)
    have upper := BitVec.toInt_lt (x := left.sdiv right)
    have runs : idivq state .rbx = some ((state.set .rax (left.sdiv right)).set .rdx
        (BitVec.ofInt 64 (left.toInt.tmod right.toInt))) := by
      simp only [idivq, dividend, rbx, quotient, BitVec.ofInt_toInt]
      have nonzero : ¬ right = 0 := fun isZero => traps (.inl isZero)
      apply if_neg
      simp only [zero, nonzero, false_or]
      omega
    rw [runs, show arith64.div left right = some (left.sdiv right) from if_neg traps]
    exact .some ⟨rfl, (Spares.set state _ (.inl rfl)).trans (.set _ _ (.inr (.inr rfl)))⟩

/-- The instructions after the `pop`, with the left operand in `rbx` and the
right one in `rax`. Only `subq` keeps the operands in the order they came. -/
theorem exec_combine (low high : Nat) (env : Env) (type : BinType) (state : State)
    (left right : BitVec 64)
    (rbx : state.regs .rbx = left) (rax : state.regs .rax = right) :
    Option.Rel (fun value after => after.regs .rax = value ∧ Spares low high state after)
      (reversed64.apply type left right) (exec (cpu env) (combine type) state) := by
  cases type with
  | add =>
    refine .some ⟨?_, .set state _ (.inl rfl)⟩
    simp [rbx, rax, reversed64, arith64, BitVec.add_comm]
  | sub =>
    refine .some ⟨?_, .set state _ (.inl rfl)⟩
    simp [rbx, rax, reversed64]
  | times =>
    refine .some ⟨?_, .set state _ (.inl rfl)⟩
    simp [rbx, rax, reversed64, arith64, BitVec.mul_comm]
  | div =>
    let swapped := (state.set .rax (state.regs .rbx)).set .rbx (state.regs .rax)
    let ready := swapped.set .rdx (if (swapped.regs .rax).msb then -1 else 0)
    have code : exec (cpu env) (combine .div) state = idivq ready .rbx := by
      simp [exec, combine, cpu, step, ready, swapped]
    have moved : Spares low high state ready :=
      ((Spares.set state _ (.inl rfl)).trans (.set _ _ (.inr (.inl rfl)))).trans
        (.set _ _ (.inr (.inr rfl)))
    have divided := idivq_rel low high ready left right
      (by simpa [ready, swapped] using rbx) (by simpa [ready, swapped] using rax)
      (by simp [ready, swapped, rbx])
    rw [code]
    exact Fallible.mono divided fun value after held => ⟨held.1, moved.trans held.2⟩

/-- What is pushed is popped again after code that works further down the stack. -/
theorem exec_spill (env : Env) (one : State) (isTop : (one.regs .rsp).toNat = top)
    (room : low + 8 ≤ top) :
    ∃ two, (cpu env).step (.push "push " .rax) one = some two ∧
      (two.regs .rsp).toNat = top - 8 ∧ SameOutside (top - 8) top one.memory two.memory ∧
      ∀ three, Spares low (top - 8) two three →
        ∃ four, (cpu env).step (.pop "pop " .rbx) three = some four ∧
          four.regs .rbx = one.regs .rax ∧ four.regs .rax = three.regs .rax ∧
          Spares low top one four := by
  have bound := (one.regs .rsp).isLt
  have below : (one.regs .rsp - 8).toNat = top - 8 := by
    rw [BitVec.toNat_sub]
    simp only [BitVec.reduceToNat]
    omega
  let two : State := { one with memory := store one.memory (top - 8) 8 (one.regs .rax).toNat }.set
    .rsp (one.regs .rsp - 8)
  have push : (cpu env).step (.push "push " .rax) one = some two := by
    simp only [cpu, step, below]
    rfl
  have rsp2 : two.regs .rsp = one.regs .rsp - 8 := by simp [two]
  have same : SameOutside (top - 8) top one.memory two.memory := .store (Nat.le_refl _) (by omega)
  refine ⟨two, push, by rw [rsp2, below], same, fun three spares => ?_⟩
  have rsp3 : three.regs .rsp = one.regs .rsp - 8 := spares.rsp.trans rsp2
  have kept : load three.memory (top - 8) 8 = (one.regs .rax).toNat := by
    have := (one.regs .rax).isLt
    rw [spares.memory.load (by omega)]
    change load (store _ _ _ _) _ _ = _
    rw [load_store]
    omega
  let four := (three.set .rsp (one.regs .rsp)).set .rbx (one.regs .rax)
  have pop : (cpu env).step (.pop "pop " .rbx) three = some four := by
    simp only [cpu, step, rsp3, below, kept, BitVec.sub_add_cancel, BitVec.ofNat_toNat,
      BitVec.setWidth_eq, four]
  refine ⟨four, pop, by simp [four], by simp [four], ?_, ?_, ?_⟩
  · intro reg rax rbx rdx
    by_cases isRsp : reg = .rsp
    · subst reg
      simp [four]
    · have three_eq := spares.regs reg rax rbx rdx
      have two_eq : two.regs reg = one.regs reg := by simp [two, isRsp]
      simp [four, rbx, isRsp, three_eq, two_eq]
  · exact (same.mono (by omega) (Nat.le_refl _)).trans
      (spares.memory.mono (Nat.le_refl _) (by omega))
  · exact spares.calls

/-- The code of an expression has the value of `reversed64` in `rax`, traps when there
is none, and pushes below `rsp` only what it pops again. -/
def Computes (env : Env) (exp : Exp) : Prop :=
  ∀ (state : State) (vars : Vars (BitVec 64)), 8 * spills exp ≤ (state.regs .rsp).toNat →
    Holds env.symbol 8 vars exp.reads state.memory →
    Apart env.symbol 8 exp.reads ((state.regs .rsp).toNat - 8 * spills exp)
      (state.regs .rsp).toNat →
    Option.Rel (fun value after => after.regs .rax = value ∧
        Spares ((state.regs .rsp).toNat - 8 * spills exp) (state.regs .rsp).toNat state after)
      (exp.eval reversed64 vars) (exec (cpu env) (expCode exp) state)

/-- Once the left operand is computed: the `push`, room for the right one further down,
the `pop` after it, and the variables that the right one reads. -/
theorem spill_left {env : Env} {state one : State}
    (room : 8 * spills (.bin type left right) ≤ (state.regs .rsp).toNat)
    (spares : Spares ((state.regs .rsp).toNat - 8 * spills left) (state.regs .rsp).toNat
      state one) :
    ∃ two, (cpu env).step (.push "push " .rax) one = some two ∧
      8 * spills right ≤ (two.regs .rsp).toNat ∧
      (∀ three, Spares ((two.regs .rsp).toNat - 8 * spills right) (two.regs .rsp).toNat two three →
        ∃ four, (cpu env).step (.pop "pop " .rbx) three = some four ∧
          four.regs .rbx = one.regs .rax ∧ four.regs .rax = three.regs .rax ∧
          Spares ((state.regs .rsp).toNat - 8 * spills (.bin type left right))
            (state.regs .rsp).toNat state four) ∧
      ∀ vars : Vars (BitVec 64),
        Holds env.symbol 8 vars (Exp.bin type left right).reads state.memory →
        Apart env.symbol 8 (Exp.bin type left right).reads
          ((state.regs .rsp).toNat - 8 * spills (.bin type left right)) (state.regs .rsp).toNat →
        Holds env.symbol 8 vars right.reads two.memory ∧
          Apart env.symbol 8 right.reads ((two.regs .rsp).toNat - 8 * spills right)
            (two.regs .rsp).toNat := by
  have deep : spills (.bin type left right) = max (spills left) (spills right + 1) := rfl
  have inRight : ∀ x ∈ right.reads, x ∈ (Exp.bin type left right).reads :=
    fun x member => List.mem_append_right _ member
  obtain ⟨top, isTop⟩ : ∃ top, top = (state.regs .rsp).toNat := ⟨_, rfl⟩
  rw [← isTop] at room spares ⊢
  have top1 : (one.regs .rsp).toNat = top := by rw [spares.rsp, isTop]
  obtain ⟨two, push, rsp2, same2, popped⟩ :=
    @exec_spill top (top - 8 * spills (.bin type left right)) env one top1 (by omega)
  refine ⟨two, push, by omega, fun three spares3 => ?_, fun vars holds apart => ⟨?_, ?_⟩⟩
  · rw [rsp2] at spares3
    obtain ⟨four, pop, rbx, rax, spares4⟩ := popped three (spares3.mono (by omega) (Nat.le_refl _))
    exact ⟨four, pop, rbx, rax, (spares.mono (by omega) (Nat.le_refl _)).trans spares4⟩
  · exact ((holds.sub inRight).sameOutside (apart.sub inRight (by omega) (by omega))
      spares.memory).sameOutside (apart.sub inRight (by omega) (Nat.le_refl _)) same2
  · rw [rsp2]
    exact apart.sub inRight (by omega) (by omega)

/-- The `pop` leaves the left operand in `rbx`, with the right one in `rax`. -/
theorem exec_operands {env : Env} (type : BinType) (first : Computes env left)
    (second : Computes env right) (state : State) (vars : Vars (BitVec 64))
    (room : 8 * spills (.bin type left right) ≤ (state.regs .rsp).toNat)
    (holds : Holds env.symbol 8 vars (Exp.bin type left right).reads state.memory)
    (apart : Apart env.symbol 8 (Exp.bin type left right).reads
      ((state.regs .rsp).toNat - 8 * spills (.bin type left right)) (state.regs .rsp).toNat) :
    Option.Rel (fun operands after =>
        after.regs .rbx = operands.1 ∧ after.regs .rax = operands.2 ∧
        Spares ((state.regs .rsp).toNat - 8 * spills (.bin type left right))
          (state.regs .rsp).toNat state after)
      ((left.eval reversed64 vars).bind fun l => (right.eval reversed64 vars).bind fun r =>
        some (l, r))
      (exec (cpu env) (operandsCode left right) state) := by
  have deep : spills (.bin type left right) = max (spills left) (spills right + 1) := rfl
  have inLeft : ∀ x ∈ left.reads, x ∈ (Exp.bin type left right).reads :=
    fun x member => List.mem_append_left _ member
  rw [operandsCode, exec_append]
  refine Fallible.bind (first state vars (by omega) (holds.sub inLeft)
    (apart.sub inLeft (by omega) (Nat.le_refl _))) ?_
  rintro l one ⟨isL, spares1⟩
  obtain ⟨two, push, room2, popped, reads⟩ := spill_left room spares1
  obtain ⟨holds2, apart2⟩ := reads vars holds apart
  rw [exec_cons_some push, exec_append]
  refine Fallible.bind (second two vars room2 holds2 apart2) ?_
  rintro r three ⟨isR, spares3⟩
  obtain ⟨four, pop, rbx, rax, spares4⟩ := popped three spares3
  rw [exec_cons_some pop]
  exact .some ⟨rbx.trans isL, rax.trans isR, spares4⟩

theorem exec_expCode (env : Env) (exp : Exp) : Computes env exp := by
  induction exp with
  | num n => exact fun state _ _ _ _ => .some ⟨rfl, .set state _ (.inl rfl)⟩
  | var x =>
    intro state vars room holds apart
    refine .some ⟨?_, .set state _ (.inl rfl)⟩
    have word := holds x (by simp [Exp.reads])
    simp [word]
  | bin type left right first second =>
    intro state vars room holds apart
    rw [Exp.eval_bin, expCode_bin, exec_append]
    refine Fallible.bind (exec_operands type first second state vars room holds apart) ?_
    rintro operands four ⟨rbx, rax, spares⟩
    have combined := exec_combine (state.regs .rsp).toNat (state.regs .rsp).toNat env type four
      operands.1 operands.2 rbx rax
    refine Fallible.mono combined ?_
    rintro value after ⟨isValue, spares5⟩
    exact ⟨isValue, spares.trans (spares5.mono (by omega) (Nat.le_refl _))⟩

/-- No difference occurs in the expression. -/
def SubFree : Exp → Prop
  | .num _ => True
  | .var _ => True
  | .bin type left right => type ≠ .sub ∧ SubFree left ∧ SubFree right

def SubFreeStm : Stm → Prop
  | .assign _ exp => SubFree exp
  | .print exp => SubFree exp
  | .seq left right => SubFreeStm left ∧ SubFreeStm right

theorem eval_reversed_of_subFree (exp : Exp) (free : SubFree exp) (vars : Vars (BitVec 64)) :
    exp.eval reversed64 vars = exp.eval arith64 vars := by
  induction exp with
  | num n => rfl
  | var x => rfl
  | bin type left right first second =>
    obtain ⟨other, freeLeft, freeRight⟩ := free
    have apply_eq : reversed64.apply type = arith64.apply type := by
      cases type with
      | sub => exact absurd rfl other
      | add => rfl
      | times => rfl
      | div => rfl
    rw [Exp.eval, Exp.eval, first freeLeft, second freeRight, apply_eq]

/-- Without a difference in the program the two interpreters are one. -/
theorem interp_reversed_of_subFree (stm : Stm) (free : SubFreeStm stm) (vars : Vars (BitVec 64)) :
    stm.interp reversed64 vars = stm.interp arith64 vars := by
  induction stm generalizing vars with
  | assign x exp => rw [Stm.interp, Stm.interp, eval_reversed_of_subFree exp free]
  | print exp => rw [Stm.interp, Stm.interp, eval_reversed_of_subFree exp free]
  | seq left right first second =>
    rw [Stm.interp, Stm.interp, first free.1]
    simp only [second free.2]

/-- How the machine ends when the interpreter ends with `result`. -/
def Follows (env : Env) (prog : Stm) (before : State)
    (result : Vars (BitVec 64) × List (BitVec 64)) (after : State) : Prop :=
  Holds env.symbol 8 result.1 (dataVars prog) after.memory ∧
    after.regs .rsp = before.regs .rsp ∧
    after.calls = before.calls ++ printed env.symbol (result.2.map shown)

section Statements

variable {env : Env} {prog : Stm} {base size : Nat}

theorem follows_assign (area : Area env.symbol 8 (dataVars prog) base size) (state : State)
    (vars : Vars (BitVec 64)) (low : base + 8 * spills exp ≤ (state.regs .rsp).toNat)
    (high : (state.regs .rsp).toNat ≤ base + size) (reads : ∀ y ∈ exp.reads, y ∈ dataVars prog)
    (assigned : x ∈ dataVars prog) (holds : Holds env.symbol 8 vars (dataVars prog) state.memory) :
    Option.Rel (Follows env prog state) ((Stm.assign x exp).interp reversed64 vars)
      (exec (cpu env) (stmCode (.assign x exp)) state) := by
  rw [Stm.interp, stmCode, exec_append]
  refine Fallible.bind (exec_expCode env exp state vars (by omega) (holds.sub reads)
    (area.offStack.sub reads (by omega) high)) ?_
  rintro v one ⟨isV, spares⟩
  have holds1 : Holds env.symbol 8 vars (dataVars prog) one.memory :=
    holds.sameOutside (area.offStack.sub (fun _ => id) (by omega) high) spares.memory
  have word : (one.regs .rax).toNat % 256 ^ 8 = v.toNat := by
    have := v.isLt
    rw [isV]
    omega
  exact .some ⟨area.assign holds1 assigned word, spares.rsp, by simpa [printed] using spares.calls⟩

theorem follows_print (area : Area env.symbol 8 (dataVars prog) base size)
    (abi : PrintfAbi env (text prog)) (state : State) (vars : Vars (BitVec 64))
    (low : base + 8 * spills exp ≤ (state.regs .rsp).toNat)
    (high : (state.regs .rsp).toNat ≤ base + size) (reads : ∀ y ∈ exp.reads, y ∈ dataVars prog)
    (holds : Holds env.symbol 8 vars (dataVars prog) state.memory) :
    Option.Rel (Follows env prog state) ((Stm.print exp).interp reversed64 vars)
      (exec (cpu env) (stmCode (.print exp)) state) := by
  rw [Stm.interp, stmCode, exec_append]
  refine Fallible.bind (exec_expCode env exp state vars (by omega) (holds.sub reads)
    (area.offStack.sub reads (by omega) high)) ?_
  rintro v one ⟨isV, spares⟩
  have holds1 : Holds env.symbol 8 vars (dataVars prog) one.memory :=
    holds.sameOutside (area.offStack.sub (fun _ => id) (by omega) high) spares.memory
  let ready := (one.set .rsi (one.regs .rax)).set .rdi (env.symbol "mcc_format")
  let two : State := { ready with calls := one.calls ++ [⟨env.symbol "mcc_format", shown v⟩] }
  have called : exec (cpu env)
      [.mov "movq " .rax .rsi, .lea "mcc_format" .rdi, .call "printf"] one =
      some (env.printf two) := by
    simp [exec, cpu, step, two, ready, isV, shown]
  rw [called]
  refine .some ⟨holds1.objects (objects_text prog) (abi.vars two), ?_, ?_⟩
  · rw [abi.rsp two]
    simpa [two, ready] using spares.rsp
  · rw [abi.calls two]
    simp [two, printed, spares.calls]

theorem follows_stm (area : Area env.symbol 8 (dataVars prog) base size)
    (abi : PrintfAbi env (text prog)) (stm : Stm) (state : State) (vars : Vars (BitVec 64))
    (low : base + 8 * spillsStm stm ≤ (state.regs .rsp).toNat)
    (high : (state.regs .rsp).toNat ≤ base + size) (reads : ∀ y ∈ stm.reads, y ∈ dataVars prog)
    (assigned : ∀ y ∈ stm.assigned, y ∈ dataVars prog)
    (holds : Holds env.symbol 8 vars (dataVars prog) state.memory) :
    Option.Rel (Follows env prog state) (stm.interp reversed64 vars)
      (exec (cpu env) (stmCode stm) state) := by
  induction stm generalizing state vars with
  | assign x exp =>
    exact follows_assign area state vars low high reads (assigned x (by simp [Stm.assigned])) holds
  | print exp => exact follows_print area abi state vars low high reads holds
  | seq left right first second =>
    simp only [Stm.reads, Stm.assigned, List.mem_append, spillsStm] at reads assigned low
    rw [Stm.interp, stmCode, exec_append]
    refine Fallible.bind (first state vars (by omega) high (fun y member => reads y (.inl member))
      (fun y member => assigned y (.inl member)) holds) ?_
    rintro ⟨vars1, values1⟩ one ⟨holds1, rsp1, calls1⟩
    refine Fallible.bind_left (second one vars1 (by rw [rsp1]; omega) (by rw [rsp1]; exact high)
      (fun y member => reads y (.inr member)) (fun y member => assigned y (.inr member)) holds1) ?_
    rintro ⟨vars2, values2⟩ two ⟨holds2, rsp2, calls2⟩
    refine .some ⟨holds2, rsp2.trans rsp1, ?_⟩
    rw [calls2, calls1, List.map_append, printed_append, List.append_assoc]

/-- The prologue pushes `rbp` and keeps what `rsp` is then in it. -/
theorem exec_prologue (env : Env) (state : State) (room : 8 ≤ (state.regs .rsp).toNat) :
    ∃ one, exec (cpu env) prologue state = some one ∧
      one.regs .rsp = state.regs .rsp - 8 ∧
      (one.regs .rsp).toNat = (state.regs .rsp).toNat - 8 ∧ one.calls = state.calls ∧
      load one.memory ((state.regs .rsp).toNat - 8) 8 = (state.regs .rbp).toNat ∧
      SameOutside ((state.regs .rsp).toNat - 8) (state.regs .rsp).toNat state.memory
        one.memory := by
  have bound := (state.regs .rsp).isLt
  have below : (state.regs .rsp - 8).toNat = (state.regs .rsp).toNat - 8 := by
    rw [BitVec.toNat_sub]
    simp only [BitVec.reduceToNat]
    omega
  let pushed : State := { state with
    memory := store state.memory ((state.regs .rsp).toNat - 8) 8 (state.regs .rbp).toNat }.set
      .rsp (state.regs .rsp - 8)
  let one := pushed.set .rbp (state.regs .rsp - 8)
  have start : exec (cpu env) prologue state = some one := by
    simp only [exec, prologue, cpu, step, below]
    rfl
  refine ⟨one, start, rfl, below, rfl, ?_, .store (Nat.le_refl _) (by omega)⟩
  have := (state.regs .rbp).isLt
  change load (store _ _ _ _) _ _ = _
  rw [load_store]
  omega

theorem zeroed_body {state one : State} (loaded : Loaded env.symbol (text prog)
      (frameSize prog) (state.regs .rsp).toNat state.memory)
    (area : Area env.symbol 8 (dataVars prog) ((state.regs .rsp).toNat - frameSize prog)
      (frameSize prog))
    (same : SameOutside ((state.regs .rsp).toNat - 8) (state.regs .rsp).toNat state.memory
      one.memory) :
    Holds env.symbol 8 (fun _ => (0 : BitVec 64)) (dataVars prog) one.memory := by
  have frame : frameSize prog = 8 + 8 * spillsStm prog := rfl
  have room := loaded.room
  exact (loaded.holds (objects_text prog)).sameOutside
    (area.offStack.sub (fun _ => id) (by omega) (by omega)) same

theorem runMain_reversed (closed : prog.Closed) (abi : PrintfAbi env (text prog))
    {state : State} (loaded : Loaded env.symbol (text prog) (frameSize prog)
      (state.regs .rsp).toNat state.memory) :
    Option.Rel (fun result after =>
        after.calls = state.calls ++ printed env.symbol (result.2.map shown))
      (prog.interp reversed64 fun _ => 0) (runMain env (text prog) state) := by
  have area := loaded.area (state.regs .rsp).isLt (objects_text prog)
  have frame : frameSize prog = 8 + 8 * spillsStm prog := rfl
  have room := loaded.room
  obtain ⟨one, start, _, rsp1, calls1, _, same⟩ := exec_prologue env state (by omega)
  have body := follows_stm area abi prog one (fun _ => 0) (by omega) (by omega)
    (fun x member => (mem_dataVars prog x).mpr (closed x member))
    (fun x member => (mem_dataVars prog x).mpr member) (zeroed_body loaded area same)
  rw [runMain_text, mainCode, List.append_assoc, exec_append_some start, exec_append]
  refine Fallible.bind_right body ?_
  rintro result two ⟨-, -, calls⟩
  rw [calls1] at calls
  exact .some calls

end Statements

/-- A program without a difference prints what the direct interpreter prints. -/
theorem main_prints_of_subFree {prog : Stm} (subFree : SubFreeStm prog) (closed : prog.Closed)
    {env : Env} {state : State} (abi : PrintfAbi env (text prog))
    (loaded : Loaded env.symbol (text prog) (frameSize prog) (state.regs .rsp).toNat
      state.memory) (interp : prog.interp arith64 (fun _ => 0) = some (vars, values)) :
    ∃ after, runMain env (text prog) state = some after ∧
      after.calls = state.calls ++ printed env.symbol (values.map shown) := by
  have same := (interp_reversed_of_subFree prog subFree fun _ => 0).trans interp
  exact Fallible.right_of_left (runMain_reversed closed abi loaded) same

/-- For a program with few, unreserved names that reads only what it assigns and
that the direct interpreter runs without a trapping division, the text is written and
links, and its `main` calls `printf` with the values the interpreter prints, if and
only if every name is short enough for `instr` and reading every `left - right` as
`right - left` traps no division and changes no printed word. -/
theorem main_prints_interp_iff (prog : Stm) (few : prog.names.card ≤ maxVar)
    (free : ∀ x ∈ prog.names, x ∉ reserved) (closed : prog.Closed) (env : Env) (state : State)
    (abi : PrintfAbi env (text prog))
    (loaded : Loaded env.symbol (text prog) (frameSize prog) (state.regs .rsp).toNat
      state.memory) :
    ∀ vars values, prog.interp arith64 (fun _ => 0) = some (vars, values) →
      ((∃ lines after, assembly prog = some lines ∧ Links Instr.refers ["printf"] lines ∧
          runMain env lines state = some after ∧
          after.calls = state.calls ++ printed env.symbol (values.map shown)) ↔
        (∀ x ∈ prog.names, x.utf8ByteSize ≤ 1004) ∧
          ∃ vars' values', prog.interp reversed64 (fun _ => 0) = some (vars', values') ∧
            values'.map shown = values.map shown) := by
  intro vars values _
  have both := runMain_reversed closed abi loaded
  have injective {first second : List (BitVec 32)}
      (same : printed env.symbol first = printed env.symbol second) : first = second := by
    refine List.map_injective_iff.mpr (fun one two equal => ?_) same
    exact congrArg Call.value equal
  rw [← short_iff]
  constructor
  · rintro ⟨lines, after, written, -, ran, calls⟩
    obtain ⟨⟨-, short⟩, rfl⟩ := (assembly_eq_some prog lines).mp written
    obtain ⟨⟨vars', values'⟩, reversed, printed'⟩ := Fallible.left_of_right both ran
    exact ⟨short, vars', values', reversed,
      injective (List.append_cancel_left (printed'.symm.trans calls))⟩
  · rintro ⟨short, vars', values', reversed, same⟩
    obtain ⟨after, ran, calls⟩ := Fallible.right_of_left both reversed
    refine ⟨text prog, after, (assembly_eq_some prog _).mpr ⟨⟨?_, short⟩, rfl⟩,
      links_text closed free, ran, by rw [calls, same]⟩
    exact (card_assigned_le prog).trans few

/-- A difference times itself is the same both ways round. -/
theorem main_prints_interp_iff_square :
    let three : Exp := .bin .sub (.num 5) (.num 2)
    let prog : Stm := .print (.bin .times three three)
    let env : Env := ⟨fun _ => 0x2000, id⟩
    let state : State := ⟨fun _ => 0x8000, fun _ => 0, []⟩
    ∃ lines after, assembly prog = some lines ∧ Links Instr.refers ["printf"] lines ∧
      runMain env lines state = some after ∧ after.calls = [⟨0x2000, 9⟩] := by
  intro three prog env state
  have empty : objects (text prog) = [] := objects_text prog
  have abi : PrintfAbi env (text prog) :=
    ⟨fun _ => rfl, fun _ => rfl, fun _ => rfl, fun _ _ _ => rfl, fun _ _ _ => rfl, fun _ => rfl⟩
  have loaded : Loaded env.symbol (text prog) (frameSize prog) (state.regs .rsp).toNat
      state.memory := by
    refine ⟨⟨by decide, ?_, ?_⟩, ?_, fun _ _ => rfl⟩ <;> simp [empty]
  exact (main_prints_interp_iff prog (by decide) (by decide) (by decide) env state abi loaded
    (fun _ => 0) [9] rfl).mpr ⟨by decide, fun _ => 0, [9], rfl, rfl⟩

/-- `print(5 - 2)` prints `-3`. -/
theorem main_prints_difference_reversed :
    ¬ ∀ (prog : Stm) (env : Env) (state : State) (vars : Vars (BitVec 64))
        (values : List (BitVec 64)),
      prog.names.card ≤ maxVar → (∀ x ∈ prog.names, x ∉ reserved) → prog.Closed →
      PrintfAbi env (text prog) →
      Loaded env.symbol (text prog) (frameSize prog) (state.regs .rsp).toNat state.memory →
      prog.interp arith64 (fun _ => 0) = some (vars, values) →
      ∀ lines, assembly prog = some lines → ∃ after, runMain env lines state = some after ∧
        after.calls = state.calls ++ printed env.symbol (values.map shown) := by
  intro always
  let prog : Stm := .print (.bin .sub (.num 5) (.num 2))
  let env : Env := ⟨fun _ => 0x2000, id⟩
  let state : State := ⟨fun _ => 0x8000, fun _ => 0, []⟩
  have empty : objects (text prog) = [] := objects_text prog
  have abi : PrintfAbi env (text prog) :=
    ⟨fun _ => rfl, fun _ => rfl, fun _ => rfl, fun _ _ _ => rfl, fun _ _ _ => rfl, fun _ => rfl⟩
  have loaded : Loaded env.symbol (text prog) (frameSize prog) (state.regs .rsp).toNat
      state.memory := by
    refine ⟨⟨by decide, ?_, ?_⟩, ?_, fun _ _ => rfl⟩ <;> simp [empty]
  have written : assembly prog = some (text prog) :=
    (assembly_eq_some prog _).mpr ⟨by decide, rfl⟩
  obtain ⟨after, ran, calls⟩ := always prog env state (fun _ => 0) [3] (by decide) (by decide)
    (by decide) abi loaded rfl _ written
  have both := runMain_reversed (by decide) abi loaded
  obtain ⟨result, reversed, prints⟩ := Fallible.left_of_right both ran
  have minus : prog.interp reversed64 (fun _ => 0) = some (fun _ => 0, [-3]) := rfl
  obtain rfl := Option.some.inj (minus.symm.trans reversed)
  exact absurd (calls.symm.trans prints) (by decide)

end CssLab.Mcc.X64
