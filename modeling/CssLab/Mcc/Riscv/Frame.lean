import CssLab.Mcc.Riscv.Correct

namespace CssLab.Mcc.Riscv

open CssLab.Assembly CssLab.Memory

/-- The instruction `PUSH` emits for a slot. -/
def pushAt (offset : Int) : Instr := .sw .a1 offset .sp

/-- The instruction `POP` emits for a slot. -/
def popAt (offset : Int) : Instr := .lw .a2 offset .sp

/-- Neither a spill nor a reload. -/
def Instr.Plain (instr : Instr) : Prop := ∀ offset, instr ≠ pushAt offset ∧ instr ≠ popAt offset

/-- May the instruction write a byte of the slot `[offset, offset + 4)`? A store
that is not relative to `sp` is taken to be able to. -/
def Instr.mayWrite (offset : Int) : Instr → Prop
  | .sw _ other .sp => other < offset + 4 ∧ offset < other + 4
  | .sd _ other .sp => other < offset + 4 ∧ offset < other + 8
  | .sw _ _ _ => True
  | .sd _ _ _ => True
  | _ => False

/-- Spills and reloads are nested like brackets. -/
inductive Nested : List Instr → Prop where
  | nil : Nested []
  | plain (ordinary : instr.Plain) (rest : Nested instrs) : Nested (instr :: instrs)
  | pair (inner : Nested middle) (rest : Nested instrs) :
      Nested (pushAt first :: (middle ++ popAt second :: instrs))

theorem Nested.append (first : Nested front) (second : Nested back) : Nested (front ++ back) := by
  induction first with
  | nil => exact second
  | plain ordinary _ ih => exact .plain ordinary ih
  | pair inner _ _ ih =>
    rw [List.cons_append, List.append_assoc]
    exact .pair inner ih

/-- Each reload has a spill to the same slot before it and each spill a reload
after it, with nested spills and no store to the slot in between. -/
structure Matched (instrs : List Instr) : Prop where
  pop : ∀ before offset after, instrs = before ++ popAt offset :: after →
    ∃ outer inner, before = outer ++ pushAt offset :: inner ∧ Nested inner ∧
      ∀ instr ∈ inner, ¬ instr.mayWrite offset
  push : ∀ before offset after, instrs = before ++ pushAt offset :: after →
    ∃ inner outer, after = inner ++ popAt offset :: outer ∧ Nested inner ∧
      ∀ instr ∈ inner, ¬ instr.mayWrite offset

private theorem split_append {front back before after : List Instr} {instr : Instr}
    (split : front ++ back = before ++ instr :: after) :
    (∃ more, front = before ++ instr :: more ∧ after = more ++ back) ∨
      ∃ more, before = front ++ more ∧ back = more ++ instr :: after := by
  rcases List.append_eq_append_iff.mp split with ⟨more, beforeEq, backEq⟩ | ⟨more, frontEq, rest⟩
  · exact .inr ⟨more, beforeEq, backEq⟩
  · rcases List.cons_eq_append_iff.mp rest with ⟨rfl, backEq⟩ | ⟨tail, rfl, afterEq⟩
    · exact .inr ⟨[], by simpa using frontEq.symm, by simpa using backEq⟩
    · exact .inl ⟨tail, frontEq, afterEq⟩

theorem Matched.append (first : Matched front) (second : Matched back) :
    Matched (front ++ back) where
  pop before offset after split := by
    rcases split_append split with ⟨more, inFront, _⟩ | ⟨more, rfl, inBack⟩
    · exact first.pop before offset more inFront
    · obtain ⟨outer, inner, rfl, nested, free⟩ := second.pop more offset after inBack
      exact ⟨front ++ outer, inner, by simp, nested, free⟩
  push before offset after split := by
    rcases split_append split with ⟨more, inFront, rfl⟩ | ⟨more, _, inBack⟩
    · obtain ⟨inner, outer, rfl, nested, free⟩ := first.push before offset more inFront
      exact ⟨inner, outer ++ back, by simp, nested, free⟩
    · exact second.push more offset after inBack

theorem Matched.plain (ordinary : ∀ instr ∈ instrs, instr.Plain) : Matched instrs where
  pop before offset after split := by
    subst split
    exact absurd rfl (ordinary (popAt offset) (by simp) offset).2
  push before offset after split := by
    subst split
    exact absurd rfl (ordinary (pushAt offset) (by simp) offset).1

/-- A spill and its reload around code that leaves the slot alone. -/
theorem Matched.wrap (inside : Matched instrs) (nested : Nested instrs)
    (free : ∀ instr ∈ instrs, ¬ instr.mayWrite slot) :
    Matched (pushAt slot :: (instrs ++ [popAt slot])) where
  pop before offset after split := by
    rcases List.cons_eq_append_iff.mp split with ⟨rfl, wrong⟩ | ⟨tail, rfl, rest⟩
    · simp [pushAt, popAt] at wrong
    · rcases split_append rest with ⟨more, inInstrs, _⟩ | ⟨more, rfl, last⟩
      · obtain ⟨outer, inner, rfl, nested, free⟩ := inside.pop tail offset more inInstrs
        exact ⟨pushAt slot :: outer, inner, by simp, nested, free⟩
      · rcases List.cons_eq_append_iff.mp last with ⟨rfl, same⟩ | ⟨_, rfl, wrong⟩
        · simp only [List.cons.injEq, popAt, Instr.lw.injEq, true_and, and_true] at same
          obtain ⟨rfl, rfl⟩ := same
          exact ⟨[], instrs, by simp, nested, free⟩
        · simp at wrong
  push before offset after split := by
    rcases List.cons_eq_append_iff.mp split with ⟨rfl, same⟩ | ⟨tail, rfl, rest⟩
    · simp only [List.cons.injEq, pushAt, Instr.sw.injEq, true_and, and_true] at same
      obtain ⟨rfl, rfl⟩ := same
      exact ⟨instrs, [], rfl, nested, free⟩
    · rcases split_append rest with ⟨more, inInstrs, rfl⟩ | ⟨more, rfl, last⟩
      · obtain ⟨inner, outer, rfl, nested, free⟩ := inside.push tail offset more inInstrs
        exact ⟨inner, outer ++ [popAt slot], by simp, nested, free⟩
      · rcases List.cons_eq_append_iff.mp last with ⟨rfl, wrong⟩ | ⟨_, rfl, wrong⟩
        · simp [pushAt, popAt] at wrong
        · simp at wrong

/-- Every spill and every reload uses a slot inside `[low, high)`. -/
def Fits (low high : Int) (instrs : List Instr) : Prop :=
  ∀ offset, pushAt offset ∈ instrs ∨ popAt offset ∈ instrs → low ≤ offset ∧ offset + 4 ≤ high

theorem Fits.append (first : Fits low high front) (second : Fits low high back) :
    Fits low high (front ++ back) := fun offset member => by
  simp only [List.mem_append] at member
  rcases member with (inFront | inBack) | (inFront | inBack)
  · exact first offset (.inl inFront)
  · exact second offset (.inl inBack)
  · exact first offset (.inr inFront)
  · exact second offset (.inr inBack)

theorem Fits.mono (fits : Fits low high instrs) (lower : low' ≤ low) (upper : high ≤ high') :
    Fits low' high' instrs := fun offset member => by
  have := fits offset member
  omega

theorem Fits.plain (ordinary : ∀ instr ∈ instrs, instr.Plain) : Fits low high instrs := by
  rintro offset (push | pop)
  · exact absurd rfl (ordinary _ push offset).1
  · exact absurd rfl (ordinary _ pop offset).2

theorem Nested.allPlain (ordinary : ∀ instr ∈ instrs, instr.Plain) : Nested instrs := by
  induction instrs with
  | nil => exact .nil
  | cons instr rest ih =>
    exact .plain (ordinary instr (by simp))
      (ih fun other member => ordinary other (by simp [member]))

/-- Code that spills into `[low, high)` only and as a stack. -/
structure SpillCode (low high : Int) (instrs : List Instr) : Prop where
  matched : Matched instrs
  nested : Nested instrs
  fits : Fits low high instrs
  free : ∀ instr ∈ instrs, ∀ offset, offset + 4 ≤ low → ¬ instr.mayWrite offset

theorem SpillCode.append (first : SpillCode low high front) (second : SpillCode low high back) :
    SpillCode low high (front ++ back) where
  matched := first.matched.append second.matched
  nested := first.nested.append second.nested
  fits := first.fits.append second.fits
  free instr member := by
    rcases List.mem_append.mp member with inFront | inBack
    · exact first.free instr inFront
    · exact second.free instr inBack

theorem SpillCode.mono (code : SpillCode low high instrs) (lower : low' ≤ low)
    (upper : high ≤ high') : SpillCode low' high' instrs where
  matched := code.matched
  nested := code.nested
  fits := code.fits.mono lower upper
  free instr member offset below := code.free instr member offset (by omega)

theorem SpillCode.plain (ordinary : ∀ instr ∈ instrs, instr.Plain)
    (free : ∀ instr ∈ instrs, ∀ offset, ¬ instr.mayWrite offset) :
    SpillCode low high instrs where
  matched := .plain ordinary
  nested := .allPlain ordinary
  fits := .plain ordinary
  free instr member offset _ := free instr member offset

theorem SpillCode.wrap (inside : SpillCode (slot + 4) high instrs) (room : slot + 4 ≤ high) :
    SpillCode slot high (pushAt slot :: (instrs ++ [popAt slot])) where
  matched := inside.matched.wrap inside.nested fun instr member =>
    inside.free instr member slot (Int.le_refl _)
  nested := .pair inside.nested .nil
  fits := by
    intro offset member
    simp only [List.mem_cons, List.mem_append, List.not_mem_nil, or_false, pushAt, popAt,
      Instr.sw.injEq, Instr.lw.injEq, true_and, and_true, reduceCtorEq, false_or] at member
    rcases member with (rfl | push) | (pop | rfl)
    · omega
    · have := inside.fits offset (.inl push)
      omega
    · have := inside.fits offset (.inr pop)
      omega
    · omega
  free := by
    intro instr member offset below
    simp only [List.mem_cons, List.mem_append, List.not_mem_nil, or_false] at member
    rcases member with rfl | inInstrs | rfl
    · simp only [pushAt, Instr.mayWrite]
      omega
    · exact inside.free instr inInstrs offset (by omega)
    · exact id

theorem plain_combine (type : BinType) : ∀ instr ∈ [combine type], instr.Plain := by
  simp only [List.mem_singleton, forall_eq]
  cases type <;> intro offset <;> exact ⟨nofun, nofun⟩

/-- The left operand is evaluated before the spill and the right one after it, so
the slots from `slot` on that the tree needs are as many as it is deep. -/
theorem spillCode_expCode (exp : Exp) (slot : Int) :
    SpillCode (4 * slot) (4 * (slot + deepExp exp)) (expCode slot exp) := by
  induction exp generalizing slot with
  | num n =>
    exact .plain (by simp [expCode, Instr.Plain, pushAt, popAt]) (by simp [expCode, Instr.mayWrite])
  | var x =>
    exact .plain (by simp [expCode, Instr.Plain, pushAt, popAt]) (by simp [expCode, Instr.mayWrite])
  | bin type left right first second =>
    have deep : deepExp (.bin type left right) = max (deepExp left) (deepExp right) + 1 := rfl
    have code : expCode slot (.bin type left right) = expCode slot left ++
        (pushAt (4 * slot) :: (expCode (slot + 1) right ++ [popAt (4 * slot)]) ++
          [combine type]) := by
      simp [expCode, pushAt, popAt]
    have last : SpillCode (4 * slot) (4 * (slot + deepExp (.bin type left right))) [combine type] :=
      .plain (plain_combine type) (by cases type <;> simp [combine, Instr.mayWrite])
    rw [code]
    refine ((first slot).mono (Int.le_refl _) (by omega)).append
      (.append (.wrap ?_ (by omega)) last)
    exact (second (slot + 1)).mono (by omega) (by omega)

/-- Assignments and prints add no spill of their own to that of their expression. -/
theorem matched_stmCode (stm : Stm) :
    Matched (stmCode 4 stm) ∧ Fits 16 (16 + 4 * deepStm stm) (stmCode 4 stm) := by
  induction stm with
  | assign x exp =>
    have spills := spillCode_expCode exp 4
    have ordinary : ∀ instr ∈ [Instr.lla .a3 x, .sw .a1 0 .a3], instr.Plain := by
      simp [Instr.Plain, pushAt, popAt]
    exact ⟨spills.matched.append (.plain ordinary),
      (spills.fits.mono (by omega) (by simp only [deepStm]; omega)).append (.plain ordinary)⟩
  | print exp =>
    have spills := spillCode_expCode exp 4
    have ordinary : ∀ instr ∈ [Instr.lla .a0 "mcc_format", .call "printf"], instr.Plain := by
      simp [Instr.Plain, pushAt, popAt]
    exact ⟨spills.matched.append (.plain ordinary),
      (spills.fits.mono (by omega) (by simp only [deepStm]; omega)).append (.plain ordinary)⟩
  | seq left right first second =>
    have deep : deepStm (.seq left right) = max (deepStm left) (deepStm right) := rfl
    exact ⟨first.1.append second.1, (first.2.mono (Int.le_refl _) (by omega)).append
      (second.2.mono (Int.le_refl _) (by omega))⟩

theorem matched_text (prog : Stm) :
    Matched (entry "main" (text prog)) ∧
      Fits 16 (stacksize prog) (entry "main" (text prog)) := by
  have start : ∀ instr ∈ prologue (stacksize prog), instr.Plain := by
    simp [prologue, Instr.Plain, pushAt, popAt]
  have finish : ∀ instr ∈ epilogue (stacksize prog), instr.Plain := by
    simp [epilogue, Instr.Plain, pushAt, popAt]
  have last : ∀ instr ∈ [Instr.jr .ra], instr.Plain := by
    simp [Instr.Plain, pushAt, popAt]
  have body := matched_stmCode prog
  have deep := le_stacksize prog
  rw [entry_text, mainCode]
  exact ⟨(((Matched.plain start).append body.1).append (.plain finish)).append (.plain last),
    (((Fits.plain start).append (body.2.mono (Int.le_refl _) (by omega))).append
      (.plain finish)).append (.plain last)⟩

/-- The address of the frame of `main`, called in the state `start`. -/
def frameBase (prog : Stm) (start : State) : Nat := (start.regs .sp).toNat - stacksize prog

/-- Memory at and above the caller's `sp` that is no variable is as it was. -/
def CallerKept (env : Env) (prog : Stm) (start state : State) : Prop :=
  ∀ place, (start.regs .sp).toNat ≤ place → ¬ InObject env.symbol (text prog) place →
    state.memory place = start.memory place

/-- So are the values of `ra` and `s0` saved at the bottom of the frame. -/
structure Saved (env : Env) (prog : Stm) (start state : State) : Prop where
  ra : load state.memory (frameBase prog start) 8 = (start.regs .ra).toNat
  s0 : load state.memory (frameBase prog start + 8) 8 = (start.regs .s0).toNat
  above : CallerKept env prog start state

/-- What holds between the prologue and the epilogue. -/
structure Body (env : Env) (prog : Stm) (start state : State) : Prop
    extends Saved env prog start state where
  sp : (state.regs .sp).toNat = frameBase prog start

section Dynamic

variable {env : Env} {prog : Stm} {start state : State}

theorem Saved.sameOutside (saved : Saved env prog start state)
    (same : SameOutside (frameBase prog start + 16) (start.regs .sp).toNat state.memory memory) :
    Saved env prog start { state with memory } where
  ra := by
    have least := le_stacksize prog
    have kept : load memory (frameBase prog start) 8 = load state.memory (frameBase prog start) 8 :=
      same.load (by omega)
    exact kept.trans saved.ra
  s0 := by
    have kept : load memory (frameBase prog start + 8) 8 =
        load state.memory (frameBase prog start + 8) 8 := same.load (by omega)
    exact kept.trans saved.s0
  above place lower free := (same place (.inr lower)).trans (saved.above place lower free)

theorem Saved.storeVar (saved : Saved env prog start state)
    (placed : Placed env.symbol (text prog) (stacksize prog) (start.regs .sp).toNat)
    (member : x ∈ prog.assigned)
    (value : Nat) : Saved env prog start { state with
      memory := store state.memory (env.symbol x).toNat 4 value } := by
  have present := (mem_dataVars prog x).mpr member
  have clear := placed.offStack (x, 4) (by simp [objects_text, present])
  have room := placed.room
  have least := le_stacksize prog
  have base : frameBase prog start = (start.regs .sp).toNat - stacksize prog := rfl
  simp only at clear
  refine ⟨?_, ?_, ?_⟩
  · exact (load_store_apart (by omega)).trans saved.ra
  · exact (load_store_apart (by omega)).trans saved.s0
  · intro place lower free
    have outside : place < (env.symbol x).toNat ∨ (env.symbol x).toNat + 4 ≤ place := by
      by_contra inside
      exact free ((inObject_iff (objects_text prog)).mpr ⟨x, present, by omega, by omega⟩)
    exact (store_outside outside).trans (saved.above place lower free)

theorem Saved.set (saved : Saved env prog start state) (reg : Reg) (value : BitVec 64) :
    Saved env prog start (state.set reg value) := ⟨saved.ra, saved.s0, saved.above⟩

theorem Body.set (body : Body env prog start state) (other : reg ≠ .sp) (value : BitVec 64) :
    Body env prog start (state.set reg value) where
  toSaved := body.toSaved.set reg value
  sp := by simpa [Ne.symm other] using body.sp

theorem Body.printf (body : Body env prog start state) (abi : PrintfAbi env (text prog)) :
    Body env prog start (env.printf state) where
  ra := by
    have base := body.sp
    rw [load_congr fun place lower _ => abi.stack state place (by omega)]
    exact body.ra
  s0 := by
    have base := body.sp
    rw [load_congr fun place lower _ => abi.stack state place (by omega)]
    exact body.s0
  above place lower free := by
    have base := body.sp
    have : frameBase prog start ≤ (start.regs .sp).toNat := Nat.sub_le _ _
    rw [abi.stack state place (by omega)]
    exact body.above place lower free
  sp := by
    rw [abi.sp state]
    exact body.sp

theorem Body.spill (body : Body env prog start state)
    (room : stacksize prog ≤ (start.regs .sp).toNat) (least : 4 ≤ slot)
    (fits : 4 * slot + 4 ≤ stacksize prog)
    (stepped : (cpu env).step (pushAt (4 * (slot : Nat))) state =
      some after) : Body env prog start after := by
  have bound := (start.regs .sp).isLt
  have base := body.sp
  have top : frameBase prog start + stacksize prog = (start.regs .sp).toNat :=
    Nat.sub_add_cancel room
  have place : state.address .sp (4 * (slot : Int)) = frameBase prog start + 4 * slot := by
    have := address_eq state .sp (4 * slot) (by omega)
    simpa [base] using this
  simp only [pushAt, cpu, step, place, Option.some.injEq] at stepped
  subst stepped
  exact ⟨body.toSaved.sameOutside (.store (by omega) (by omega)), body.sp⟩

theorem throughout_expCode
    (placed : Placed env.symbol (text prog) (stacksize prog) (start.regs .sp).toNat)
    (exp : Exp) (slot : Nat) (least : 4 ≤ slot) (fits : 4 * (slot + deepExp exp) ≤ stacksize prog)
    (body : Body env prog start state) :
    Throughout (cpu env) (Body env prog start) state (expCode slot exp) := by
  induction exp generalizing slot state with
  | num n =>
    refine .cons body fun one stepped => ?_
    cases stepped
    exact .nil (body.set (by decide) _)
  | var x =>
    refine .cons body fun one stepped => ?_
    cases stepped
    refine .cons (body.set (by decide) _) fun two stepped => ?_
    cases stepped
    exact .nil ((body.set (by decide) _).set (by decide) _)
  | bin type left right first second =>
    have deep : deepExp (.bin type left right) = max (deepExp left) (deepExp right) + 1 := rfl
    refine (first slot least (by omega) body).append fun one _ body1 => ?_
    refine .cons body1 fun two spilled => ?_
    have body2 := body1.spill placed.room least (by omega) spilled
    refine (second (slot + 1) (by omega) (by omega) body2).append fun three _ body3 => ?_
    refine .cons body3 fun four stepped => ?_
    cases stepped
    have body4 (value) : Body env prog start (three.set .a2 value) := body3.set (by decide) value
    refine .cons (body4 _) fun five stepped => ?_
    obtain ⟨value, last⟩ := step_combine_spares env type
      (three.set .a2 ((BitVec.ofNat 32 (load three.memory
        (three.address .sp (4 * (slot : Int))) 4)).signExtend 64))
    cases last.symm.trans stepped
    exact .nil ((body4 _).set (by decide) _)

theorem throughout_stmCode
    (placed : Placed env.symbol (text prog) (stacksize prog) (start.regs .sp).toNat)
    (abi : PrintfAbi env (text prog)) (stm : Stm)
    (assigned : ∀ x ∈ stm.assigned, x ∈ prog.assigned)
    (fits : 16 + 4 * deepStm stm ≤ stacksize prog) (body : Body env prog start state) :
    Throughout (cpu env) (Body env prog start) state (stmCode 4 stm) := by
  induction stm generalizing state with
  | assign x exp =>
    simp only [deepStm] at fits
    refine (throughout_expCode placed exp 4 (by omega) (by omega) body).append fun one _ body1 => ?_
    refine .cons body1 fun two stepped => ?_
    cases stepped
    refine .cons (body1.set (by decide) _) fun three stepped => ?_
    cases stepped
    have stored := (body1.toSaved.set .a3 (env.symbol x)).storeVar placed
      (assigned x (by simp [Stm.assigned])) ((one.set .a3 (env.symbol x)).regs .a1).toNat
    refine .nil ⟨?_, body1.sp⟩
    simpa [address_zero] using stored
  | print exp =>
    simp only [deepStm] at fits
    refine (throughout_expCode placed exp 4 (by omega) (by omega) body).append fun one _ body1 => ?_
    refine .cons body1 fun two stepped => ?_
    cases stepped
    have body2 : Body env prog start (one.set .a0 (env.symbol "mcc_format")) :=
      body1.set (by decide) _
    refine .cons body2 fun three stepped => ?_
    cases stepped
    exact .nil (Body.printf ⟨⟨body2.ra, body2.s0, body2.above⟩, body2.sp⟩ abi)
  | seq left right first second =>
    simp only [Stm.assigned, List.mem_append, deepStm] at assigned fits
    refine (first (fun x member => assigned x (.inl member)) (by omega) body).append
      fun one _ body1 => ?_
    exact second (fun x member => assigned x (.inr member)) (by omega) body1

theorem exec_stmCode (abi : PrintfAbi env (text prog)) (stm : Stm) (state : State)
    (room : (state.regs .sp).toNat + 4 * (4 + deepStm stm) ≤ 2 ^ 64) :
    ∃ after, exec (cpu env) (stmCode 4 stm) state = some after ∧
      after.regs .sp = state.regs .sp := by
  induction stm generalizing state with
  | assign x exp =>
    obtain ⟨one, ran, spares, _⟩ := exec_expCode env exp 4 state room
    exact ⟨_, (exec_append_some ran).trans rfl, spares.sp⟩
  | print exp =>
    obtain ⟨one, ran, spares, _⟩ := exec_expCode env exp 4 state room
    exact ⟨_, (exec_append_some ran).trans rfl, (abi.sp _).trans spares.sp⟩
  | seq left right first second =>
    simp only [deepStm] at room
    obtain ⟨one, ran1, sp1⟩ := first state (by omega)
    obtain ⟨two, ran2, sp2⟩ := second one (by rw [sp1]; omega)
    exact ⟨two, (exec_append_some ran1).trans ran2, sp2.trans sp1⟩

/-- The states of the prologue differ from the first one inside the new frame only. -/
theorem throughout_prologue
    (placed : Placed env.symbol (text prog) (stacksize prog) (start.regs .sp).toNat) :
    Throughout (cpu env) (CallerKept env prog start) start (prologue (stacksize prog)) := by
  have room := placed.room
  have least := le_stacksize prog
  have bound := (start.regs .sp).isLt
  refine .cons (fun _ _ _ => rfl) fun one stepped => ?_
  cases stepped
  obtain ⟨lowered, isLowered⟩ :
      ∃ lowered, lowered = start.regs .sp + BitVec.ofInt 64 (-(stacksize prog : Int)) := ⟨_, rfl⟩
  have base : lowered.toNat = frameBase prog start := by
    rw [isLowered, frameBase, BitVec.ofInt_neg, BitVec.ofInt_natCast, ← BitVec.sub_eq_add_neg,
      BitVec.toNat_sub, BitVec.toNat_ofNat]
    omega
  rw [← isLowered]
  let inFrame (state : State) : Prop := state.regs .sp = lowered ∧
    SameOutside (frameBase prog start) (start.regs .sp).toNat start.memory state.memory
  have kept : Throughout (cpu env) inFrame (start.set .sp lowered)
      [.sd .ra 0 .sp, .sd .s0 8 .sp, .addi .s0 .sp (stacksize prog)] := by
    have address (state : State) (atBase : state.regs .sp = lowered) (offset : Nat)
        (small : offset ≤ 8) :
        state.address .sp (offset : Nat) = frameBase prog start + offset := by
      have : frameBase prog start = (start.regs .sp).toNat - stacksize prog := rfl
      rw [address_eq state .sp offset (by rw [atBase, base]; omega), atBase, base]
    have save (state : State) (holds : inFrame state) (reg : Reg) (offset : Nat)
        (small : offset ≤ 8) : inFrame { state with
          memory := store state.memory (state.address .sp (offset : Nat)) 8
            (state.regs reg).toNat } := by
      have : frameBase prog start = (start.regs .sp).toNat - stacksize prog := rfl
      rw [address state holds.1 offset small]
      exact ⟨holds.1, holds.2.trans (.store (by omega) (by omega))⟩
    refine .of_steps ⟨rfl, SameOutside.refl _ _ _⟩ fun instr member before after holds stepped => ?_
    simp only [List.mem_cons, List.not_mem_nil, or_false] at member
    rcases member with rfl | rfl | rfl <;> cases stepped
    · exact save before holds .ra 0 (by omega)
    · exact save before holds .s0 8 (by omega)
    · exact ⟨holds.1, holds.2⟩
  exact kept.mono fun state holds place lower _ => holds.2 place (.inr lower)

theorem body_prologue
    (placed : Placed env.symbol (text prog) (stacksize prog) (start.regs .sp).toNat) :
    ∃ one, exec (cpu env) (prologue (stacksize prog)) start = some one ∧
      Body env prog start one := by
  have least := le_stacksize prog
  obtain ⟨one, ran, sp, _, _, ra, s0, _⟩ :=
    exec_prologue env (stacksize prog) start (by omega) placed.room
  exact ⟨one, ran, ⟨⟨ra, s0, (throughout_prologue placed).last ran⟩, sp⟩⟩

theorem throughout_epilogue (saved : Saved env prog start state) :
    Throughout (cpu env) (Saved env prog start) state (epilogue (stacksize prog) ++ [.jr .ra]) := by
  refine .of_steps saved fun instr member before after holds stepped => ?_
  simp only [epilogue, List.mem_append, List.mem_cons, List.not_mem_nil, or_false] at member
  rcases member with (rfl | rfl | rfl | rfl | rfl) | rfl <;> cases stepped
  all_goals exact holds.set _ _

end Dynamic

section Offset

/-- Where the action is defined, it moves `stackoffset` by so much. -/
def Shifts (action : Emit Instr Unit) (distance : Int) : Prop :=
  ∀ compiler after, action.run compiler = some ((), after) →
    after.stackoffset = compiler.stackoffset + distance

variable {action next : Emit Instr Unit}

theorem Shifts.bind (first : Shifts action one) (second : Shifts next two) :
    Shifts (do action; next) (one + two) := by
  intro compiler after ran
  obtain ⟨middle, ran1, ran2⟩ := run_seq_eq_some.mp ran
  rw [second middle after ran2, first compiler middle ran1, Int.add_assoc]

theorem shifts_emit (line : Line Instr) : Shifts (emit line) 0 := by
  intro compiler after ran
  cases ran
  exact (Int.add_zero _).symm

theorem shifts_emitName (line : Line Instr) : Shifts (emitName Instr.render line) 0 := by
  unfold emitName
  split
  · exact shifts_emit line
  · intro compiler after ran
    cases ran

theorem shifts_setAdd (var : String) : Shifts (setAdd var) 0 := by
  intro compiler after ran
  obtain ⟨set, -, same⟩ := Option.map_eq_some_iff.mp ran
  cases same
  exact (Int.add_zero _).symm

theorem shifts_PUSH : Shifts PUSH 1 := by
  intro compiler after ran
  cases ran
  rfl

theorem shifts_POP : Shifts POP (-1) := by
  intro compiler after ran
  cases ran
  rfl

theorem shifts_compileExp (exp : Exp) : Shifts (compileExp exp) 0 := by
  induction exp with
  | num n => exact shifts_emit _
  | var x => exact (shifts_emitName _).bind (shifts_emit _)
  | bin type left right first second =>
    rw [compileExp_bin]
    exact first.bind (shifts_PUSH.bind (second.bind (shifts_POP.bind (shifts_emit _))))

theorem shifts_compileStm (stm : Stm) : Shifts (compileStm stm) 0 := by
  induction stm with
  | assign x exp =>
    exact (shifts_setAdd x).bind ((shifts_compileExp exp).bind
      ((shifts_emitName _).bind (shifts_emit _)))
  | print exp => exact (shifts_compileExp exp).bind ((shifts_emit _).bind (shifts_emit _))
  | seq left right first second => exact first.bind second

end Offset

theorem inside_text
    (placed : Placed env.symbol (text prog) (stacksize prog) (start.regs .sp).toNat)
    (abi : PrintfAbi env (text prog)) :
    ∃ one, exec (cpu env) (prologue (stacksize prog)) start = some one ∧
      Body env prog start one ∧
      Throughout (cpu env) (Body env prog start) one (stmCode 4 prog) := by
  obtain ⟨one, ran, body⟩ := body_prologue placed
  exact ⟨one, ran, body,
    throughout_stmCode placed abi prog (fun _ => id) (le_stacksize prog) body⟩

/-- `main` returns, and `sp`, `s0` and `ra` are then what they were. -/
theorem restores_text
    (placed : Placed env.symbol (text prog) (stacksize prog) (start.regs .sp).toNat)
    (abi : PrintfAbi env (text prog)) :
    ∃ final, runMain env (text prog) start = some final ∧
      final.regs .sp = start.regs .sp ∧ final.regs .s0 = start.regs .s0 ∧
      final.regs .ra = start.regs .ra := by
  have room := placed.room
  have deep := le_stacksize prog
  have bound := (start.regs .sp).isLt
  have top : frameBase prog start + stacksize prog = (start.regs .sp).toNat :=
    Nat.sub_add_cancel room
  obtain ⟨one, ran1, body1, inside⟩ := inside_text placed abi
  have base := body1.sp
  obtain ⟨two, ran2, sp2⟩ := exec_stmCode abi prog one (by omega)
  have body2 := inside.last ran2
  obtain ⟨three, ran3, _, sp3, ra3, s03, _, _⟩ :=
    exec_epilogue env (stacksize prog) two (by rw [body2.sp]; omega)
  refine ⟨three, ?_, ?_, ?_, ?_⟩
  · rw [runMain_text, mainCode, List.append_assoc, exec_append_some ran1,
      exec_append_some ran2, ran3]
  · apply BitVec.eq_of_toNat_eq
    rw [sp3, BitVec.ofInt_natCast, BitVec.toNat_add, BitVec.toNat_ofNat, body2.sp]
    omega
  · rw [s03, body2.sp, body2.s0, BitVec.ofNat_toNat, BitVec.setWidth_eq]
  · rw [ra3, body2.sp, body2.ra, BitVec.ofNat_toNat, BitVec.setWidth_eq]

/-- Frame discipline of the emitted `main`: spills and reloads lie in the frame
above the saved registers, match like brackets with no store to the slot in
between, and the compile-time offset is back at 4 after each statement. So no
state of a run changes the caller's memory, nor, once the four instructions of
the prologue are done, the saved `ra` and `s0`, and `sp`, `s0`, `ra` are back at
the final `jr`. -/
theorem frame_discipline (prog : Stm) (few : prog.assigned.toFinset.card ≤ maxVar)
    (short : Short prog) :
    ∃ lines, assembly prog = some lines ∧
    Fits 16 (stacksize prog) (entry "main" lines) ∧
    Matched (entry "main" lines) ∧
    (∀ stm compiler after, compiler.stackoffset = 4 →
      (compileStm stm).run compiler = some ((), after) → after.stackoffset = 4) ∧
    ∀ env start, PrintfAbi env lines →
      Placed env.symbol lines (stacksize prog) (start.regs .sp).toNat →
      Throughout (cpu env) (CallerKept env prog start) start (entry "main" lines) ∧
      (∃ one, exec (cpu env) ((entry "main" lines).take 4) start = some one ∧
        Throughout (cpu env) (Saved env prog start) one ((entry "main" lines).drop 4)) ∧
      ∃ final, runMain env lines start = some final ∧
        final.regs .sp = start.regs .sp ∧ final.regs .s0 = start.regs .s0 ∧
        final.regs .ra = start.regs .ra := by
  refine ⟨text prog, (assembly_eq_some prog _).mpr ⟨⟨few, short⟩, rfl⟩, (matched_text prog).2,
    (matched_text prog).1, ?_, ?_⟩
  · intro stm compiler after offset ran
    rw [shifts_compileStm stm compiler after ran, offset]
    rfl
  intro env start abi placed
  obtain ⟨one, ran, _, inside⟩ := inside_text placed abi
  have later : Throughout (cpu env) (Saved env prog start) one
      (stmCode 4 prog ++ (epilogue (stacksize prog) ++ [.jr .ra])) :=
    (inside.mono fun _ => Body.toSaved).append fun two _ saved => throughout_epilogue saved
  have whole : entry "main" (text prog) =
      prologue (stacksize prog) ++
        (stmCode 4 prog ++ (epilogue (stacksize prog) ++ [.jr .ra])) := by
    simp [entry_text, mainCode]
  have four : (prologue (stacksize prog)).length = 4 := rfl
  refine ⟨?_, ⟨one, ?_, ?_⟩, restores_text placed abi⟩
  · rw [whole]
    refine (throughout_prologue placed).append fun middle ran' _ => ?_
    obtain rfl := Option.some.inj (ran.symm.trans ran')
    exact later.mono fun _ => Saved.above
  · rw [whole, List.take_left' four]
    exact ran
  · rw [whole, List.drop_left' four]
    exact later

/-- A frame of depth two, returned from with the registers of the call. -/
theorem frame_discipline_nested :
    let prog : Stm := .print (.bin .sub (.num 7) (.bin .times (.num 2) (.num 3)))
    let env : Env := ⟨fun _ => 0x2000, id⟩
    let start : State := ⟨fun reg => if reg = .sp then 0x8000 else 0x1234, fun _ => 0, []⟩
    stacksize prog = 24 ∧ ∃ lines final, assembly prog = some lines ∧
      runMain env lines start = some final ∧
      final.regs .sp = 0x8000 ∧ final.regs .s0 = 0x1234 ∧ final.regs .ra = 0x1234 := by
  intro prog env start
  obtain ⟨lines, written, _, _, _, runs⟩ := frame_discipline prog (by decide) (by decide)
  obtain ⟨-, rfl⟩ := (assembly_eq_some prog lines).mp written
  have empty : objects (text prog) = [] := objects_text prog
  have abi : PrintfAbi env (text prog) :=
    ⟨fun _ => rfl, fun _ => rfl, fun _ _ _ => rfl, fun _ _ _ => rfl, fun _ => rfl⟩
  have placed : Placed env.symbol (text prog) (stacksize prog) (start.regs .sp).toNat := by
    refine ⟨by decide, ?_, ?_⟩ <;> simp [empty]
  obtain ⟨_, _, final, ran, same⟩ := runs env start abi placed
  exact ⟨by decide, _, final, written, ran, same⟩

/-- For `xx...x = 1` with 1007 letters there is no code of `main` to speak of. -/
theorem no_frame_for_long_name :
    ¬ ∀ prog : Stm, ∃ lines, assembly prog = some lines ∧
      Fits 16 (stacksize prog) (entry "main" lines) ∧ Matched (entry "main" lines) := by
  intro always
  obtain ⟨lines, written, -⟩ := always (assignXs 1006)
  exact assembly_assignXs written

end CssLab.Mcc.Riscv
