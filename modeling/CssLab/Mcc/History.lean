import CssLab.Lib.Transition
import CssLab.Mcc.Riscv.Compile
import CssLab.Mcc.X64.Compile

namespace CssLab.Mcc

open CssLab.Assembly Enumeration Transition

/-- The statics that outlive a call: the set, which both back ends use, and the
`stackoffset` of one of them. -/
structure Statics where
  set : SetT
  stackoffset : Int

namespace Statics

def fresh : Statics := ⟨.zeroed, 4⟩

/-- The process at the begin of a call, which writes to a file of its own. -/
def compiler (statics : Statics) : Compiler Instr := ⟨statics.set, statics.stackoffset, []⟩

/-- What a call leaves behind. -/
def left (compiler : Compiler Instr) : Statics := ⟨compiler.set, compiler.stackoffset⟩

end Statics

/-- A call of one of the two entry points. -/
inductive Compilation where
  | compile (prog : Stm)
  | riscvCompile (prog : Stm)

namespace Compilation

def prog : Compilation → Stm
  | .compile prog => prog
  | .riscvCompile prog => prog

def text (statics : Statics) : Compilation → Option String
  | .compile prog => do
    let done ← (X64.compile prog).run statics.compiler
    some (render X64.Instr.render done.2.out)
  | .riscvCompile prog => do
    let done ← (Riscv.riscvCompile prog).run statics.compiler
    some (render Riscv.Instr.render done.2.out)

def leaves (statics : Statics) : Compilation → Option Statics
  | .compile prog => do
    let done ← (X64.compile prog).run statics.compiler
    some (.left done.2)
  | .riscvCompile prog => do
    let done ← (Riscv.riscvCompile prog).run statics.compiler
    some (.left done.2)

/-- The process after the calls, the first one first. -/
def after (calls : List Compilation) : Option Statics := follow leaves .fresh calls

/-- The text of a call behind others. -/
def textAfter (calls : List Compilation) (call : Compilation) : Option String := do
  let statics ← after calls
  call.text statics

/-- The names leave room for the lines of the call. -/
def Short : Compilation → Prop
  | .compile prog => X64.Short prog
  | .riscvCompile prog => Riscv.Short prog

instance (call : Compilation) : Decidable call.Short :=
  match call with
  | .compile prog => inferInstanceAs (Decidable (X64.Short prog))
  | .riscvCompile prog => inferInstanceAs (Decidable (Riscv.Short prog))

/-- The last call of `compile` and what came after it, or all calls if there was none. -/
def recent (calls : List Compilation) : List Compilation :=
  calls.foldl (fun calls call =>
    match call with
    | .compile _ => [call]
    | .riscvCompile _ => calls ++ [call]) []

def assigned (calls : List Compilation) : List String :=
  calls.flatMap fun call => call.prog.assigned

/-- The distinct names of the programs. -/
def names (calls : List Compilation) : Finset String :=
  (calls.flatMap fun call => call.prog.assigned ++ call.prog.reads).toFinset

/-- What has been added since the last `set_reset`, after one more call. -/
def adds (added : List String) : Compilation → List String
  | .compile prog => prog.assigned
  | .riscvCompile prog => added ++ prog.assigned

/-- What the call writes if this has been added before. -/
def written (added : List String) : Compilation → String
  | .compile prog => render X64.Instr.render (X64.text prog)
  | .riscvCompile prog =>
    render Riscv.Instr.render (Riscv.textWith (prog.assigned.removeAll added).eraseDups prog)

end Compilation

/-- The set holds what has been added, all of it laid out. -/
structure Statics.Holds (statics : Statics) (added : List String) : Prop where
  set : Stores statics.set added.eraseDups added.eraseDups.length
  stackoffset : statics.stackoffset = 4
  short : ∀ x ∈ added, x.utf8ByteSize ≤ 1006

theorem Statics.holds_fresh : Statics.fresh.Holds [] :=
  ⟨stores_setReset .zeroed, rfl, nofun⟩

theorem Statics.Holds.has (holds : Statics.Holds statics added) :
    (statics.compiler : Compiler Instr).Has ⟨added, added.eraseDups.length, 4, []⟩ :=
  ⟨holds.set, holds.stackoffset, rfl⟩

namespace Compilation

theorem Short.adds {call : Compilation} (short : call.Short)
    (before : ∀ x ∈ added, x.utf8ByteSize ≤ 1006) :
    ∀ x ∈ call.adds added, x.utf8ByteSize ≤ 1006 := by
  intro x member
  cases call with
  | compile prog =>
    have shorter : X64.Short prog := short
    exact (shorter.1 x member).trans (by decide)
  | riscvCompile prog =>
    have shorter : Riscv.Short prog := short
    rcases List.mem_append.mp member with old | new
    · exact before x old
    · exact shorter.1 x new

/-- A call adds its names, if there is room for them. -/
theorem Holds.call {statics : Statics} (holds : statics.Holds added) (call : Compilation) :
    ((call.adds added).toFinset.card ≤ maxVar ∧ call.Short) ∧
        call.text statics = some (call.written added) ∧
        (∃ last, call.leaves statics = some last ∧ last.Holds (call.adds added)) ∨
      ¬((call.adds added).toFinset.card ≤ maxVar ∧ call.Short) ∧
        call.text statics = none ∧ call.leaves statics = none := by
  rw [← length_eraseDups]
  cases call with
  | compile prog =>
    rcases X64.ends_compile prog statics.compiler with ⟨fits, done, ran, has⟩ | ⟨fails, stopped⟩
    · rw [← length_eraseDups] at fits
      refine .inl ⟨fits, ?_, .left done, ?_, has.set, ?_, Short.adds fits.2 holds.short⟩
      · rw [text, ran]
        exact congrArg (fun out => some (render X64.Instr.render out)) has.out
      · rw [leaves, ran]
        rfl
      · exact has.stackoffset.trans holds.stackoffset
    · rw [← length_eraseDups] at fails
      refine .inr ⟨fails, ?_, ?_⟩
      · rw [text, stopped]
        rfl
      · rw [leaves, stopped]
        rfl
  | riscvCompile prog =>
    rcases Riscv.drafts_riscvCompile added [] prog holds.short _ holds.has with
      ⟨fits, done, ran, has⟩ | ⟨fails, stopped⟩
    · refine .inl ⟨fits, ?_, .left done, ?_, has.set, has.stackoffset,
        Short.adds fits.2 holds.short⟩
      · rw [text, ran]
        exact congrArg (fun out => some (render Riscv.Instr.render out)) has.out
      · rw [leaves, ran]
        rfl
    · refine .inr ⟨fails, ?_, ?_⟩
      · rw [text, stopped]
        rfl
      · rw [leaves, stopped]
        rfl

theorem assigned_recent_concat (calls : List Compilation) (call : Compilation) :
    assigned (recent (calls ++ [call])) = call.adds (assigned (recent calls)) := by
  cases call with
  | compile prog => simp [recent, assigned, adds, Compilation.prog]
  | riscvCompile prog => simp [recent, assigned, adds, Compilation.prog]

/-- No call has a name that is too long, and at no time since the last `compile` have more
names been assigned than the set has room for. -/
def Fit (calls : List Compilation) : Prop :=
  (∀ call ∈ calls, call.Short) ∧
    ∀ earlier, earlier <+: calls → (assigned (recent earlier)).toFinset.card ≤ maxVar

theorem fit_concat (calls : List Compilation) (call : Compilation) :
    Fit (calls ++ [call]) ↔
      Fit calls ∧ (call.adds (assigned (recent calls))).toFinset.card ≤ maxVar ∧ call.Short := by
  rw [← assigned_recent_concat]
  constructor
  · rintro ⟨short, few⟩
    refine ⟨⟨fun other made => short other (List.mem_append_left _ made), ?_⟩,
      few _ (List.prefix_refl _), short call (by simp)⟩
    exact fun earlier before => few earlier (before.trans (List.prefix_append _ _))
  · rintro ⟨⟨short, few⟩, few', short'⟩
    refine ⟨List.forall_mem_append.mpr ⟨short, List.forall_mem_singleton.mpr short'⟩, ?_⟩
    intro earlier before
    rcases List.prefix_concat_iff.mp before with rfl | shorter
    · exact few'
    · exact few earlier shorter

theorem after_concat (calls : List Compilation) (call : Compilation) :
    after (calls ++ [call]) = (after calls).bind call.leaves := by
  rw [after, after, follow_append]
  exact congrArg _ (funext fun statics => Option.bind_fun_some _)

/-- After any calls that fit, the set holds what has been assigned since the last `compile`. -/
theorem after_cases (calls : List Compilation) :
    Fit calls ∧ (∃ statics, after calls = some statics ∧
        statics.Holds (assigned (recent calls))) ∨
      ¬Fit calls ∧ after calls = none := by
  induction calls using List.reverseRecOn with
  | nil =>
    refine .inl ⟨⟨nofun, fun earlier before => ?_⟩, .fresh, rfl, Statics.holds_fresh⟩
    rw [List.prefix_nil.mp before]
    exact Nat.zero_le _
  | append_singleton calls call ih =>
    rw [fit_concat, after_concat, assigned_recent_concat]
    rcases ih with ⟨fit, statics, ran, holds⟩ | ⟨unfit, stopped⟩
    · rw [ran, Option.bind_some]
      rcases Holds.call holds call with ⟨fits, -, left⟩ | ⟨fails, -, stopped⟩
      · exact .inl ⟨⟨fit, fits⟩, left⟩
      · exact .inr ⟨fun both => fails both.2, stopped⟩
    · rw [stopped]
      exact .inr ⟨fun both => unfit both.1, rfl⟩

/-- The text of a call behind others, where the calls before it fit and it does too. -/
theorem textAfter_eq_some {calls : List Compilation} {call : Compilation} :
    textAfter calls call = some out ↔
      Fit (calls ++ [call]) ∧ call.written (assigned (recent calls)) = out := by
  rw [fit_concat, textAfter]
  rcases after_cases calls with ⟨fit, statics, ran, holds⟩ | ⟨unfit, stopped⟩
  · rw [ran, and_iff_right fit]
    change call.text statics = some out ↔ _
    rcases Holds.call holds call with ⟨fits, written, -⟩ | ⟨fails, stopped, -⟩
    · rw [written, Option.some_inj, and_iff_right fits]
    · rw [stopped]
      exact iff_of_false nofun fun both => fails both.1
  · rw [stopped]
    exact iff_of_false nofun fun both => unfit both.1.1

theorem recent_subset (calls : List Compilation) : recent calls ⊆ calls := by
  induction calls using List.reverseRecOn with
  | nil => exact List.Subset.refl _
  | append_singleton calls call ih =>
    cases call with
    | compile prog => simp [recent]
    | riscvCompile prog =>
      rw [recent, List.foldl_append]
      exact List.append_subset.mpr
        ⟨List.Subset.trans ih (List.subset_append_left _ _), List.subset_append_right _ _⟩

theorem names_mono {calls more : List Compilation} (sub : calls ⊆ more) :
    names calls ⊆ names more := by
  intro name member
  rw [names, List.mem_toFinset, List.mem_flatMap] at member ⊢
  obtain ⟨call, made, inside⟩ := member
  exact ⟨call, sub made, inside⟩

theorem fit_of_few {calls : List Compilation} (few : (names calls).card ≤ maxVar)
    (short : ∀ call ∈ calls, call.Short) : Fit calls := by
  refine ⟨short, fun earlier before => le_trans (Finset.card_le_card fun name member => ?_) few⟩
  rw [List.mem_toFinset, assigned, List.mem_flatMap] at member
  obtain ⟨call, made, assigns⟩ := member
  rw [names, List.mem_toFinset, List.mem_flatMap]
  exact ⟨call, before.subset (recent_subset earlier made), List.mem_append_left _ assigns⟩

/-- The RISC-V text misses the names that the set had before. -/
theorem written_riscvCompile (added : List String) (prog : Stm) :
    (riscvCompile prog).written added = (riscvCompile prog).written [] ↔
      ∀ x ∈ prog.assigned, x ∉ added := by
  have laidOut : (prog.assigned.removeAll added).eraseDups =
      (dataVars prog).filter fun x => !added.elem x :=
    eraseDups_filter _ _
  have all : (prog.assigned.removeAll []).eraseDups = dataVars prog :=
    congrArg _ List.removeAll_nil
  have visible (name : String) :
      0 < (render Riscv.Instr.render (Riscv.emitVar name)).length := by
    have align : "\t.align\t2\n".length = 10 := rfl
    simp only [Riscv.emitVar, render, Line.render, String.length_append, align]
    omega
  have text (vars : List String) : render Riscv.Instr.render (Riscv.textWith vars prog) =
      render Riscv.Instr.render
          (Riscv.header ++ (Riscv.mainCode prog ++ [Riscv.Instr.jr .ra]).map .instr) ++
        ("\n\t.section\t.sdata\n" ++
          (render Riscv.Instr.render (vars.flatMap Riscv.emitVar) ++ "# End and bye.\n\n")) := by
    simp [Riscv.textWith, Riscv.trailer, render_append, render, Line.render, String.append_assoc]
  rw [written, written, laidOut, all, text, text, String.append_right_inj,
    String.append_right_inj, String.append_left_inj, render_filter_iff visible]
  refine forall_congr' fun x => imp_congr (mem_dataVars prog x) ?_
  simp

/-- The same text behind the calls as in a fresh process. -/
theorem same_iff {calls : List Compilation} {call : Compilation}
    (few : (names (calls ++ [call])).card ≤ maxVar) :
    (∃ out, textAfter calls call = some out ∧ textAfter [] call = some out) ↔
      (∀ other ∈ calls, other.Short) ∧ call.Short ∧
        call.written (assigned (recent calls)) = call.written [] := by
  simp only [textAfter_eq_some]
  constructor
  · rintro ⟨out, ⟨⟨short, -⟩, same⟩, -, same'⟩
    exact ⟨fun other made => short other (List.mem_append_left _ made), short call (by simp),
      same.trans same'.symm⟩
  · rintro ⟨short, short', same⟩
    have all : ∀ other ∈ calls ++ [call], other.Short :=
      List.forall_mem_append.mpr ⟨short, List.forall_mem_singleton.mpr short'⟩
    have alone : (names ([] ++ [call])).card ≤ maxVar :=
      (Finset.card_le_card (names_mono (List.subset_append_right _ _))).trans few
    exact ⟨_, ⟨fit_of_few few all, same⟩,
      fit_of_few alone (List.forall_mem_singleton.mpr short'), rfl⟩

/-- Of at most `maxVar` names in all, a call of `compile` writes what it writes in a fresh
process exactly when no name of it and of the calls before is too long for a line. For one of
`riscv_compile` its program must also assign no variable that has been assigned since the
last call of `compile`, or in it. -/
theorem independent_iff (calls : List Compilation) (prog : Stm)
    (few : (names (calls ++ [.compile prog])).card ≤ maxVar) :
    ((∃ out, textAfter calls (compile prog) = some out ∧
        textAfter [] (compile prog) = some out) ↔
      (∀ call ∈ calls, call.Short) ∧ X64.Short prog) ∧
    ((∃ out, textAfter calls (riscvCompile prog) = some out ∧
        textAfter [] (riscvCompile prog) = some out) ↔
      (∀ call ∈ calls, call.Short) ∧ Riscv.Short prog ∧
        ∀ x ∈ prog.assigned, x ∉ assigned (recent calls)) := by
  have few' : (names (calls ++ [.riscvCompile prog])).card ≤ maxVar := by
    simpa [names, Compilation.prog] using few
  constructor
  · rw [same_iff few]
    exact ⟨fun ⟨short, short', _⟩ => ⟨short, short'⟩, fun ⟨short, short'⟩ => ⟨short, short', rfl⟩⟩
  · rw [same_iff few', written_riscvCompile]
    exact Iff.rfl

/-- `riscv_compile` of `x = 1` after `compile` of `y = 2` and `riscv_compile` of `z = 3`. -/
theorem independent_iff_other :
    let calls : List Compilation :=
      [.riscvCompile (.assign "x" (.num 0)), .compile (.assign "y" (.num 2)),
        .riscvCompile (.assign "z" (.num 3))]
    let prog : Stm := .assign "x" (.num 1)
    ∃ out, textAfter calls (riscvCompile prog) = some out ∧
      textAfter [] (riscvCompile prog) = some out := by
  intro calls prog
  exact (independent_iff calls prog (by decide)).2.mpr (by decide)

/-- The second of two calls of `riscv_compile` with `x = 1` does not lay out `x`. -/
theorem second_text_differs :
    ¬ ∀ (calls : List Compilation) (call : Compilation), (names (calls ++ [call])).card ≤ maxVar →
      textAfter calls call = textAfter [] call := by
  intro always
  let call : Compilation := .riscvCompile (.assign "x" (.num 1))
  have same := always [call] call (by decide)
  have fresh : textAfter [] call = some (call.written []) :=
    textAfter_eq_some.mpr ⟨fit_of_few (by decide) (by decide), rfl⟩
  obtain ⟨-, differs⟩ := textAfter_eq_some.mp (same.trans fresh)
  exact (written_riscvCompile ["x"] (.assign "x" (.num 1))).mp differs "x" (by decide) (by decide)

end Compilation

end CssLab.Mcc
