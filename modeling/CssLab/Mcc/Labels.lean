import CssLab.Mcc.Parser
import CssLab.Mcc.Riscv.Machine
import CssLab.Mcc.X64.Machine

namespace CssLab.Mcc

open CssLab.Assembly

/-- Of a program with few names either back end writes a text with each label once and each
symbol defined exactly when the names are short and the text can tell them from its own.
`compile` may follow other compilations; `riscv_compile` starts from an empty set. -/
theorem labels_once_iff (prog : Stm) (few : prog.names.card ≤ maxVar)
    (earlier : Compiler X64.Instr) (blank : earlier.out = []) :
    ((∃ done, (X64.compile prog).run earlier = some ((), done) ∧
        Links X64.Instr.refers ["printf"] done.out) ↔ X64.Short prog ∧ prog.Named) ∧
      ((∃ done, (Riscv.riscvCompile prog).run .fresh = some ((), done) ∧
        Links Riscv.Instr.refers ["printf"] done.out) ↔ Riscv.Short prog ∧ prog.Named) := by
  have fewer := (card_assigned_le prog).trans few
  have wide := X64.ends_compile prog earlier
  rw [blank, List.nil_append] at wide
  have narrow := Riscv.ends_riscvCompile prog
  constructor
  · rw [wide.exists_iff, X64.links_iff, and_iff_right fewer]
  · rw [narrow.exists_iff, Riscv.links_iff, and_iff_right fewer]

/-- `x = 1; print(x)` links. -/
theorem labels_once_iff_assigned :
    let prog : Stm := .seq (.assign "x" (.num 1)) (.print (.var "x"))
    (∃ done, (X64.compile prog).run .fresh = some ((), done) ∧
        Links X64.Instr.refers ["printf"] done.out) ∧
      ∃ done, (Riscv.riscvCompile prog).run .fresh = some ((), done) ∧
        Links Riscv.Instr.refers ["printf"] done.out := by
  intro prog
  have named : prog.Named := .of_closed (by decide) (by decide)
  obtain ⟨wide, narrow⟩ := labels_once_iff prog (by decide) .fresh rfl
  exact ⟨wide.mpr ⟨by decide, named⟩, narrow.mpr ⟨by decide, named⟩⟩

/-- The parser accepts `main = 1`, which gives either text two labels `main`. -/
theorem main_twice :
    let prog : Stm := .assign "main" (.num 1)
    Accepts ['m', 'a', 'i', 'n', ' ', '=', ' ', '1'] prog ∧ prog.names.card ≤ maxVar ∧
      (∃ lines, X64.assembly prog = some lines ∧ ¬ Links X64.Instr.refers ["printf"] lines) ∧
      ∃ lines, Riscv.assembly prog = some lines ∧ ¬ Links Riscv.Instr.refers ["printf"] lines := by
  intro prog
  have clash : ¬ prog.Named := fun named => named.assigned "main" (by decide) (by decide)
  exact ⟨⟨10, by decide⟩, by decide,
    ⟨_, (X64.assembly_eq_some prog _).mpr ⟨by decide, rfl⟩, mt (X64.links_iff prog).mp clash⟩,
    ⟨_, (Riscv.assembly_eq_some prog _).mpr ⟨by decide, rfl⟩, mt (Riscv.links_iff prog).mp clash⟩⟩

end CssLab.Mcc
