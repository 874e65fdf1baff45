import CssLab.Mcc.StmPrint

namespace CssLab.Mcc

open Enumeration

namespace Compilation

/-- In a process that makes these calls, every write of `set_add` and every `sprintf` is inside
its array exactly if no name is too long for a line and at no time more than `maxVar` distinct
names have been assigned since the last call of `compile`; and then the array and its
counters are what the set operations make of these names. -/
theorem set_inside_iff (calls : List Compilation) :
    ((after calls).isSome ↔
      (∀ call ∈ calls, call.Short) ∧
        ∀ earlier, earlier <+: calls → (assigned (recent earlier)).toFinset.card ≤ maxVar) ∧
    ∀ statics ∈ after calls,
      Stores statics.set (assigned (recent calls)).eraseDups
        (assigned (recent calls)).toFinset.card := by
  rcases after_cases calls with ⟨fit, statics, ran, holds⟩ | ⟨unfit, stopped⟩
  · refine ⟨iff_of_true (by rw [ran]; rfl) fit, ?_⟩
    rintro _ found
    cases ran.symm.trans found
    rw [← length_eraseDups]
    exact holds.set
  · rw [stopped]
    exact ⟨iff_of_false Bool.false_ne_true unfit, nofun⟩

theorem after_single (call : Compilation)
    (many : ¬(assigned (recent [call])).toFinset.card ≤ maxVar) : after [call] = none := by
  rcases after_cases [call] with ⟨fit, -⟩ | ⟨-, stopped⟩
  · exact absurd (fit.2 [call] (List.prefix_refl _)) many
  · exact stopped

end Compilation

/-- `x = 1; xx = 1; ...` with so many assignments behind the first one. -/
def xsStm : Nat → Stm
  | 0 => assignXs 0
  | more + 1 => .seq (xsStm more) (assignXs (more + 1))

theorem printable_assignXs (count : Nat) : (assignXs count).Printable := by
  refine ⟨⟨?_, ?_⟩, (by decide : (1 : BitVec 32).toNat < 2147483648)⟩
  · rw [String.toList_ofList, xs, List.replicate_succ, isId, List.all_replicate]
    split
    · rfl
    · rfl
  · rw [xs, List.replicate_succ]
    intro same
    have letters := congrArg String.toList same
    rw [String.toList_ofList] at letters
    exact absurd (List.cons.inj letters).1 (by decide)

theorem accepts_xsStm (more : Nat) : Accepts (xsStm more).body (xsStm more) := by
  have printable : (xsStm more).Printable := by
    induction more with
    | zero => exact printable_assignXs 0
    | succ more ih => exact ⟨ih, printable_assignXs (more + 1)⟩
  have room : (xsStm more).room = 3 := by
    induction more with
    | zero => rfl
    | succ more ih => rw [xsStm, Stm.room, ih printable.1]; rfl
  have leaning : (xsStm more).leaning = xsStm more := by
    clear printable room
    induction more with
    | zero => rfl
    | succ more ih => exact congrArg (Stm.seq · (assignXs (more + 1))) ih
  have accepts := accepts_body printable (by rw [room]; decide)
  rwa [leaning] at accepts

theorem assigned_xsStm (more : Nat) :
    (xsStm more).assigned = (List.range (more + 1)).map (String.ofList ∘ xs) := by
  induction more with
  | zero => rfl
  | succ more ih =>
    rw [xsStm, Stm.assigned, ih, List.range_succ (n := more + 1), List.map_append]
    rfl

theorem card_xsStm (more : Nat) : (xsStm more).assigned.toFinset.card = more + 1 := by
  have different : Function.Injective (String.ofList ∘ xs) := by
    intro first second same
    have lengths := congrArg List.length (String.ofList_injective same)
    simp only [xs, List.length_replicate] at lengths
    omega
  rw [assigned_xsStm, List.toFinset_card_of_nodup (List.nodup_range.map different),
    List.length_map, List.length_range]

theorem reads_xsStm (more : Nat) : (xsStm more).reads = [] := by
  induction more with
  | zero => rfl
  | succ more ih =>
    rw [xsStm, Stm.reads, ih]
    rfl

theorem short_xsStm {more assigned reads : Nat} (few : more < assigned) :
    (xsStm more).Short assigned reads := by
  constructor
  · rw [assigned_xsStm, List.forall_mem_map]
    intro count below
    rw [Function.comp_apply, utf8ByteSize_xs]
    exact (Nat.succ_le_of_lt (List.mem_range.mp below)).trans few
  · rw [reads_xsStm]
    exact List.forall_mem_nil _

/-- Both back ends write behind the array for assignments to 257 names, which the parser
accepts and which are all short. -/
theorem many_names_overrun :
    ∃ source prog, Accepts source prog ∧ X64.Short prog ∧ Riscv.Short prog ∧
      Compilation.after [.compile prog] = none ∧ Compilation.after [.riscvCompile prog] = none := by
  have many : ¬((xsStm maxVar).assigned ++ []).toFinset.card ≤ maxVar := by
    rw [List.append_nil, card_xsStm]
    exact Nat.not_succ_le_self maxVar
  exact ⟨_, xsStm maxVar, accepts_xsStm maxVar, short_xsStm (by decide), short_xsStm (by decide),
    Compilation.after_single (.compile _) many, Compilation.after_single (.riscvCompile _) many⟩

end CssLab.Mcc
