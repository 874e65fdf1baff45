import CssLab.Lib.Assembly
import CssLab.Mcc.Ast
import CssLab.Mcc.SetArray

/-! What the two back ends share: the state of the compiling process, to which `emit`
appends its lines. -/

namespace CssLab.Mcc

open CssLab.Assembly Enumeration

/-- `sizeof(instr)`, the array into which `sprintf` writes a line. -/
def instrSize : Nat := 1024

/-- The statics of the compiling process, and the lines written to the file so
far. `stackoffset` is used by the RISC-V back end only. -/
structure Compiler (Instr : Type) where
  set : SetT
  stackoffset : Int
  out : List (Line Instr)

/-- A process that has not compiled anything. -/
def Compiler.fresh : Compiler Instr := ⟨.zeroed, 4, []⟩

/-- The process is no longer defined when it has written past the end of an array. -/
abbrev Emit (Instr : Type) := StateT (Compiler Instr) Option

/-- `emit` of a line without a name. Where there is a number to format, at most eleven
characters, it has been through `instr`, which has room for it. -/
def emit (line : Line Instr) : Emit Instr Unit :=
  modify fun compiler => { compiler with out := compiler.out ++ [line] }

/-- The characters of the line and the zero byte that ends them are inside `instr`. -/
def InInstr (display : Instr → String) (line : Line Instr) : Prop :=
  (line.render display).utf8ByteSize < instrSize

instance (display : Instr → String) (line : Line Instr) : Decidable (InInstr display line) :=
  inferInstanceAs (Decidable ((line.render display).utf8ByteSize < instrSize))

/-- The names of a program are no longer than this, in bytes. -/
def Stm.Short (prog : Stm) (assigned reads : Nat) : Prop :=
  (∀ x ∈ prog.assigned, x.utf8ByteSize ≤ assigned) ∧ ∀ x ∈ prog.reads, x.utf8ByteSize ≤ reads

instance (prog : Stm) (assigned reads : Nat) : Decidable (prog.Short assigned reads) :=
  inferInstanceAs (Decidable ((∀ x ∈ prog.assigned, x.utf8ByteSize ≤ assigned) ∧
    ∀ x ∈ prog.reads, x.utf8ByteSize ≤ reads))

/-- `sprintf` of a line with a name in it into `instr`, and `emit`. -/
def emitName (display : Instr → String) (line : Line Instr) : Emit Instr Unit :=
  if InInstr display line then emit line else failure

def setAdd (var : String) : Emit Instr Unit := fun compiler =>
  (compiler.set.setAdd var).map fun set => ((), { compiler with set })

/-- `while ((var = set_next()))` of `emit_vars`, with the lines of one turn: those with the
name in them go through `instr`, and the others are shorter. -/
def emitVarsLoop (display : Instr → String) (layout : String → List (Line Instr))
    (compiler : Compiler Instr) : Option (Compiler Instr) :=
  match _next : compiler.set.setNext with
  | none => none
  | some (none, set) => some { compiler with set }
  | some (some var, set) =>
    if ∀ line ∈ layout var, InInstr display line then
      emitVarsLoop display layout { compiler with set, out := compiler.out ++ layout var }
    else none
  termination_by compiler.set.setCount - compiler.set.setCursor
  decreasing_by
    obtain ⟨inside, count, cursor⟩ := SetT.setNext_moves _next
    simp only [count, cursor]
    omega

/-- `emit_vars` of either back end: its section line, then the loop. -/
def emitVarsWith (display : Instr → String) (sectionLine : String)
    (layout : String → List (Line Instr)) : Emit Instr Unit := do
  emit (.text sectionLine)
  fun compiler => (emitVarsLoop display layout compiler).map fun after => ((), after)

/-- The format leaves room for a name of so many bytes. -/
theorem inInstr_iff (display : Instr → String) (line : Line Instr) (front name back : String)
    (text : line.render display = front ++ name ++ back)
    (rest : front.utf8ByteSize + back.utf8ByteSize = size) :
    InInstr display line ↔ name.utf8ByteSize + size < instrSize := by
  rw [InInstr, text, String.utf8ByteSize_append, String.utf8ByteSize_append]
  omega

theorem run_bind (first : Emit Instr α) (next : α → Emit Instr β) (compiler : Compiler Instr) :
    (first >>= next).run compiler =
      (first.run compiler).bind fun done => (next done.1).run done.2 := rfl

theorem run_seq_eq_some {action next : Emit Instr Unit} :
    (do action; next : Emit Instr Unit).run compiler = some ((), after) ↔
      ∃ middle, action.run compiler = some ((), middle) ∧ next.run middle = some ((), after) := by
  rw [run_bind, Option.bind_eq_some_iff]
  exact ⟨fun ⟨(_, middle), first, second⟩ => ⟨middle, first, second⟩,
    fun ⟨middle, first, second⟩ => ⟨((), middle), first, second⟩⟩

/-! ### The process without its array -/

/-- What has been added to the set since it was empty, how many of the distinct names
`emit_vars` has passed, and the rest of the process. -/
structure Draft (Instr : Type) where
  added : List String
  passed : Nat
  stackoffset : Int
  out : List (Line Instr)

/-- The process is this one, with the names in its array. -/
structure Compiler.Has (compiler : Compiler Instr) (draft : Draft Instr) : Prop where
  set : Stores compiler.set draft.added.eraseDups draft.passed
  stackoffset : compiler.stackoffset = draft.stackoffset
  out : compiler.out = draft.out

/-- What the action does to a process is to leave another one, if it keeps to the arrays. -/
def Ends (action : Emit Instr Unit) (compiler : Compiler Instr) (fits : Prop)
    (draft : Draft Instr) : Prop :=
  fits ∧ (∃ after, action.run compiler = some ((), after) ∧ after.Has draft) ∨
    ¬fits ∧ action.run compiler = none

/-- So it does to every process with one draft. -/
def Drafts (action : Emit Instr Unit) (before : Draft Instr) (fits : Prop)
    (after : Draft Instr) : Prop :=
  ∀ compiler : Compiler Instr, compiler.Has before → Ends action compiler fits after

theorem Compiler.has_fresh : (fresh : Compiler Instr).Has ⟨[], 0, 4, []⟩ :=
  ⟨stores_setReset .zeroed, rfl, rfl⟩

section Actions

variable {action next : Emit Instr Unit} {compiler : Compiler Instr} {fits also : Prop}
  {draft middle after : Draft Instr}

theorem Ends.bind (first : Ends action compiler fits middle)
    (second : Drafts next middle also after) :
    Ends (do action; next) compiler (fits ∧ also) after := by
  rcases first with ⟨holds, between, ran, has⟩ | ⟨fails, stopped⟩
  · have whole : (do action; next : Emit Instr Unit).run compiler = next.run between := by
      rw [run_bind, ran]
      rfl
    rw [Ends, whole]
    rcases second between has with ⟨holds', done⟩ | ⟨fails', stopped⟩
    · exact .inl ⟨⟨holds, holds'⟩, done⟩
    · exact .inr ⟨fun both => fails' both.2, stopped⟩
  · refine .inr ⟨fun both => fails both.1, ?_⟩
    rw [run_bind, stopped]
    rfl

theorem Ends.of_iff (ends : Ends action compiler fits draft) (same : fits ↔ also)
    (equal : draft = after) : Ends action compiler also after := by
  subst equal
  rwa [Ends, ← same]

theorem Drafts.bind (first : Drafts action draft fits middle)
    (second : Drafts next middle also after) :
    Drafts (do action; next) draft (fits ∧ also) after :=
  fun compiler has => (first compiler has).bind second

/-- The names that the process has already are inside their array. -/
theorem Drafts.of_iff (drafts : Drafts action draft fits middle)
    (same : draft.added.eraseDups.length ≤ maxVar → (fits ↔ also)) (equal : middle = after) :
    Drafts action draft also after :=
  fun compiler has => (drafts compiler has).of_iff (same has.set.fits) equal

/-- Where the action fits it leaves a process, which has written this. -/
theorem Ends.exists_iff (ends : Ends action compiler fits draft)
    {p : List (Line Instr) → Prop} :
    (∃ after, action.run compiler = some ((), after) ∧ p after.out) ↔ fits ∧ p draft.out := by
  rcases ends with ⟨inside, reached, ran, has⟩ | ⟨outside, stopped⟩
  · rw [and_iff_right inside, ← has.out, ran]
    exact ⟨fun ⟨_, same, held⟩ => by cases same; exact held, fun held => ⟨reached, rfl, held⟩⟩
  · rw [stopped]
    exact iff_of_false (fun ⟨_, ran, _⟩ => nomatch ran) fun both => outside both.1

theorem Ends.out_iff (ends : Ends action compiler fits draft) {text : List (Line Instr)} :
    (action.run compiler).map (fun done => done.2.out) = some text ↔ fits ∧ draft.out = text := by
  have written := ends.exists_iff (p := fun out => out = text)
  rw [← written, Option.map_eq_some_iff]
  exact ⟨fun ⟨((), after), ran, same⟩ => ⟨after, ran, same⟩,
    fun ⟨after, ran, same⟩ => ⟨((), after), ran, same⟩⟩

theorem drafts_emit (line : Line Instr) (added : List String) (passed : Nat) (offset : Int)
    (out : List (Line Instr)) :
    Drafts (emit line) ⟨added, passed, offset, out⟩ True
      ⟨added, passed, offset, out ++ [line]⟩ := by
  intro compiler has
  refine .inl ⟨trivial, _, rfl, has.set, has.stackoffset, ?_⟩
  change compiler.out ++ [line] = out ++ [line]
  rw [has.out]

theorem Drafts.emit {line : Line Instr} {added : List String} {passed : Nat} {offset : Int}
    {out : List (Line Instr)}
    (rest : Drafts next ⟨added, passed, offset, out ++ [line]⟩ fits after) :
    Drafts (do emit line; next) ⟨added, passed, offset, out⟩ fits after :=
  ((drafts_emit line added passed offset out).bind rest).of_iff (fun _ => and_iff_right trivial)
    rfl

theorem drafts_emitName (display : Instr → String) (line : Line Instr) (added : List String)
    (passed : Nat) (offset : Int) (out : List (Line Instr)) :
    Drafts (emitName display line) ⟨added, passed, offset, out⟩ (InInstr display line)
      ⟨added, passed, offset, out ++ [line]⟩ := by
  intro compiler has
  by_cases inside : InInstr display line
  · rw [emitName, if_pos inside]
    exact (drafts_emit line added passed offset out compiler has).of_iff
      (iff_of_true trivial inside) rfl
  · rw [emitName, if_neg inside]
    exact .inr ⟨inside, rfl⟩

/-- The distinct names after one more are no more than `maxVar`. -/
theorem drafts_setAdd (var : String) (added : List String) (passed : Nat) (offset : Int)
    (out : List (Line Instr)) :
    Drafts (setAdd var) ⟨added, passed, offset, out⟩
      ((added ++ [var]).eraseDups.length ≤ maxVar) ⟨added ++ [var], passed, offset, out⟩ := by
  intro compiler has
  have stores : Stores compiler.set added.eraseDups passed := has.set
  rw [eraseDups_concat]
  by_cases old : var ∈ added
  · have kept := stores.setAdd_old (List.mem_eraseDups.mpr old)
    rw [if_pos old]
    refine .inl ⟨stores.fits, compiler, ?_, ?_, has.stackoffset, has.out⟩
    · change (compiler.set.setAdd var).map _ = _
      rw [kept]
      rfl
    · rw [eraseDups_concat, if_pos old]
      exact stores
  · have new : var ∉ added.eraseDups := fun found => old (List.mem_eraseDups.mp found)
    rw [if_neg old, List.length_append, List.length_singleton]
    by_cases room : added.eraseDups.length < maxVar
    · obtain ⟨set, grown, stores'⟩ := stores.setAdd_new new room
      refine .inl ⟨room, { compiler with set }, ?_, ?_, has.stackoffset, has.out⟩
      · change (compiler.set.setAdd var).map _ = _
        rw [grown]
        rfl
      · rw [eraseDups_concat, if_neg old]
        exact stores'
    · refine .inr ⟨room, ?_⟩
      change (compiler.set.setAdd var).map _ = _
      rw [stores.setAdd_full new room]
      rfl

end Actions

/-- The set has room for the names of both statements, which are all short. -/
theorem fits_seq (added : List String) (left right : Stm) (assigned reads : Nat) :
    ((added ++ left.assigned).eraseDups.length ≤ maxVar ∧ left.Short assigned reads) ∧
        ((added ++ left.assigned) ++ right.assigned).eraseDups.length ≤ maxVar ∧
          right.Short assigned reads ↔
      (added ++ (Stm.seq left right).assigned).eraseDups.length ≤ maxVar ∧
        (Stm.seq left right).Short assigned reads := by
  have fewer := length_eraseDups_le (added ++ left.assigned) right.assigned
  simp only [Stm.Short, Stm.assigned, Stm.reads, List.forall_mem_append, List.append_assoc]
    at fewer ⊢
  constructor
  · rintro ⟨⟨_, assigned, reads⟩, few, assigned', reads'⟩
    exact ⟨few, ⟨assigned, assigned'⟩, reads, reads'⟩
  · rintro ⟨few, ⟨assigned, assigned'⟩, reads, reads'⟩
    exact ⟨⟨fewer.trans few, assigned, reads⟩, few, assigned', reads'⟩

section EmitVars

variable {display : Instr → String} {layout : String → List (Line Instr)}
  {compiler : Compiler Instr}

theorem emitVarsLoop_end {set : SetT} (next : compiler.set.setNext = some (none, set)) :
    emitVarsLoop display layout compiler = some { compiler with set } := by
  rw [emitVarsLoop]
  split
  · rename_i same
    cases next.symm.trans same
  · rename_i same
    cases next.symm.trans same
    rfl
  · rename_i same
    cases next.symm.trans same

theorem emitVarsLoop_next {set : SetT} (next : compiler.set.setNext = some (some var, set)) :
    emitVarsLoop display layout compiler =
      if ∀ line ∈ layout var, InInstr display line then
        emitVarsLoop display layout { compiler with set, out := compiler.out ++ layout var }
      else none := by
  rw [emitVarsLoop]
  split
  · rename_i same
    cases next.symm.trans same
  · rename_i same
    cases next.symm.trans same
  · rename_i same
    cases next.symm.trans same
    rfl

/-- The loop lays out the names from the cursor on, in their order, as long as their lines
have room in `instr`, and stops with the cursor at the end. -/
theorem emitVarsLoop_stores {names : List String} {cursor : Nat}
    (stores : Stores compiler.set names cursor) (within : cursor ≤ names.length) :
    (∀ var ∈ names.drop cursor, ∀ line ∈ layout var, InInstr display line) ∧
        (∃ set, emitVarsLoop display layout compiler = some { compiler with
            set, out := compiler.out ++ (names.drop cursor).flatMap layout } ∧
          Stores set names names.length) ∨
      ¬(∀ var ∈ names.drop cursor, ∀ line ∈ layout var, InInstr display line) ∧
        emitVarsLoop display layout compiler = none := by
  induction ahead : names.length - cursor generalizing compiler cursor with
  | zero =>
    obtain rfl : cursor = names.length := by omega
    obtain ⟨set, next, stores'⟩ := stores.setNext
    rw [List.getElem?_eq_none (Nat.le_refl _)] at next stores'
    rw [List.drop_length]
    refine .inl ⟨nofun, set, ?_, stores'⟩
    rw [emitVarsLoop_end next, List.flatMap_nil, List.append_nil]
  | succ rest ih =>
    have below : cursor < names.length := by omega
    have split := List.drop_eq_getElem_cons below
    obtain ⟨set, next, stores'⟩ := stores.setNext
    rw [List.getElem?_eq_getElem below] at next stores'
    rw [split, List.forall_mem_cons, emitVarsLoop_next next]
    by_cases inside : ∀ line ∈ layout names[cursor], InInstr display line
    · rw [if_pos inside, and_iff_right inside, List.flatMap_cons, ← List.append_assoc]
      have left : names.length - (cursor + 1) = rest := by omega
      exact @ih { compiler with set, out := compiler.out ++ layout names[cursor] } (cursor + 1)
        stores' below left
    · rw [if_neg inside]
      exact .inr ⟨fun both => inside both.1, rfl⟩

theorem drafts_emitVarsWith (display : Instr → String) (sectionLine : String)
    (layout : String → List (Line Instr)) {added : List String} {passed : Nat} (offset : Int)
    (out : List (Line Instr)) (within : passed ≤ added.eraseDups.length) :
    Drafts (emitVarsWith display sectionLine layout) ⟨added, passed, offset, out⟩
      (∀ var ∈ added.eraseDups.drop passed, ∀ line ∈ layout var, InInstr display line)
      ⟨added, added.eraseDups.length, offset,
        out ++ .text sectionLine :: (added.eraseDups.drop passed).flatMap layout⟩ := by
  refine .emit fun compiler has => ?_
  rcases @emitVarsLoop_stores _ display layout compiler _ _ has.set within with
    ⟨inside, set, ran, stores⟩ | ⟨outside, stopped⟩
  · refine .inl ⟨inside, _, congrArg (Option.map _) ran, stores, has.stackoffset, ?_⟩
    change compiler.out ++ _ = _
    rw [has.out, List.append_assoc]
    rfl
  · exact .inr ⟨outside, congrArg (Option.map _) stopped⟩

end EmitVars

end CssLab.Mcc
