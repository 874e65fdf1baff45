import Mathlib.Data.List.Nodup

/-! Assembly text and its straight-line execution, for any instruction set.
The text is what a compiler writes line by line; a processor supplies the
effect of one instruction. There are no jumps inside a function here: control
leaves the text only at an instruction that returns. -/

namespace CssLab.Assembly

variable {Instr State : Type}

/-- One emitted line. Directives without effect on the program keep their text
only; `zeros` lays out zero bytes, and a label may share its line with more text. -/
inductive Line (Instr : Type) where
  | text (line : String)
  | label (name rest : String)
  | zeros (directive : String) (bytes : Nat)
  | instr (instr : Instr)
  deriving Repr, DecidableEq

def Line.render (display : Instr → String) : Line Instr → String
  | .text line => line
  | .label name rest => name ++ ":" ++ rest ++ "\n"
  | .zeros directive _ => directive
  | .instr op => display op

/-- The text as it is written. -/
def render (display : Instr → String) : List (Line Instr) → String
  | [] => ""
  | line :: rest => line.render display ++ render display rest

/-- Every label in order, with repetitions. -/
def labels (text : List (Line Instr)) : List String :=
  text.filterMap fun
    | .label name _ => some name
    | _ => none

/-- The instructions in order, whatever stands between them. -/
def code (text : List (Line Instr)) : List Instr :=
  text.filterMap fun
    | .instr op => some op
    | _ => none

/-- The zeroed objects: a label whose next line lays out its bytes. -/
def objects : List (Line Instr) → List (String × Nat)
  | .label name _ :: .zeros _ bytes :: rest => (name, bytes) :: objects rest
  | _ :: rest => objects rest
  | [] => []

/-- Is this the line that defines `name`? -/
def Line.defines (name : String) : Line Instr → Bool
  | .label other _ => other == name
  | _ => false

/-- The instructions from a label to the end of the text. -/
def entry (name : String) (text : List (Line Instr)) : List Instr :=
  code (text.dropWhile fun line => !line.defines name)

/-- Every symbol an instruction refers to is external or defined, no label is
defined twice, and no label captures an external symbol. -/
structure Links (refers : Instr → List String) (external : List String)
    (text : List (Line Instr)) : Prop where
  defined : ∀ instr ∈ code text, ∀ name ∈ refers instr, name ∈ external ∨ name ∈ labels text
  once : (labels text).Nodup
  free : ∀ name ∈ external, name ∉ labels text

@[simp] theorem labels_append (first second : List (Line Instr)) :
    labels (first ++ second) = labels first ++ labels second := List.filterMap_append

@[simp] theorem code_append (first second : List (Line Instr)) :
    code (first ++ second) = code first ++ code second := List.filterMap_append

@[simp] theorem code_instrs (instrs : List Instr) : code (instrs.map Line.instr) = instrs := by
  induction instrs with
  | nil => rfl
  | cons instr rest ih => simp [code]

@[simp] theorem labels_instrs (instrs : List Instr) : labels (instrs.map Line.instr) = [] := by
  induction instrs with
  | nil => rfl
  | cons instr rest ih => simp [labels]

/-- Instructions lay nothing out. -/
theorem objects_instrs (instrs : List Instr) (text : List (Line Instr)) :
    objects (instrs.map Line.instr ++ text) = objects text := by
  induction instrs with
  | nil => rfl
  | cons instr rest ih => simpa [objects] using ih

/-! A text that lays out one object after the other. -/

theorem code_flatMap {emit : String → List (Line Instr)} (empty : ∀ name, code (emit name) = [])
    (names : List String) : code (names.flatMap emit) = [] := by
  induction names with
  | nil => rfl
  | cons name rest ih => rw [List.flatMap_cons, code_append, empty, ih, List.append_nil]

theorem labels_flatMap {emit : String → List (Line Instr)}
    (one : ∀ name, labels (emit name) = [name]) (names : List String) :
    labels (names.flatMap emit) = names := by
  induction names with
  | nil => rfl
  | cons name rest ih => rw [List.flatMap_cons, labels_append, one, ih, List.singleton_append]

theorem objects_flatMap {emit : String → List (Line Instr)}
    (one : ∀ name text, objects (emit name ++ text) = (name, width) :: objects text)
    (names : List String) (text : List (Line Instr)) :
    objects (names.flatMap emit ++ text) =
      names.map (fun name => (name, width)) ++ objects text := by
  induction names with
  | nil => rfl
  | cons name rest ih =>
    rw [List.flatMap_cons, List.append_assoc, one, ih, List.map_cons, List.cons_append]

theorem render_append (display : Instr → String) (first second : List (Line Instr)) :
    render display (first ++ second) = render display first ++ render display second := by
  induction first with
  | nil => simp [render]
  | cons line rest ih => rw [List.cons_append, render, render, ih, String.append_assoc]

theorem length_render_filter (display : Instr → String) (emit : String → List (Line Instr))
    (keep : String → Bool) (names : List String) :
    (render display ((names.filter keep).flatMap emit)).length ≤
      (render display (names.flatMap emit)).length := by
  induction names with
  | nil => exact Nat.le_refl _
  | cons name rest ih =>
    rw [List.filter_cons, List.flatMap_cons, render_append, String.length_append]
    split
    · rw [List.flatMap_cons, render_append, String.length_append]
      omega
    · omega

/-- Leaving objects out shows, if each of them is written as something. -/
theorem render_filter_iff {display : Instr → String} {emit : String → List (Line Instr)}
    (visible : ∀ name, 0 < (render display (emit name)).length)
    (keep : String → Bool) (names : List String) :
    render display ((names.filter keep).flatMap emit) = render display (names.flatMap emit) ↔
      ∀ name ∈ names, keep name := by
  induction names with
  | nil => simp
  | cons name rest ih =>
    rw [List.filter_cons, List.flatMap_cons, List.forall_mem_cons, ← ih]
    split
    · rename_i kept
      rw [List.flatMap_cons, render_append, render_append, String.append_right_inj]
      simp [kept]
    · rename_i dropped
      refine iff_of_false ?_ fun both => dropped both.1
      intro same
      have longer := congrArg String.length same
      rw [render_append, String.length_append] at longer
      have shorter := length_render_filter display emit keep rest
      have written := visible name
      omega

/-- A processor: the effect of an instruction, if it has one, and which
instructions end the function. -/
structure Processor (Instr State : Type) where
  step : Instr → State → Option State
  returns : Instr → Bool

variable (cpu : Processor Instr State)

/-- Execute a whole list of instructions. -/
def exec : List Instr → State → Option State
  | [], state => some state
  | instr :: rest, state => (cpu.step instr state).bind (exec rest)

/-- Execute up to the first returning instruction and stop before it. Running
off the end of the text gives no result. -/
def run : List Instr → State → Option State
  | [], _ => none
  | instr :: rest, state =>
    if cpu.returns instr then some state else (cpu.step instr state).bind (run rest)

variable {cpu}

theorem exec_append (first second : List Instr) (state : State) :
    exec cpu (first ++ second) state = (exec cpu first state).bind (exec cpu second) := by
  induction first generalizing state with
  | nil => rfl
  | cons instr rest ih =>
    simp only [List.cons_append, exec, Option.bind_assoc]
    exact congrArg _ (funext ih)

theorem exec_append_some (done : exec cpu first state = some middle) :
    exec cpu (first ++ second) state = exec cpu second middle := by
  simp [exec_append, done]

theorem exec_cons_some (done : cpu.step instr state = some middle) :
    exec cpu (instr :: rest) state = exec cpu rest middle := by
  simp [exec, done]

/-- Code without a return, followed by one, runs exactly as far as that return. -/
theorem run_eq_exec (body rest : List Instr) (last : Instr) (state : State)
    (inside : ∀ instr ∈ body, cpu.returns instr = false) (ends : cpu.returns last = true) :
    run cpu (body ++ last :: rest) state = exec cpu body state := by
  induction body generalizing state with
  | nil => simp [run, exec, ends]
  | cons instr body ih =>
    have later (state) :=
      ih state (fun other member => inside other (List.mem_cons_of_mem _ member))
    simp [run, exec, inside instr (by simp), funext later]

/-- `holds` is true in every state that executing `instrs` from `state` passes
through, the first and the last one included. -/
def Throughout (cpu : Processor Instr State) (holds : State → Prop) (state : State)
    (instrs : List Instr) : Prop :=
  ∀ done left, instrs = done ++ left →
    ∀ reached, exec cpu done state = some reached → holds reached

theorem Throughout.last (always : Throughout cpu holds state instrs)
    (executed : exec cpu instrs state = some reached) : holds reached :=
  always instrs [] (by simp) reached executed

theorem Throughout.nil (start : holds state) : Throughout cpu holds state [] := by
  intro done left split reached executed
  obtain ⟨rfl, rfl⟩ := List.append_eq_nil_iff.mp split.symm
  cases executed
  exact start

theorem Throughout.append (first : Throughout cpu holds state front)
    (second : ∀ middle, exec cpu front state = some middle → holds middle →
      Throughout cpu holds middle back) : Throughout cpu holds state (front ++ back) := by
  intro done left split reached executed
  rcases List.append_eq_append_iff.mp split with ⟨more, rfl, rest⟩ | ⟨more, rest, rfl⟩
  · -- the prefix goes past `front`
    rw [exec_append] at executed
    obtain ⟨middle, between, final⟩ := Option.bind_eq_some_iff.mp executed
    exact second middle between (first.last between) more left rest reached final
  · exact first done more rest reached executed

theorem Throughout.cons (start : holds state) (next : ∀ middle,
    cpu.step instr state = some middle → Throughout cpu holds middle rest) :
    Throughout cpu holds state (instr :: rest) := by
  intro done left split reached executed
  rcases List.cons_eq_append_iff.mp split with ⟨rfl, _⟩ | ⟨more, rfl, tail⟩
  · cases executed
    exact start
  · obtain ⟨middle, stepped, final⟩ := Option.bind_eq_some_iff.mp executed
    exact next middle stepped more left tail reached final

theorem Throughout.mono (always : Throughout cpu holds state instrs)
    (weaker : ∀ reached, holds reached → other reached) : Throughout cpu other state instrs :=
  fun done left split reached executed =>
    weaker reached (always done left split reached executed)

theorem Throughout.of_steps (start : holds state) (kept : ∀ instr ∈ instrs, ∀ before after,
    holds before → cpu.step instr before = some after → holds after) :
    Throughout cpu holds state instrs := by
  induction instrs generalizing state with
  | nil => exact .nil start
  | cons instr rest ih =>
    exact .cons start fun middle stepped => ih (kept instr (by simp) state middle start stepped)
      fun other member => kept other (List.mem_cons_of_mem _ member)

/-- Every instruction that is executed from `state` on finds a state it is allowed in. -/
def Checked (cpu : Processor Instr State) (allowed : Instr → State → Prop) :
    List Instr → State → Prop
  | [], _ => True
  | instr :: rest, state =>
    allowed instr state ∧ ∀ next, cpu.step instr state = some next → Checked cpu allowed rest next

instance decidableChecked {allowed : Instr → State → Prop}
    [∀ instr state, Decidable (allowed instr state)] :
    (instrs : List Instr) → (state : State) → Decidable (Checked cpu allowed instrs state)
  | [], _ => .isTrue trivial
  | instr :: rest, state =>
    match stepped : cpu.step instr state with
    | none => decidable_of_iff (allowed instr state) (by simp [Checked, stepped])
    | some next =>
      have : Decidable (Checked cpu allowed rest next) := decidableChecked rest next
      decidable_of_iff (allowed instr state ∧ Checked cpu allowed rest next)
        (by simp [Checked, stepped])

theorem Checked.tail {allowed : Instr → State → Prop}
    (checked : Checked cpu allowed (instr :: rest) state)
    (stepped : cpu.step instr state = some after) : Checked cpu allowed rest after :=
  checked.2 after stepped

theorem checked_append {allowed : Instr → State → Prop} :
    Checked cpu allowed (front ++ back) state ↔ Checked cpu allowed front state ∧
      ∀ middle, exec cpu front state = some middle → Checked cpu allowed back middle := by
  induction front generalizing state with
  | nil => simp [Checked, exec]
  | cons instr rest ih =>
    simp only [List.cons_append, Checked, exec, ih, Option.bind_eq_some_iff]
    constructor
    · rintro ⟨here, later⟩
      exact ⟨⟨here, fun next stepped => (later next stepped).1⟩,
        fun middle ⟨next, stepped, ran⟩ => (later next stepped).2 middle ran⟩
    · rintro ⟨⟨here, later⟩, beyond⟩
      exact ⟨here, fun next stepped =>
        ⟨later next stepped, fun middle ran => beyond middle ⟨next, stepped, ran⟩⟩⟩

theorem Checked.rest {allowed : Instr → State → Prop}
    (checked : Checked cpu allowed (front ++ back) state)
    (ran : exec cpu front state = some middle) : Checked cpu allowed back middle :=
  (checked_append.mp checked).2 middle ran

theorem checked_of_forall {allowed : Instr → State → Prop}
    (always : ∀ instr ∈ instrs, ∀ state, allowed instr state) :
    Checked cpu allowed instrs state := by
  induction instrs generalizing state with
  | nil => trivial
  | cons instr rest ih =>
    exact ⟨always instr (by simp) state, fun next _ =>
      ih fun other member => always other (List.mem_cons_of_mem _ member)⟩

/-- What holds throughout allows every instruction. -/
theorem Throughout.checked {allowed : Instr → State → Prop} {holds : State → Prop}
    (always : Throughout cpu holds state instrs)
    (allows : ∀ instr ∈ instrs, ∀ reached, holds reached → allowed instr reached) :
    Checked cpu allowed instrs state := by
  induction instrs generalizing state with
  | nil => trivial
  | cons instr rest ih =>
    refine ⟨allows instr (by simp) state (always [] _ rfl state rfl), fun next stepped => ?_⟩
    refine ih ?_ fun other member => allows other (List.mem_cons_of_mem _ member)
    intro done left split reached executed
    refine always (instr :: done) left (by rw [split, List.cons_append]) reached ?_
    rw [exec_cons_some stepped]
    exact executed

/-- Code runs to its end if the check lets no instruction fail. -/
theorem Checked.runs {allowed : Instr → State → Prop} (checked : Checked cpu allowed instrs state)
    (works : ∀ instr ∈ instrs, ∀ state, allowed instr state →
      ∃ after, cpu.step instr state = some after) :
    ∃ after, exec cpu instrs state = some after := by
  induction instrs generalizing state with
  | nil => exact ⟨state, rfl⟩
  | cons instr rest ih =>
    obtain ⟨middle, stepped⟩ := works instr (by simp) state checked.1
    obtain ⟨after, ran⟩ := ih (checked.tail stepped) fun other member =>
      works other (List.mem_cons_of_mem _ member)
    exact ⟨after, (exec_cons_some stepped).trans ran⟩

/-- The first part of code that runs to its end runs to its own. -/
theorem exec_append_eq_some : exec cpu (front ++ back) state = some after ↔
    ∃ middle, exec cpu front state = some middle ∧ exec cpu back middle = some after := by
  rw [exec_append, Option.bind_eq_some_iff]

end CssLab.Assembly
