import CssLab.Lib.Memory
import CssLab.Mcc.Emit

namespace CssLab.Mcc

open CssLab.Assembly CssLab.Memory

/-- The variables a fresh process lays out for a program. -/
def dataVars (prog : Stm) : List String := prog.assigned.eraseDups

theorem mem_dataVars (prog : Stm) (x : String) : x ∈ dataVars prog ↔ x ∈ prog.assigned :=
  List.mem_eraseDups

theorem nodup_dataVars (prog : Stm) : (dataVars prog).Nodup :=
  Enumeration.nodup_eraseDups prog.assigned

theorem card_assigned_le (prog : Stm) : prog.assigned.toFinset.card ≤ prog.names.card :=
  Finset.card_le_card fun _ member => Stm.assigned_mem_names (List.mem_toFinset.mp member)

/-- The names that a variable must not have. -/
def reserved : List String := ["main", "printf", "mcc_format"]

/-- Every variable that is read is assigned or one of these names, which stand for
something else, and none of them is assigned. -/
structure Stm.Named (prog : Stm) : Prop where
  reads : ∀ x ∈ prog.reads, x ∈ prog.assigned ∨ x ∈ reserved
  assigned : ∀ x ∈ prog.assigned, x ∉ reserved

theorem Stm.Named.of_closed {prog : Stm} (closed : prog.Closed)
    (free : ∀ x ∈ prog.names, x ∉ reserved) : prog.Named where
  reads x member := .inl (closed x member)
  assigned x member := free x (Stm.assigned_mem_names member)

/-- `xx...x` with one letter more than this. -/
def xs (count : Nat) : List Char := List.replicate (count + 1) 'x'

theorem utf8ByteSize_xs (count : Nat) : (String.ofList (xs count)).utf8ByteSize = count + 1 := by
  induction count with
  | zero => decide
  | succ count ih =>
    have longer : xs (count + 1) = xs count ++ ['x'] := List.replicate_succ'
    have letter : (String.ofList ['x']).utf8ByteSize = 1 := by decide
    rw [longer, String.ofList_append, String.utf8ByteSize_append, ih, letter]

/-- `xx...x = 1`. -/
def assignXs (count : Nat) : Stm := .assign (String.ofList (xs count)) (.num 1)

theorem names_assignXs (count : Nat) : (assignXs count).names = {String.ofList (xs count)} := rfl

theorem assignXs_free {count : Nat} (long : 10 ≤ count) :
    ∀ x ∈ (assignXs count).names, x ∉ reserved := by
  intro x member taken
  rw [names_assignXs, Finset.mem_singleton] at member
  have size := utf8ByteSize_xs count
  have small : ∀ name ∈ reserved, name.utf8ByteSize ≤ 10 := by decide
  have bound := small x taken
  rw [member] at bound
  omega

theorem assignXs_closed (count : Nat) : (assignXs count).Closed := nofun

section Statements

variable {refers : Instr → List String} {code : Stm → List Instr}

/-- What the code of an assignment and of a `print` refers to bounds what the code of every
statement refers to; `stays` is what else holds of each instruction. -/
theorem refers_of_parts {stays : Instr → Prop}
    (seq : ∀ left right, code (.seq left right) = code left ++ code right)
    (assign : ∀ x exp, ∀ instr ∈ code (.assign x exp),
      stays instr ∧ ∀ name ∈ refers instr,
        name ∈ exp.reads ∨ name ∈ [x] ∨ name = "mcc_format" ∨ name = "printf")
    (print : ∀ exp, ∀ instr ∈ code (.print exp),
      stays instr ∧ ∀ name ∈ refers instr,
        name ∈ exp.reads ∨ name ∈ [] ∨ name = "mcc_format" ∨ name = "printf")
    (stm : Stm) : ∀ instr ∈ code stm, stays instr ∧ ∀ name ∈ refers instr,
      name ∈ stm.reads ∨ name ∈ stm.assigned ∨ name = "mcc_format" ∨ name = "printf" := by
  induction stm with
  | assign x exp => exact assign x exp
  | print exp => exact print exp
  | seq left right first second =>
    intro instr member
    rw [seq] at member
    simp only [Stm.reads, Stm.assigned, List.mem_append]
    rcases List.mem_append.mp member with inLeft | inRight
    · obtain ⟨stays, uses⟩ := first instr inLeft
      refine ⟨stays, fun name symbol => ?_⟩
      have found := uses name symbol
      tauto
    · obtain ⟨stays, uses⟩ := second instr inRight
      refine ⟨stays, fun name symbol => ?_⟩
      have found := uses name symbol
      tauto

/-- Code that has the code of the expression in it refers to every variable that is read. -/
theorem reads_of_parts (expCode : Exp → List Instr)
    (reads : ∀ exp : Exp, ∀ x ∈ exp.reads, ∃ instr ∈ expCode exp, x ∈ refers instr)
    (seq : ∀ left right, code (.seq left right) = code left ++ code right)
    (assign : ∀ x exp, expCode exp ⊆ code (.assign x exp))
    (print : ∀ exp, expCode exp ⊆ code (.print exp))
    (stm : Stm) (read : x ∈ stm.reads) : ∃ instr ∈ code stm, x ∈ refers instr := by
  induction stm with
  | assign y exp =>
    obtain ⟨instr, inside, uses⟩ := reads exp x read
    exact ⟨instr, assign y exp inside, uses⟩
  | print exp =>
    obtain ⟨instr, inside, uses⟩ := reads exp x read
    exact ⟨instr, print exp inside, uses⟩
  | seq left right first second =>
    rw [seq]
    rcases List.mem_append.mp read with inLeft | inRight
    · obtain ⟨instr, inside, uses⟩ := first inLeft
      exact ⟨instr, List.mem_append_left _ inside, uses⟩
    · obtain ⟨instr, inside, uses⟩ := second inRight
      exact ⟨instr, List.mem_append_right _ inside, uses⟩

end Statements

section Linking

variable {refers : Instr → List String} {text : List (Line Instr)} {prog : Stm}

theorem mem_labels (defines : labels text = "mcc_format" :: "main" :: dataVars prog)
    (name : String) :
    name ∈ labels text ↔ name = "mcc_format" ∨ name = "main" ∨ name ∈ prog.assigned := by
  simp [defines, mem_dataVars]

/-- A text with the labels of the two back ends that refers to nothing but the
program's variables, the format and `printf` links, if the names allow it. -/
theorem links_of_named (defines : labels text = "mcc_format" :: "main" :: dataVars prog)
    (uses : ∀ instr ∈ code text, ∀ name ∈ refers instr,
      name ∈ prog.reads ∨ name ∈ prog.assigned ∨ name = "mcc_format" ∨ name = "printf")
    (named : prog.Named) : Links refers ["printf"] text := by
  have found := mem_labels defines
  have absent (x : String) (bad : x ∈ reserved) : x ∉ prog.assigned := fun member =>
    named.assigned x member bad
  refine ⟨?_, ?_, ?_⟩
  · intro instr member name refers
    rw [found]
    rcases uses instr member name refers with read | assigned | rfl | rfl
    · rcases named.reads name read with assigned | other
      · exact .inr (.inr (.inr assigned))
      · simp only [reserved, List.mem_cons, List.not_mem_nil, or_false] at other
        rcases other with rfl | rfl | rfl
        · exact .inr (.inr (.inl rfl))
        · exact .inl (by simp)
        · exact .inr (.inl rfl)
    · exact .inr (.inr (.inr assigned))
    · exact .inr (.inl rfl)
    · exact .inl (by simp)
  · rw [defines, List.nodup_cons, List.nodup_cons, List.mem_cons, mem_dataVars, mem_dataVars]
    exact ⟨by simp [absent "mcc_format" (by decide)], absent "main" (by decide),
      nodup_dataVars prog⟩
  · intro name external
    obtain rfl := List.mem_singleton.mp external
    rw [found]
    rintro (same | same | assigned)
    · exact absurd same (by decide)
    · exact absurd same (by decide)
    · exact absent "printf" (by decide) assigned

/-- Only then, if the text refers to every variable that the program reads. -/
theorem named_of_links (defines : labels text = "mcc_format" :: "main" :: dataVars prog)
    (reads : ∀ x ∈ prog.reads, ∃ instr ∈ code text, x ∈ refers instr)
    (links : Links refers ["printf"] text) : prog.Named where
  reads x member := by
    obtain ⟨instr, inside, refers⟩ := reads x member
    rcases links.defined instr inside x refers with external | defined
    · rw [List.mem_singleton.mp external]
      exact .inr (by decide)
    · rcases (mem_labels defines x).mp defined with rfl | rfl | assigned
      · exact .inr (by decide)
      · exact .inr (by decide)
      · exact .inl assigned
  assigned x member bad := by
    have once := links.once
    rw [defines, List.nodup_cons, List.nodup_cons, List.mem_cons, mem_dataVars, mem_dataVars,
      not_or] at once
    simp only [reserved, List.mem_cons, List.not_mem_nil, or_false] at bad
    rcases bad with rfl | rfl | rfl
    · exact once.2.1 member
    · exact links.free "printf" (by simp) ((mem_labels defines _).mpr (.inr (.inr member)))
    · exact once.1.2 member

end Linking

/-- The addresses the linker gives to the symbols. -/
abbrev Symbols := String → BitVec 64

/-- One call of `printf`: the address of the format and the `int` for its `%d`. -/
structure Call where
  format : BitVec 64
  value : BitVec 32
  deriving Repr, DecidableEq

/-- The call log a list of printed values amounts to. -/
def printed (symbol : Symbols) (values : List (BitVec 32)) : List Call :=
  values.map fun value => ⟨symbol "mcc_format", value⟩

theorem printed_append (symbol : Symbols) (first second : List (BitVec 32)) :
    printed symbol (first ++ second) = printed symbol first ++ printed symbol second :=
  List.map_append

/-- Is this byte part of an object of the text? -/
def InObject (symbol : Symbols) (text : List (Line Instr)) (place : Nat) : Prop :=
  ∃ object ∈ objects text, (symbol object.1).toNat ≤ place ∧
    place < (symbol object.1).toNat + object.2

/-- The stack below the address `sp` has room for `size` bytes, and every object
lies in the address space and outside that room. -/
structure Placed (symbol : Symbols) (text : List (Line Instr)) (size sp : Nat) : Prop where
  room : size ≤ sp
  inside : ∀ object ∈ objects text, (symbol object.1).toNat + object.2 ≤ 2 ^ 64
  offStack : ∀ object ∈ objects text,
    (symbol object.1).toNat + object.2 ≤ sp - size ∨ sp ≤ (symbol object.1).toNat

/-- A placed image whose objects do not overlap and hold zeros. -/
structure Loaded (symbol : Symbols) (text : List (Line Instr)) (size sp : Nat) (memory : Bytes) :
    Prop extends Placed symbol text size sp where
  apart : ∀ first ∈ objects text, ∀ second ∈ objects text, first.1 ≠ second.1 →
    (symbol first.1).toNat + first.2 ≤ (symbol second.1).toNat ∨
      (symbol second.1).toNat + second.2 ≤ (symbol first.1).toNat
  zeroed : ∀ place, InObject symbol text place → memory place = 0

/-- The variables in memory, of `bytes` bytes each, have the interpreter's values. -/
def Holds (symbol : Symbols) (bytes : Nat) (vars : Vars (BitVec width)) (names : List String)
    (memory : Bytes) : Prop :=
  ∀ x ∈ names, load memory (symbol x).toNat bytes = (vars x).toNat

/-- The named variables lie outside `[low, high)`. -/
def Apart (symbol : Symbols) (bytes : Nat) (names : List String) (low high : Nat) : Prop :=
  ∀ x ∈ names, (symbol x).toNat + bytes ≤ low ∨ high ≤ (symbol x).toNat

theorem Holds.sameOutside {vars : Vars (BitVec width)}
    (holds : Holds symbol bytes vars names before) (apart : Apart symbol bytes names low high)
    (same : SameOutside low high before after) : Holds symbol bytes vars names after :=
  fun x member => (same.load (apart x member)).trans (holds x member)

theorem Holds.sub {vars : Vars (BitVec width)} (holds : Holds symbol bytes vars names memory)
    (fewer : ∀ x ∈ others, x ∈ names) : Holds symbol bytes vars others memory :=
  fun x member => holds x (fewer x member)

theorem Apart.sub (apart : Apart symbol bytes names low high) (fewer : ∀ x ∈ others, x ∈ names)
    (lower : low ≤ low') (upper : high' ≤ high) : Apart symbol bytes others low' high' :=
  fun x member => by
    have clear := apart x (fewer x member)
    omega

/-- Where the body of `main` runs: the stack room `[base, base + size)` and the
variables `names`, all apart from each other. -/
structure Area (symbol : Symbols) (bytes : Nat) (names : List String) (base size : Nat) : Prop where
  fits : base + size ≤ 2 ^ 64
  offStack : Apart symbol bytes names base (base + size)
  apart : ∀ x ∈ names, ∀ y ∈ names, x ≠ y →
    (symbol x).toNat + bytes ≤ (symbol y).toNat ∨ (symbol y).toNat + bytes ≤ (symbol x).toNat

theorem Area.assign {vars : Vars (BitVec width)} (area : Area symbol bytes names base size)
    (holds : Holds symbol bytes vars names memory) (member : x ∈ names)
    (word : value % 256 ^ bytes = stored.toNat) :
    Holds symbol bytes (vars.set x stored) names
      (store memory (symbol x).toNat bytes value) := by
  intro y other
  by_cases same : y = x
  · subst y
    rw [load_store, word, Vars.set_same]
  · rw [load_store_apart (area.apart y other x member same), Vars.set_other vars same]
    exact holds y other

section Loading

variable {text : List (Line Instr)} {vars : List String} {bytes : Nat}

theorem inObject_iff (laidOut : objects text = vars.map fun x => (x, bytes)) :
    InObject symbol text place ↔
      ∃ x ∈ vars, (symbol x).toNat ≤ place ∧ place < (symbol x).toNat + bytes := by
  simp [InObject, laidOut]

theorem Loaded.area (loaded : Loaded symbol text size sp memory) (bound : sp < 2 ^ 64)
    (laidOut : objects text = vars.map fun x => (x, bytes)) :
    Area symbol bytes vars (sp - size) size where
  fits := by
    have := loaded.room
    omega
  offStack x member := by
    have clear := loaded.offStack (x, bytes) (by simp [laidOut, member])
    have := loaded.room
    simp only at clear
    omega
  apart x memberX y memberY different :=
    loaded.apart (x, bytes) (by simp [laidOut, memberX]) (y, bytes) (by simp [laidOut, memberY])
      different

/-- The room that a caller's frame takes away is no room of `main`. -/
theorem Loaded.drop
    (loaded : Loaded symbol text (size + extra) (sp + extra) memory) :
    Loaded symbol text size sp memory where
  room := by
    have := loaded.room
    omega
  inside := loaded.inside
  offStack object member := by
    have clear := loaded.offStack object member
    omega
  apart := loaded.apart
  zeroed := loaded.zeroed

theorem Loaded.holds (loaded : Loaded symbol text size sp memory)
    (laidOut : objects text = vars.map fun x => (x, bytes)) :
    Holds symbol bytes (fun _ => (0 : BitVec width)) vars memory := by
  intro x member
  rw [load_zero fun place lower upper =>
    loaded.zeroed place ((inObject_iff laidOut).mpr ⟨x, member, lower, upper⟩)]
  simp

theorem Holds.objects {values : Vars (BitVec width)}
    (holds : Holds symbol bytes values vars before)
    (laidOut : objects text = vars.map fun x => (x, bytes))
    (kept : ∀ place, InObject symbol text place → after place = before place) :
    Holds symbol bytes values vars after := fun x member =>
  (load_congr fun place lower upper =>
    kept place ((inObject_iff laidOut).mpr ⟨x, member, lower, upper⟩)).trans (holds x member)

end Loading

end CssLab.Mcc
