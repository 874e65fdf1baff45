import CssLab.MiniLib.Printint

/-! `printf` of `mini-lib.c` and the formats it is given. -/

namespace CssLab.MiniLib

open Http

/-- An argument behind the format; a pointer to `char` is given by the bytes it sees. -/
inductive Arg
  | int (val : BitVec 32)
  | pointer (string : List UInt8)
  deriving DecidableEq

/-- The calls that write something. -/
inductive Call
  | printint (val : BitVec 32)
  | puts (string : List UInt8)
  | printchar (c : UInt8)
  deriving DecidableEq

def strlen : List UInt8 → Option Nat
  | [] => none
  | c :: s => if c = 0 then some 0 else (strlen s).map (· + 1)

/-- What `puts` writes of the bytes that `s` sees. -/
def puts (s : List UInt8) : Option (List UInt8) := (strlen s).map (s.take ·)

/-- What a call writes. -/
def Call.output (buf : Block 100) : Call → Option (List UInt8)
  | .printint val => MiniLib.printint buf val
  | .puts string => MiniLib.puts string
  | .printchar c => some [c]

/-- The `char` that an `int` becomes. -/
def toChar (val : BitVec 32) : UInt8 := ⟨val.setWidth 8⟩

/-- The `if` on the character behind a `'%'`: the call, and the arguments after it. An
argument that is missing or of another type is undefined. -/
def directive (c : UInt8) (ap : List Arg) : Option (List Call × List Arg) :=
  if c = 100 then
    match ap with
    | .int val :: ap => some ([.printint val], ap)
    | _ => none
  else if c = 115 then
    match ap with
    | .pointer string :: ap => some ([.puts string], ap)
    | _ => none
  else if c = 99 then
    match ap with
    | .int val :: ap => some ([.printchar (toChar val)], ap)
    | _ => none
  else some ([], ap)

/-- `printf` with the bytes that `s` sees, none behind which may be read: its calls, and
the arguments that it leaves. -/
def printf : List UInt8 → List Arg → Option (List Call × List Arg)
  | [], _ => none
  | c :: s, ap =>
    if c = 0 then some ([], ap)
    else if c = 37 then
      match s with
      | [] => none
      | c :: s => do
        let (call, ap) ← directive c ap
        let (calls, ap) ← printf s ap
        some (call ++ calls, ap)
    else do
      let (calls, ap) ← printf s ap
      some (.printchar c :: calls, ap)

/-- The parts of a format. -/
inductive Piece
  | literal (c : UInt8)
  | d
  | s
  | c
  | other
  deriving DecidableEq

/-- What a `'%'` and this character ask for. -/
def Piece.of (char : UInt8) : Piece :=
  if char = 100 then .d else if char = 115 then .s else if char = 99 then .c else .other

/-- A format, part by part; a `'%'` may be its last character. -/
def pieces : List UInt8 → List Piece
  | [] => []
  | [char] => [if char = 37 then .other else .literal char]
  | char :: next :: format =>
    if char = 37 then .of next :: pieces format else .literal char :: pieces (next :: format)

/-- What a format prints of its arguments, of which there is one for each directive. -/
inductive Renders : List Piece → List Arg → List Call → Prop
  | nil : Renders [] [] []
  | literal : Renders format args calls →
      Renders (.literal char :: format) args (.printchar char :: calls)
  | d : Renders format args calls →
      Renders (.d :: format) (.int val :: args) (.printint val :: calls)
  | s : Renders format args calls →
      Renders (.s :: format) (.pointer string :: args) (.puts string :: calls)
  | c : Renders format args calls →
      Renders (.c :: format) (.int val :: args) (.printchar (toChar val) :: calls)
  | other : Renders format args calls → Renders (.other :: format) args calls

/-- Whether the scan comes to the end of the format and not past it. -/
def stops : List UInt8 → Bool
  | [] => true
  | [char] => char ≠ 37
  | char :: next :: format => if char = 37 then stops format else stops (next :: format)

/-- How many times `'%'` stands at the end. -/
def trailing (format : List UInt8) : Nat := (format.reverse.takeWhile (· = 37)).length

theorem trailing_cons (char : UInt8) (format : List UInt8) :
    trailing (char :: format) =
      if trailing format = format.length ∧ char = 37 then format.length + 1
      else trailing format := by
  have split : trailing (char :: format) =
      if trailing format = format.length then
        format.length + ([char].takeWhile (· = 37)).length
      else trailing format := by
    rw [trailing, List.reverse_cons, List.takeWhile_append, List.length_reverse]
    split
    · rw [List.length_append, List.length_reverse]
      exact (if_pos ‹_›).symm
    · exact (if_neg ‹_›).symm
  rw [split]
  by_cases all : trailing format = format.length
  · by_cases percent : char = 37
    · simp [all, percent]
    · simp [all, percent]
  · rw [if_neg all, if_neg fun both => all both.1]

theorem trailing_le (format : List UInt8) : trailing format ≤ format.length :=
  (List.takeWhile_prefix _).length_le.trans_eq List.length_reverse

/-- The scan takes the `'%'` at the end two at a time. -/
theorem stops_iff (format : List UInt8) : stops format ↔ trailing format % 2 = 0 := by
  fun_induction stops format with
  | case1 => simp [trailing]
  | case2 char =>
    rw [trailing_cons]
    by_cases percent : char = 37
    · simp [percent, trailing]
    · simp [percent, trailing]
  | case3 next format ih =>
    have within := trailing_le format
    rw [ih, trailing_cons, trailing_cons, List.length_cons]
    by_cases all : trailing format = format.length ∧ next = 37
    · rw [if_pos all, if_pos ⟨rfl, rfl⟩, all.1]
      omega
    · have fewer : trailing format ≠ format.length + 1 := by omega
      rw [if_neg all, if_neg fun both => fewer both.1]
  | case4 char next format literal ih =>
    rw [ih, trailing_cons char, if_neg fun both => literal both.2]

theorem directive_some {char : UInt8} (renders : Renders (.of char :: format) args calls) :
    ∃ call left later, directive char args = some (call, left) ∧ calls = call ++ later ∧
      Renders format left later := by
  unfold Piece.of at renders
  unfold directive
  split at renders
  · cases renders with
    | d rest => exact ⟨_, _, _, if_pos ‹_›, rfl, rest⟩
  · rw [if_neg ‹_›]
    split at renders
    · cases renders with
      | s rest => exact ⟨_, _, _, if_pos ‹_›, rfl, rest⟩
    · rw [if_neg ‹_›]
      split at renders
      · cases renders with
        | c rest => exact ⟨_, _, _, if_pos ‹_›, rfl, rest⟩
      · cases renders with
        | other rest => exact ⟨[], _, _, if_neg ‹_›, rfl, rest⟩

/-- What `printf` does with a format and the arguments for it. -/
theorem printf_eq (nonzero : 0 ∉ format) (renders : Renders (pieces format) args calls) :
    printf (format ++ [0]) args = if stops format then some (calls, []) else none := by
  fun_induction pieces format generalizing args calls with
  | case1 =>
    cases renders
    rfl
  | case2 char =>
    have letter : char ≠ 0 := fun zero => nonzero (by simp [zero])
    by_cases percent : char = 37
    · rw [if_pos percent] at renders
      cases renders with
      | other rest =>
        cases rest
        subst percent
        rfl
    · rw [if_neg percent] at renders
      cases renders with
      | literal rest =>
        cases rest
        simp [printf, letter, percent, stops]
  | case3 next format ih =>
    have further : 0 ∉ format := fun zero => nonzero (by simp [zero])
    obtain ⟨call, left, later, directed, rfl, rest⟩ := directive_some renders
    have scanned := ih further rest
    have percent : (37 : UInt8) ≠ 0 := by decide
    rw [List.cons_append, List.cons_append, printf, if_neg percent, if_pos rfl, stops, if_pos rfl]
    simp only [directed, scanned, Option.bind_eq_bind, Option.bind_some]
    split
    · rfl
    · rfl
  | case4 char next format percent ih =>
    rw [List.mem_cons, not_or] at nonzero
    cases renders with
    | literal rest =>
      have scanned := ih nonzero.2 rest
      rw [List.cons_append] at scanned
      rw [List.cons_append, List.cons_append, printf, if_neg (Ne.symm nonzero.1), if_neg percent,
        scanned, stops, if_neg percent]
      split
      · rfl
      · rfl

/-- The format is scanned up to its end, with its arguments and what is to be printed of
them, exactly if as many `'%'` stand at the end as make up pairs. -/
theorem printf_scans_iff (nonzero : 0 ∉ format) (renders : Renders (pieces format) args calls) :
    printf (format ++ [0]) args = some (calls, []) ↔ trailing format % 2 = 0 := by
  rw [printf_eq nonzero renders, ← stops_iff]
  split
  · exact iff_of_true rfl ‹_›
  · exact iff_of_false (Option.some_ne_none _ ∘ Eq.symm) ‹_›

theorem printf_scans_sum :
    printf (text "%d+%c=%s%%" ++ [0]) [.int 1, .int 98, .pointer [99, 0]] =
      some ([.printint 1, .printchar 43, .printchar 98, .printchar 61, .puts [99, 0]], []) := by
  have renders : Renders (pieces (text "%d+%c=%s%%")) [.int 1, .int 98, .pointer [99, 0]]
      [.printint 1, .printchar 43, .printchar 98, .printchar 61, .puts [99, 0]] :=
    .d <| .literal <| .c <| .literal <| .s <| .other .nil
  exact (printf_scans_iff (by decide) renders).mpr (by decide)

/-- Behind a `'%'` at the end, the byte after the zero is read. -/
theorem percent_at_end_overruns :
    0 ∉ text "100%" ∧
      Renders (pieces (text "100%")) [] [.printchar 49, .printchar 48, .printchar 48] ∧
      printf (text "100%" ++ [0]) [] = none :=
  ⟨by decide, .literal <| .literal <| .literal <| .other .nil, by decide⟩

theorem puts_eq (s : List UInt8) : puts s = Block.cstring s := by
  rw [puts]
  induction s with
  | nil => rfl
  | cons c s ih =>
    rw [strlen, Block.cstring, ← ih]
    by_cases ends : c = 0
    · rw [if_pos ends, if_pos ends]
      rfl
    · rw [if_neg ends, if_neg ends, Option.map_map, Option.map_map]
      rfl

/-- What the calls are to write. -/
def Call.Shows : Call → List UInt8 → Prop
  | .printint val, shown => shown = Printf.signed val.toInt
  | .puts string, shown => 0 ∉ shown ∧ shown ++ [0] <+: string
  | .printchar c, shown => shown = [c]

/-- The calls write what they are to write unless they are `printint` of zero or of the
least `int`. -/
theorem Call.output_iff (buf : Block 100) (call : Call)
    (printed : ∀ val, call = .printint val → val ≠ 0 ∧ val ≠ BitVec.intMin 32)
    (shown : List UInt8) : call.output buf = some shown ↔ call.Shows shown := by
  cases call with
  | printint val =>
    have numeral := printint_of_ne buf (printed val rfl).1 (printed val rfl).2
    rw [output, numeral, Option.some.injEq]
    exact eq_comm
  | puts string =>
    rw [output, puts_eq]
    exact Block.cstring_eq_some
  | printchar c =>
    rw [output, Option.some.injEq]
    exact eq_comm

end CssLab.MiniLib
