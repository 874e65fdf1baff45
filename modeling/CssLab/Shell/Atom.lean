import CssLab.Lib.Http
import CssLab.Shell.Run

namespace CssLab.Shell

open Block Http Unix

/-- The string that a pointer to `char` points to. -/
abbrev Word := List UInt8

/-- The calls that the strings go to. -/
inductive AtomCall
  | execv (path : Word) (argv : List Word)
  | chdir (path : Word)
  | fprintf (message : List UInt8)
  deriving DecidableEq

/-- What does not depend on the shell: whether `execv` loads a program, and whether
`chdir` comes to a directory. -/
structure Surroundings where
  loads : Word → List Word → Bool
  enters : Word → Bool

/-- The loop over the nodes, which stores them in `arg` from an index on. -/
def storeNodes (i : Nat) : List Word → List (Option Word) → Option (List (Option Word))
  | [], arg => some arg
  | data :: next, arg =>
    if i < arg.length then storeNodes (i + 1) next (arg.set i (some data)) else none

/-- What `execv` reads of `arg`: up to the first null pointer. -/
def argv : List (Option Word) → Option (List Word)
  | [] => none
  | none :: _ => some []
  | some data :: rest => (argv rest).map (data :: ·)

/-- `strcpy` and then `strcat` to one of the arrays, and the string that is in it then. -/
def joinPath (path : Block 50) (root data : Word) : Option Word := do
  let path ← path.strcpy 0 (root ++ [0])
  let path ← path.strcat (data ++ [0])
  cstring path.bytes

section Atom

variable (surroundings : Surroundings)

/-- `Cmd_run` of an atom with these nodes. -/
def cmdRunAtom (binPath usrBinPath : Block 50) (nodes : List Word) : Option (List AtomCall) := do
  let arg ← storeNodes 0 nodes (List.replicate 10 none)
  let first ← arg.getD 0 none
  let binPath ← joinPath binPath (text "/bin/") first
  let given ← argv arg
  if surroundings.loads binPath given then some [.execv binPath given]
  else do
    let usrBinPath ← joinPath usrBinPath (text "/usr/bin/") first
    if surroundings.loads usrBinPath given then
      some [.execv binPath given, .execv usrBinPath given]
    else
      some [.execv binPath given, .execv usrBinPath given,
        .fprintf (text "cannot run command, check your input.\n")]

/-- What `main` does with a line that is an atom; the child is the one that it forks. -/
def mainAtom (cdPath : Block 20) (binPath usrBinPath : Block 50) (word : Word)
    (args : List Word) : Option (List AtomCall) :=
  if word = text "exit" then some []
  else if word = text "cd" then
    match args with
    | [] => some []
    | data :: _ => do
      let cdPath ← cdPath.strcpy 0 (data ++ [0])
      let path ← cstring cdPath.bytes
      if surroundings.enters path then some [.chdir path]
      else some [.chdir path, .fprintf (text "cannot cd " ++ path ++ text ".\n")]
  else cmdRunAtom surroundings binPath usrBinPath (word :: args)

/-- The programs are given these words and no others, and there is a call that gives them. -/
def Passes (words : List Word) (calls : List AtomCall) : Prop :=
  (∃ path, .execv path words ∈ calls) ∧
    ∀ path given, .execv path given ∈ calls → given = words

/-- The nodes are stored behind one another as long as there is room. -/
theorem storeNodes_eq (front nodes : List Word) (room : Nat) :
    storeNodes front.length nodes (front.map some ++ List.replicate room none) =
      if nodes.length ≤ room then
        some ((front ++ nodes).map some ++ List.replicate (room - nodes.length) none)
      else none := by
  induction nodes generalizing front room with
  | nil => simp [storeNodes]
  | cons data next ih =>
    cases room with
    | zero => simp [storeNodes]
    | succ room =>
      have set : (front.map some ++ List.replicate (room + 1) none).set front.length (some data) =
          (front ++ [data]).map some ++ List.replicate room none := by
        rw [List.set_append_right _ _ (by rw [List.length_map]), List.length_map, Nat.sub_self,
          List.replicate_succ, List.set_cons_zero, List.map_append, List.append_assoc]
        rfl
      have later := ih (front ++ [data]) room
      rw [List.length_append, List.length_singleton] at later
      rw [storeNodes, if_pos (by simp), set, later]
      simp

/-- The null pointer behind the nodes is there if they leave room for it. -/
theorem argv_eq (nodes : List Word) (room : Nat) :
    argv (nodes.map some ++ List.replicate room none) = if room = 0 then none else some nodes := by
  induction nodes with
  | nil =>
    cases room with
    | zero => rfl
    | succ room => rfl
  | cons data nodes ih =>
    rw [List.map_cons, List.cons_append, argv, ih]
    split
    · rfl
    · rfl

theorem joinPath_eq (path : Block 50) {root data : Word} (nonzero : 0 ∉ root)
    (nonzero' : 0 ∉ data) :
    joinPath path root data =
      if root.length + data.length < 50 then some (root ++ data) else none := by
  have bind : joinPath path root data =
      ((path.strcpy 0 (root ++ [0])).bind (·.strcat (data ++ [0]))).bind (cstring ·.bytes) := by
    simp [joinPath, Option.bind_assoc]
  split
  · obtain ⟨after, joined, string⟩ := strcat_strcpy path nonzero nonzero' ‹_›
    rw [bind, joined, Option.bind_some, string]
  · rw [bind, strcat_strcpy_none path nonzero nonzero' (by omega), Option.bind_none]

/-- `cmdRunAtom` once the nodes are in `arg` and can be read from there. -/
theorem cmdRunAtom_few (binPath usrBinPath : Block 50) {word : Word} {args : List Word}
    (nonzero : 0 ∉ word) (few : args.length < 9) :
    cmdRunAtom surroundings binPath usrBinPath (word :: args) =
      if 5 + word.length < 50 then
        if surroundings.loads (text "/bin/" ++ word) (word :: args) then
          some [.execv (text "/bin/" ++ word) (word :: args)]
        else if 9 + word.length < 50 then
          if surroundings.loads (text "/usr/bin/" ++ word) (word :: args) then
            some [.execv (text "/bin/" ++ word) (word :: args),
              .execv (text "/usr/bin/" ++ word) (word :: args)]
          else
            some [.execv (text "/bin/" ++ word) (word :: args),
              .execv (text "/usr/bin/" ++ word) (word :: args),
              .fprintf (text "cannot run command, check your input.\n")]
        else none
      else none := by
  have nine : (word :: args).length ≤ 10 := Nat.succ_le_succ (Nat.le_of_lt few)
  have left : 10 - (word :: args).length ≠ 0 := by
    rw [List.length_cons]
    omega
  have stored := (storeNodes_eq [] (word :: args) 10).trans (if_pos nine)
  have given := (argv_eq (word :: args) _).trans (if_neg left)
  have first : ((word :: args).map some ++
      List.replicate (10 - (word :: args).length) none).getD 0 none = some word := rfl
  have bin := joinPath_eq binPath (show 0 ∉ text "/bin/" by decide) nonzero
  have usrBin := joinPath_eq usrBinPath (show 0 ∉ text "/usr/bin/" by decide) nonzero
  have five : (text "/bin/").length = 5 := rfl
  have nine : (text "/usr/bin/").length = 9 := rfl
  rw [List.map_nil, List.nil_append, List.nil_append, List.length_nil] at stored
  rw [five] at bin
  rw [nine] at usrBin
  rw [cmdRunAtom, stored]
  simp only [Option.bind_eq_bind, Option.bind_some, first, given, bin, usrBin]
  by_cases fits : 5 + word.length < 50
  · simp only [if_pos fits, Option.bind_some]
    by_cases fits' : 9 + word.length < 50
    · simp only [if_pos fits', Option.bind_some]
    · simp only [if_neg fits', Option.bind_none]
  · simp only [if_neg fits, Option.bind_none]

/-- Ten words leave no room for the null pointer, and more are stored past the end. -/
theorem cmdRunAtom_many (binPath usrBinPath : Block 50) (word : Word) {args : List Word}
    (many : 9 ≤ args.length) :
    cmdRunAtom surroundings binPath usrBinPath (word :: args) = none := by
  have stored := storeNodes_eq [] (word :: args) 10
  rw [List.map_nil, List.nil_append, List.nil_append, List.length_nil] at stored
  rw [cmdRunAtom, stored]
  by_cases ten : (word :: args).length ≤ 10
  · have full : 10 - (word :: args).length = 0 := by
      rw [List.length_cons]
      omega
    have given := (argv_eq (word :: args) _).trans (if_pos full)
    simp only [if_pos ten, Option.bind_eq_bind, Option.bind_some, given, Option.bind_none,
      Option.bind_fun_none]
  · simp only [if_neg ten, Option.bind_eq_bind, Option.bind_none]

theorem mainAtom_cd (cdPath : Block 20) (binPath usrBinPath : Block 50) {args : List Word}
    (nonzero : ∀ string ∈ args, 0 ∉ string) :
    (mainAtom surroundings cdPath binPath usrBinPath (text "cd") args).isSome ↔
      ∀ path ∈ args.head?, path.length < 20 := by
  have other : text "cd" ≠ text "exit" := by decide
  unfold mainAtom
  rw [if_neg other, if_pos rfl]
  cases args with
  | nil => simp
  | cons path rest =>
    have clear := nonzero path List.mem_cons_self
    simp only [List.head?_cons, Option.mem_some_iff, forall_eq', Option.bind_eq_bind,
      strcpy_string cdPath 0 clear]
    by_cases fits : path.length < 20
    · obtain ⟨after, written, string⟩ := write_word cdPath clear fits
      rw [written, Option.bind_some, string, Option.bind_some]
      split
      · exact iff_of_true rfl fits
      · exact iff_of_true rfl fits
    · rw [write_tooLong cdPath fits, Option.bind_none]
      exact iff_of_false (by decide) fits

theorem passes_twice {calls : List AtomCall} (others : ∀ path given, .execv path given ∉ calls) :
    Passes words (.execv first words :: .execv second words :: calls) := by
  refine ⟨⟨first, List.mem_cons_self⟩, fun path given member => ?_⟩
  rcases List.mem_cons.mp member with same | later
  · exact (AtomCall.execv.inj same).2
  · rcases List.mem_cons.mp later with same | other
    · exact (AtomCall.execv.inj same).2
    · exact absurd other (others path given)

theorem cmdRunAtom_passes {word : Word} {args : List Word} (nonzero : 0 ∉ word)
    (binPath usrBinPath : Block 50) :
    (∃ calls, cmdRunAtom surroundings binPath usrBinPath (word :: args) = some calls ∧
        Passes (word :: args) calls) ↔
      (word :: args).length ≤ 9 ∧ word.length ≤ 44 ∧
        (surroundings.loads (text "/bin/" ++ word) (word :: args) ∨ word.length ≤ 40) := by
  rw [List.length_cons]
  by_cases few : args.length < 9
  · rw [cmdRunAtom_few surroundings binPath usrBinPath nonzero few]
    by_cases fits : 5 + word.length < 50
    · have within : args.length + 1 ≤ 9 ∧ word.length ≤ 44 := by omega
      rw [if_pos fits]
      by_cases loads : surroundings.loads (text "/bin/" ++ word) (word :: args)
      · rw [if_pos loads]
        refine iff_of_true ⟨_, rfl, ?_⟩ ⟨within.1, within.2, .inl loads⟩
        simp [Passes]
      · rw [if_neg loads]
        by_cases fits' : 9 + word.length < 50
        · rw [if_pos fits']
          refine iff_of_true ?_ ⟨within.1, within.2, .inr (by omega)⟩
          split
          · exact ⟨_, rfl, passes_twice (by simp)⟩
          · exact ⟨_, rfl, passes_twice (by simp)⟩
        · rw [if_neg fits']
          refine iff_of_false (by simp) ?_
          rintro ⟨-, -, loaded | short⟩
          · exact loads loaded
          · omega
    · rw [if_neg fits]
      refine iff_of_false (by simp) ?_
      rintro ⟨-, short, -⟩
      omega
  · rw [cmdRunAtom_many surroundings binPath usrBinPath word (by omega)]
    refine iff_of_false (by simp) ?_
    rintro ⟨nine, -⟩
    omega

/-- An atom is run with its words and inside the arrays exactly if there are at most nine
words, the paths that are tried are shorter than their arrays, and so is that for `cd`. -/
theorem atom_passed_iff {word : Word} {args : List Word}
    (strings : ∀ string ∈ word :: args, 0 ∉ string) (cdPath : Block 20)
    (binPath usrBinPath : Block 50) :
    (∃ calls, cmdRunAtom surroundings binPath usrBinPath (word :: args) = some calls ∧
        Passes (word :: args) calls) ∧
      (mainAtom surroundings cdPath binPath usrBinPath word args).isSome ↔
    (word :: args).length ≤ 9 ∧ word.length ≤ 44 ∧
      (surroundings.loads (text "/bin/" ++ word) (word :: args) ∨ word.length ≤ 40) ∧
      (word = text "cd" → ∀ path ∈ args.head?, path.length ≤ 19) := by
  rw [List.forall_mem_cons] at strings
  rw [cmdRunAtom_passes surroundings strings.1, and_assoc, and_assoc]
  refine and_congr_right fun nine => and_congr_right fun short => and_congr_right fun loads => ?_
  by_cases cd : word = text "cd"
  · subst cd
    rw [mainAtom_cd surroundings cdPath binPath usrBinPath strings.2]
    simp only [forall_const, Nat.lt_succ_iff]
  · refine iff_of_true ?_ fun same => absurd same cd
    obtain ⟨calls, ran, -⟩ := (cmdRunAtom_passes surroundings strings.1 binPath usrBinPath).mpr
      ⟨nine, short, loads⟩
    unfold mainAtom
    split
    · rfl
    · rw [ran]
      rfl

end Atom

theorem atom_passed_list :
    (∃ calls, cmdRunAtom ⟨fun _ _ => true, fun _ => true⟩ (.zero _) (.zero _)
        [text "ls", text "-l"] = some calls ∧ Passes [text "ls", text "-l"] calls) ∧
      (mainAtom ⟨fun _ _ => true, fun _ => true⟩ (.zero _) (.zero _) (.zero _) (text "ls")
        [text "-l"]).isSome :=
  (atom_passed_iff ⟨fun _ _ => true, fun _ => true⟩
    (show ∀ string ∈ [text "ls", text "-l"], 0 ∉ string by decide) (.zero _) (.zero _)
    (.zero _)).mpr (by decide)

/-- Of ten words, the vector that `execv` is given has no null pointer behind it. -/
theorem ten_words_unterminated :
    ¬ ∃ calls, cmdRunAtom ⟨fun _ _ => true, fun _ => true⟩ (.zero _) (.zero _)
        (["a", "b", "c", "d", "e", "f", "g", "h", "i", "j"].map text) = some calls ∧
      Passes (["a", "b", "c", "d", "e", "f", "g", "h", "i", "j"].map text) calls := by
  rintro ⟨calls, ran, -⟩
  have many : 9 ≤ (["b", "c", "d", "e", "f", "g", "h", "i", "j"].map text).length := by decide
  rw [List.map_cons, cmdRunAtom_many _ _ _ _ many] at ran
  cases ran

/-- The programs that a process tries to become up to the first one that is loaded, unless it
comes to a fault. -/
def tries (loads : String → List String → Bool) :
    Prog Label → Option (List (String × List String))
  | .exec _ path args failed =>
    if loads path args then some [(path, args)]
    else (tries loads failed).map ((path, args) :: ·)
  | .fault => none
  | _ => some []

/-- What is given to `execv`, of these calls. -/
def execvs (calls : List AtomCall) : List (Word × List Word) :=
  calls.filterMap fun call => match call with
    | .execv path given => some (path, given)
    | _ => none

theorem length_text {word : String} (ascii : ∀ char ∈ word.toList, char.val ≤ 127) :
    (text word).length = word.utf8ByteSize := by
  rw [text, List.length_map]
  obtain ⟨chars, rfl⟩ : ∃ chars, word = String.ofList chars :=
    ⟨word.toList, String.ofList_toList.symm⟩
  rw [String.toList_ofList] at ascii ⊢
  induction chars using List.reverseRecOn with
  | nil => rfl
  | append_singleton chars char ih =>
    rw [List.forall_mem_append, List.forall_mem_singleton] at ascii
    have one : (String.ofList [char]).utf8ByteSize = 1 := by
      have pushed : String.ofList [char] = "".push char := rfl
      rw [pushed, String.utf8ByteSize_push, Char.utf8Size_eq_one_iff.mpr ascii.2]
      rfl
    rw [List.length_append, List.length_singleton, String.ofList_append,
      String.utf8ByteSize_append, ih ascii.1, one]

/-- `cmdRun` comes to a fault where an array is overrun, and otherwise tries the programs that the
arrays are given to. -/
theorem cmdRunAtom_cmdRun (surroundings : Surroundings) (line : Nat) (frames : List Frame)
    {word : String} {args : List String} (ascii : ∀ char ∈ word.toList, char.val ≤ 127)
    (nonzero : 0 ∉ text word) (binPath usrBinPath : Block 50) :
    (cmdRunAtom surroundings binPath usrBinPath ((word :: args).map text)).map execvs =
      (tries (fun path args => surroundings.loads (text path) (args.map text))
        (cmdRun line frames (.atom word args))).map
          (·.map fun program => (text program.1, program.2.map text)) := by
  have size := length_text ascii
  rw [List.map_cons]
  by_cases few : args.length < 9
  · have few' : (args.map text).length < 9 := by rwa [List.length_map]
    rw [cmdRunAtom_few _ _ _ nonzero few', size]
    by_cases fits : 5 + word.utf8ByteSize < 50
    · have nine : (word :: args).length ≤ 9 := few
      rw [if_pos fits, cmdRun_atom line frames nine (by omega), tries, text_append, List.map_cons]
      split
      · simp [execvs, text_append]
      · by_cases fits' : 9 + word.utf8ByteSize < 50
        · rw [if_pos fits', cmdRunUsrBin_short _ (by omega), tries, text_append, List.map_cons]
          split
          · simp [execvs, text_append]
          · simp [execvs, tries, text_append]
        · have beyond : 50 ≤ ("/usr/bin/" ++ word).utf8ByteSize := by
            rw [utf8ByteSize_usrBin]
            omega
          rw [if_neg fits', cmdRunUsrBin, if_pos beyond]
          rfl
    · have beyond : 10 ≤ (word :: args).length ∨ 50 ≤ ("/bin/" ++ word).utf8ByteSize := by
        rw [utf8ByteSize_bin]
        omega
      rw [if_neg fits, cmdRun, if_pos beyond]
      rfl
  · have many : 9 ≤ (args.map text).length := by
      rw [List.length_map]
      omega
    have beyond : 10 ≤ (word :: args).length ∨ 50 ≤ ("/bin/" ++ word).utf8ByteSize := by
      rw [List.length_cons]
      omega
    rw [cmdRunAtom_many _ _ _ _ many, cmdRun, if_pos beyond]
    rfl

end CssLab.Shell
