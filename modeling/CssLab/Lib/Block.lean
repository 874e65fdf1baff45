import Mathlib.Data.List.Infix

/-! Blocks of memory of a fixed size, with the C functions on strings of bytes
that end in a zero. An access outside its block is undefined, which is `none`. -/

namespace CssLab

/-- As many bytes as an array or a call of `malloc` has. -/
@[ext] structure Block (size : Nat) where
  bytes : List UInt8
  length_bytes : bytes.length = size

namespace Block

variable {size : Nat}

def zero (size : Nat) : Block size := ⟨List.replicate size 0, List.length_replicate ..⟩

/-- The bytes a pointer into the block can reach. -/
def pointer (block : Block size) (offset : Nat) : List UInt8 := block.bytes.drop offset

/-- Write bytes from an offset on. -/
def write (block : Block size) (offset : Nat) (bytes : List UInt8) : Option (Block size) :=
  if room : offset + bytes.length ≤ size then
    some ⟨block.bytes.take offset ++ bytes ++ block.bytes.drop (offset + bytes.length), by
      simp [block.length_bytes]
      omega⟩
  else none

/-- The bytes of a string up to its zero. -/
def cstring : List UInt8 → Option (List UInt8)
  | [] => none
  | byte :: rest => if byte = 0 then some [] else (cstring rest).map (byte :: ·)

/-- `strcpy` to an offset of the block. -/
def strcpy (block : Block size) (offset : Nat) (source : List UInt8) : Option (Block size) := do
  let string ← cstring source
  block.write offset (string ++ [0])

def strcat (block : Block size) (source : List UInt8) : Option (Block size) := do
  let string ← cstring block.bytes
  block.strcpy string.length source

/-- Whether `strcmp` returns 0; it goes on to the first difference or the end. -/
def strcmp : List UInt8 → List UInt8 → Option Bool
  | left :: lefts, right :: rights =>
    if left ≠ right then some false else if left = 0 then some true else strcmp lefts rights
  | _, _ => none

def tolower (byte : UInt8) : UInt8 := if 65 ≤ byte ∧ byte ≤ 90 then byte + 32 else byte

/-- Whether `strcasecmp` of two strings returns 0. -/
def strcasecmp (left right : List UInt8) : Bool := left.map tolower = right.map tolower

/-- `strcspn(string, reject)` for one byte `reject`. -/
def strcspn (reject : UInt8) : List UInt8 → Option Nat
  | [] => none
  | byte :: rest => if byte = 0 ∨ byte = reject then some 0 else (strcspn reject rest).map (· + 1)

/-- What `fgets` stores for a buffer of this size, without the zero, and what it leaves. -/
def fgets : Nat → List UInt8 → List UInt8 × List UInt8
  | room + 2, byte :: rest =>
    if byte = 10 then ([byte], rest)
    else
      let (stored, left) := fgets (room + 1) rest
      (byte :: stored, left)
  | _, stdin => ([], stdin)

theorem write_room {block after : Block size} (written : block.write offset data = some after) :
    offset + data.length ≤ size := by
  unfold write at written
  split at written
  · assumption
  · cases written

theorem bytes_write {block after : Block size} (written : block.write offset data = some after) :
    after.bytes =
      block.bytes.take offset ++ data ++ block.bytes.drop (offset + data.length) := by
  unfold write at written
  split at written
  · cases written
    rfl
  · cases written

/-- A byte is what was written there, or what it was. -/
theorem get_write {block after : Block size} (written : block.write offset data = some after)
    (place : Nat) :
    after.bytes[place]? =
      if offset ≤ place ∧ place < offset + data.length then data[place - offset]?
      else block.bytes[place]? := by
  have room := write_room written
  have before : (block.bytes.take offset).length = offset := by
    rw [List.length_take, block.length_bytes]
    omega
  rw [bytes_write written, List.getElem?_append, List.getElem?_append, List.length_append, before]
  by_cases lower : place < offset
  · rw [if_pos (by omega), if_pos lower, if_neg (by omega), List.getElem?_take_of_lt lower]
  · by_cases upper : place < offset + data.length
    · rw [if_pos upper, if_neg lower, if_pos (by omega)]
    · rw [if_neg upper, if_neg (by omega), List.getElem?_drop]
      congr 1
      omega

/-- From where it was written on, a pointer sees what was written. -/
theorem pointer_write {block after : Block size} (written : block.write offset data = some after) :
    after.pointer offset = data ++ block.pointer (offset + data.length) := by
  have room := write_room written
  have before : (block.bytes.take offset).length = offset := by
    rw [List.length_take, block.length_bytes]
    omega
  rw [pointer, bytes_write written, List.append_assoc]
  exact List.drop_left' before

theorem get_write_of_lt {block after : Block size}
    (written : block.write offset data = some after) (outside : place < offset) :
    after.bytes[place]? = block.bytes[place]? := by
  rw [get_write written, if_neg (by omega)]

theorem get_write_of_le {block after : Block size}
    (written : block.write offset data = some after) (outside : offset + data.length ≤ place) :
    after.bytes[place]? = block.bytes[place]? := by
  rw [get_write written, if_neg (by omega)]

theorem pointer_write_of_le {block after : Block size}
    (written : block.write offset data = some after) (outside : offset + data.length ≤ place) :
    after.pointer place = block.pointer place := by
  apply List.ext_getElem?
  intro further
  rw [pointer, pointer, List.getElem?_drop, List.getElem?_drop]
  exact get_write_of_le written (by omega)

theorem write_some (block : Block size) (offset : Nat) (data : List UInt8)
    (room : offset + data.length ≤ size) : ∃ after, block.write offset data = some after :=
  ⟨_, dif_pos room⟩

theorem get_zero (size place : Nat) :
    (zero size).bytes[place]? = if place < size then some 0 else none := by
  rw [zero, List.getElem?_replicate]

theorem cstring_eq_some {bytes string : List UInt8} :
    cstring bytes = some string ↔ 0 ∉ string ∧ string ++ [0] <+: bytes := by
  induction bytes generalizing string with
  | nil => simp [cstring]
  | cons byte rest ih =>
    rw [cstring]
    cases string with
    | nil =>
      by_cases ends : byte = 0
      · simp [ends]
      · simp [ends, Ne.symm ends]
    | cons first string =>
      by_cases ends : byte = 0
      · simp only [ends, if_true, Option.some.injEq, reduceCtorEq, List.mem_cons, not_or,
          List.cons_append, List.cons_prefix_cons, false_iff, not_and]
        intro nonzero same
        exact absurd same.symm nonzero.1
      · simp only [ends, if_false, Option.map_eq_some_iff, List.cons.injEq, List.mem_cons, not_or,
          List.cons_append, List.cons_prefix_cons, ih]
        constructor
        · rintro ⟨_, ⟨nonzero, begins⟩, rfl, rfl⟩
          exact ⟨⟨Ne.symm ends, nonzero⟩, rfl, begins⟩
        · rintro ⟨⟨_, nonzero⟩, rfl, begins⟩
          exact ⟨string, ⟨nonzero, begins⟩, rfl, rfl⟩

theorem cstring_isSome {bytes : List UInt8} : (cstring bytes).isSome ↔ 0 ∈ bytes := by
  induction bytes with
  | nil => simp [cstring]
  | cons byte rest ih =>
    rw [cstring, List.mem_cons]
    by_cases ends : byte = 0
    · simp [ends]
    · simp [ends, Ne.symm ends, ih]

/-- A zero after some bytes makes a string of those before the first zero. -/
theorem cstring_takeWhile (bytes rest : List UInt8) :
    cstring (bytes ++ 0 :: rest) = some (bytes.takeWhile (· ≠ 0)) := by
  induction bytes with
  | nil => rfl
  | cons byte bytes ih =>
    rw [List.cons_append, cstring]
    by_cases ends : byte = 0
    · simp [ends]
    · simp [ends, ih]

theorem cstring_append {name : List UInt8} (nonzero : 0 ∉ name) (rest : List UInt8) :
    cstring (name ++ rest) = (cstring rest).map (name ++ ·) := by
  induction name with
  | nil => simp
  | cons first name ih =>
    rw [List.mem_cons, not_or] at nonzero
    rw [List.cons_append, cstring, if_neg (Ne.symm nonzero.1), ih nonzero.2, Option.map_map]
    rfl

/-- A word that fits a block is what is read from it. -/
theorem write_word (block : Block size) {word : List UInt8} (nonzero : 0 ∉ word)
    (fits : word.length < size) :
    ∃ after, block.write 0 (word ++ [0]) = some after ∧ cstring after.bytes = some word := by
  obtain ⟨after, written⟩ := write_some block 0 (word ++ [0]) (by
    rw [List.length_append, List.length_singleton]
    omega)
  refine ⟨after, written, ?_⟩
  have bytes := pointer_write written
  rw [pointer, List.drop_zero] at bytes
  rw [bytes, List.append_assoc, List.singleton_append, cstring_append nonzero, cstring]
  simp

theorem write_tooLong (block : Block size) {word : List UInt8} (tooLong : ¬word.length < size) :
    block.write 0 (word ++ [0]) = none := by
  apply dif_neg
  rw [List.length_append, List.length_singleton]
  omega

theorem write_isSome (block : Block size) (word : List UInt8) :
    (block.write 0 (word ++ [0])).isSome ↔ word.length < size := by
  by_cases fits : word.length < size
  · obtain ⟨after, written⟩ := write_some block 0 (word ++ [0]) (by
      rw [List.length_append, List.length_singleton]
      omega)
    simp [written, fits]
  · simp [write_tooLong block fits, fits]

theorem strcpy_string (block : Block size) (offset : Nat) {string : List UInt8}
    (nonzero : 0 ∉ string) :
    block.strcpy offset (string ++ [0]) = block.write offset (string ++ [0]) := by
  simp [strcpy, cstring_append nonzero, cstring]

/-- Two strings, one copied and one appended, are the one in front of the other. -/
theorem strcat_strcpy (block : Block size) {front string : List UInt8} (nonzero : 0 ∉ front)
    (nonzero' : 0 ∉ string) (fits : front.length + string.length < size) :
    ∃ after, (block.strcpy 0 (front ++ [0])).bind (·.strcat (string ++ [0])) = some after ∧
      cstring after.bytes = some (front ++ string) := by
  obtain ⟨copied, written, begins⟩ := write_word block nonzero (by omega)
  obtain ⟨after, appended⟩ := write_some copied front.length (string ++ [0]) (by
    rw [List.length_append, List.length_singleton]
    omega)
  obtain ⟨rest, starts⟩ := (cstring_eq_some.mp begins).2
  refine ⟨after, ?_, ?_⟩
  · rw [strcpy_string block 0 nonzero, written, Option.bind_some, strcat, begins,
      Option.bind_eq_bind, Option.bind_some, strcpy_string copied _ nonzero', appended]
  · have kept : copied.bytes.take front.length = front := by
      rw [← starts, List.append_assoc, List.take_left]
    rw [bytes_write appended, kept, List.append_assoc, List.append_assoc, cstring_append nonzero,
      cstring_append nonzero', List.singleton_append, cstring, if_pos rfl]
    simp

theorem strcat_strcpy_none (block : Block size) {front string : List UInt8} (nonzero : 0 ∉ front)
    (nonzero' : 0 ∉ string) (tooLong : size ≤ front.length + string.length) :
    (block.strcpy 0 (front ++ [0])).bind (·.strcat (string ++ [0])) = none := by
  have beyond (copied : Block size) : copied.write front.length (string ++ [0]) = none := by
    apply dif_neg
    rw [List.length_append, List.length_singleton]
    omega
  by_cases fits : front.length < size
  · obtain ⟨copied, written, begins⟩ := write_word block nonzero fits
    rw [strcpy_string block 0 nonzero, written, Option.bind_some, strcat, begins,
      Option.bind_eq_bind, Option.bind_some, strcpy_string copied _ nonzero', beyond]
  · rw [strcpy_string block 0 nonzero, write_tooLong block fits, Option.bind_none]

/-- A pointer sees a string where its bytes and then a zero are. -/
theorem cstring_pointer {block : Block size} {offset : Nat} {string : List UInt8} :
    cstring (block.pointer offset) = some string ↔ 0 ∉ string ∧
      ∀ place < string.length + 1, block.bytes[offset + place]? = (string ++ [0])[place]? := by
  rw [cstring_eq_some, pointer, List.prefix_iff_getElem?]
  refine and_congr_right fun _ => ?_
  simp only [List.length_append, List.length_singleton, List.getElem?_drop]
  constructor
  · intro begins place below
    rw [begins place below]
    exact (List.getElem?_eq_getElem _).symm
  · intro begins place below
    rw [begins place below]
    exact List.getElem?_eq_getElem _

theorem cstring_congr {left right string : List UInt8}
    (same : ∀ place ≤ string.length, left[place]? = right[place]?) :
    cstring left = some string ↔ cstring right = some string := by
  rw [cstring_eq_some, cstring_eq_some, List.prefix_iff_getElem?, List.prefix_iff_getElem?]
  refine and_congr_right fun _ => ?_
  simp only [List.length_append, List.length_singleton]
  constructor
  · intro begins place below
    rw [← same place (Nat.le_of_lt_succ below)]
    exact begins place below
  · intro begins place below
    rw [same place (Nat.le_of_lt_succ below)]
    exact begins place below

/-- A string in the first bytes is one that ends there. -/
theorem cstring_take {bytes string : List UInt8} {count : Nat} :
    cstring (bytes.take count) = some string ↔
      cstring bytes = some string ∧ string.length < count := by
  constructor
  · intro begins
    have within := (cstring_eq_some.mp begins).2.length_le
    simp only [List.length_append, List.length_singleton, List.length_take] at within
    have short : string.length < count := by omega
    refine ⟨(cstring_congr fun place below => ?_).mp begins, short⟩
    exact List.getElem?_take_of_lt (by omega)
  · rintro ⟨begins, short⟩
    refine (cstring_congr fun place below => ?_).mpr begins
    exact List.getElem?_take_of_lt (by omega)

/-- A byte of a window of a block stands somewhere in it. -/
theorem mem_window {block : Block size} {offset count : Nat} {byte : UInt8} :
    byte ∈ (block.pointer offset).take count ↔
      ∃ place < count, block.bytes[offset + place]? = some byte := by
  rw [List.mem_iff_getElem?]
  refine exists_congr fun place => ?_
  rw [List.getElem?_take, pointer, List.getElem?_drop]
  by_cases below : place < count <;> simp [below]

theorem strcspn_append {reject : UInt8} {string : List UInt8} (nonzero : 0 ∉ string)
    (clear : reject ∉ string) {stop : UInt8} (stops : stop = 0 ∨ stop = reject)
    (rest : List UInt8) : strcspn reject (string ++ stop :: rest) = some string.length := by
  induction string with
  | nil => simp [strcspn, stops]
  | cons first string ih =>
    rw [List.mem_cons, not_or] at nonzero clear
    have goesOn : ¬(first = 0 ∨ first = reject) :=
      not_or.mpr ⟨Ne.symm nonzero.1, Ne.symm clear.1⟩
    rw [List.cons_append, strcspn, if_neg goesOn, ih nonzero.2 clear.2]
    rfl

/-- `fgets` stores a line with its newline, or as much of it as there is room for. -/
theorem fgets_line {line : List UInt8} (single : 10 ∉ line) (room : Nat) (more : List UInt8) :
    (fgets (room + 1) (line ++ 10 :: more)).1 = (line ++ [10]).take room := by
  induction line generalizing room with
  | nil => cases room <;> simp [fgets]
  | cons first line ih =>
    rw [List.mem_cons, not_or] at single
    cases room with
    | zero => simp [fgets]
    | succ room => simp [fgets, Ne.symm single.1, ih single.2]

/-- It leaves what follows a line that it has room for. -/
theorem fgets_left {line : List UInt8} (single : 10 ∉ line) {room : Nat}
    (fits : line.length < room) (more : List UInt8) :
    (fgets (room + 1) (line ++ 10 :: more)).2 = more := by
  induction line generalizing room with
  | nil =>
    obtain ⟨room, rfl⟩ := Nat.exists_eq_add_one_of_ne_zero (Nat.ne_of_gt fits)
    simp [fgets]
  | cons first line ih =>
    rw [List.mem_cons, not_or] at single
    obtain ⟨room, rfl⟩ := Nat.exists_eq_add_one_of_ne_zero (Nat.ne_of_gt (Nat.zero_lt_of_lt fits))
    rw [List.length_cons, Nat.add_lt_add_iff_right] at fits
    simp [fgets, Ne.symm single.1, ih single.2 fits]

theorem strcmp_eq_true {left right : List UInt8} :
    strcmp left right = some true ↔ ∃ string, cstring left = some string ∧
      cstring right = some string := by
  induction left generalizing right with
  | nil => simp [strcmp, cstring]
  | cons first lefts ih =>
    cases right with
    | nil => simp [strcmp, cstring]
    | cons second rights =>
      rw [strcmp, cstring, cstring]
      by_cases same : first = second
      · subst same
        by_cases ends : first = 0
        · simp [ends]
        · simp only [ne_eq, not_true, if_false, ends, ih, Option.map_eq_some_iff]
          constructor
          · rintro ⟨string, begins, begins'⟩
            exact ⟨first :: string, ⟨string, begins, rfl⟩, string, begins', rfl⟩
          · rintro ⟨_, ⟨string, begins, rfl⟩, _, begins', same⟩
            cases same
            exact ⟨string, begins, begins'⟩
      · simp only [ne_eq, same, not_false_iff, if_true, Option.some.injEq, reduceCtorEq, false_iff]
        rintro ⟨string, begins, begins'⟩
        by_cases ends : first = 0
        · by_cases ends' : second = 0
          · exact same (ends.trans ends'.symm)
          · simp only [ends, if_true, Option.some.injEq] at begins
            subst begins
            simp [ends'] at begins'
        · simp only [ends, if_false, Option.map_eq_some_iff] at begins
          obtain ⟨lefts', _, rfl⟩ := begins
          by_cases ends' : second = 0
          · simp [ends'] at begins'
          · simp only [ends', if_false, Option.map_eq_some_iff, List.cons.injEq] at begins'
            obtain ⟨_, _, rfl, _⟩ := begins'
            exact same rfl

theorem strcmp_eq {left right string string' : List UInt8} (begins : cstring left = some string)
    (begins' : cstring right = some string') :
    strcmp left right = some (decide (string = string')) := by
  have compared : (strcmp left right).isSome := by
    induction left generalizing right string string' with
    | nil => cases begins
    | cons first lefts ih =>
      cases right with
      | nil => cases begins'
      | cons second rights =>
        rw [strcmp]
        by_cases same : first = second
        · subst same
          by_cases ends : first = 0
          · simp [ends]
          · rw [cstring, if_neg ends] at begins begins'
            obtain ⟨_, later, -⟩ := Option.map_eq_some_iff.mp begins
            obtain ⟨_, later', -⟩ := Option.map_eq_some_iff.mp begins'
            rw [if_neg (not_not.mpr rfl), if_neg ends]
            exact ih later later'
        · simp [same]
  obtain ⟨result, compared⟩ := Option.isSome_iff_exists.mp compared
  have equal : result = true ↔ string = string' := by
    rw [← Option.some.injEq result, ← compared, strcmp_eq_true, begins, begins']
    simp [eq_comm]
  rw [compared, Option.some.injEq, Bool.eq_iff_iff, equal, decide_eq_true_iff]

end Block

end CssLab
