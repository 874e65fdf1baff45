import Mathlib.Data.List.TakeWhile

namespace CssLab.Words

variable {Char : Type*} {blank : Char → Bool}

def words (blank : Char → Bool) (text : List Char) : List (List Char) :=
  (text.splitOnP blank).filter fun word => !word.isEmpty

@[simp] theorem words_nil : words blank [] = [] := by
  simp [words]

theorem words_blank {sep : Char} (blanks : blank sep) (rest : List Char) :
    words blank (sep :: rest) = words blank rest := by
  simp [words, List.splitOnP_cons_eq_if_modifyHead, blanks]

/-- A blank separates the words before it from those after it. -/
theorem words_append {sep : Char} (blanks : blank sep) (front back : List Char) :
    words blank (front ++ sep :: back) = words blank front ++ words blank back := by
  rw [words, List.splitOnP_append_cons _ _ blanks, List.filter_append]
  rfl

theorem words_dropWhile (text : List Char) :
    words blank (text.dropWhile blank) = words blank text := by
  induction text with
  | nil => rfl
  | cons first rest ih =>
    by_cases blanks : blank first
    · rw [List.dropWhile_cons_of_pos blanks, words_blank blanks, ih]
    · rw [List.dropWhile_cons_of_neg blanks]

/-- A text that starts with no blank starts with its first word. -/
theorem words_cons {first : Char} (letter : ¬blank first) (rest : List Char) :
    words blank (first :: rest) = (first :: rest).takeWhile (!blank ·) ::
      words blank ((first :: rest).dropWhile (!blank ·)) := by
  have letters : ∀ char ∈ (first :: rest).takeWhile (!blank ·), blank char = false := by
    intro char member
    simpa using List.mem_takeWhile_imp member
  have whole := List.takeWhile_append_dropWhile (p := (!blank ·)) (l := first :: rest)
  have starts : (first :: rest).takeWhile (!blank ·) ≠ [] := by
    simp [letter]
  cases ends : (first :: rest).dropWhile (!blank ·) with
  | nil =>
    rw [ends, List.append_nil] at whole
    rw [words_nil, whole, words, ← whole, List.splitOnP_eq_singleton letters]
    simp [starts]
  | cons sep further =>
    have blanks : blank sep := by
      have := List.head?_dropWhile_not (!blank ·) (first :: rest)
      simpa [ends] using this
    have parts : words blank ((first :: rest).takeWhile (!blank ·) ++ sep :: further) =
        (first :: rest).takeWhile (!blank ·) :: words blank further := by
      rw [words, List.splitOnP_append_cons_of_forall_mem letters sep blanks]
      simp [starts, words]
    rw [ends] at whole
    rw [whole] at parts
    rw [words_blank blanks, parts]

/-- The scanner skips blanks and, unless that was all, takes what comes before the next one. -/
theorem words_eq (text : List Char) :
    words blank text = if text.dropWhile blank = [] then [] else
      (text.dropWhile blank).takeWhile (!blank ·) ::
        words blank ((text.dropWhile blank).dropWhile (!blank ·)) := by
  rw [← words_dropWhile]
  cases starts : text.dropWhile blank with
  | nil => simp
  | cons first rest =>
    have letter := List.head?_dropWhile_not blank text
    rw [if_neg (List.cons_ne_nil first rest)]
    exact words_cons (by simpa [starts] using letter) rest

private theorem mem_splitOnP {text part : List Char} (member : part ∈ text.splitOnP blank)
    (inside : char ∈ part) : char ∈ text := by
  induction text generalizing part with
  | nil =>
    rw [List.splitOnP_nil, List.mem_singleton] at member
    subst member
    cases inside
  | cons first rest ih =>
    obtain ⟨head, tail, parts⟩ :=
      List.exists_cons_of_ne_nil (List.splitOnP_ne_nil (p := blank) rest)
    rw [parts] at ih
    rw [List.splitOnP_cons_eq_if_modifyHead, parts] at member
    split at member
    · rcases List.mem_cons.mp member with empty | later
      · subst empty
        cases inside
      · exact List.mem_cons_of_mem _ (ih later inside)
    · rcases List.mem_cons.mp member with same | later
      · subst same
        rcases List.mem_cons.mp inside with here | there
        · exact here ▸ List.mem_cons_self
        · exact List.mem_cons_of_mem _ (ih List.mem_cons_self there)
      · exact List.mem_cons_of_mem _ (ih (List.mem_cons_of_mem _ later) inside)

theorem mem_of_mem_words {text word : List Char} (member : word ∈ words blank text)
    (inside : char ∈ word) : char ∈ text :=
  mem_splitOnP (List.mem_filter.mp member).1 inside

end CssLab.Words
