import Mathlib.Data.List.Basic

namespace CssLab.Framing

variable {Item : Type*} {mark : Item → Bool}

/-- Begins with a mark. -/
def Marked (mark : Item → Bool) (part : List Item) : Prop := ∃ first rest, part = first :: rest ∧
  mark first

/-- Begins with its only mark. -/
def Frame (mark : Item → Bool) (part : List Item) : Prop :=
  ∃ first rest, part = first :: rest ∧ mark first ∧ ∀ item ∈ rest, mark item = false

theorem countP_marked {part : List Item} (marked : Marked mark part) : 1 ≤ part.countP mark := by
  obtain ⟨first, rest, rfl, marks⟩ := marked
  rw [List.countP_cons_of_pos marks]
  exact Nat.le_add_left ..

theorem frame_of_countP {part : List Item} (marked : Marked mark part)
    (once : part.countP mark = 1) : Frame mark part := by
  obtain ⟨first, rest, rfl, marks⟩ := marked
  rw [List.countP_cons_of_pos marks, Nat.add_eq_right, List.countP_eq_zero] at once
  exact ⟨first, rest, rfl, marks, fun item member => by simpa using once item member⟩

theorem countP_frame {part : List Item} (frame : Frame mark part) : part.countP mark = 1 := by
  obtain ⟨first, rest, rfl, marks, clear⟩ := frame
  rw [List.countP_cons_of_pos marks, Nat.add_eq_right, List.countP_eq_zero]
  intro item member
  rw [clear item member]
  decide

theorem countP_frames (frames : List (List Item)) (framed : ∀ part ∈ frames, Frame mark part) :
    frames.flatten.countP mark = frames.length := by
  induction frames with
  | nil => rfl
  | cons part frames ih =>
    rw [List.forall_mem_cons] at framed
    rw [List.flatten_cons, List.countP_append, countP_frame framed.1, ih framed.2,
      List.length_cons, Nat.add_comm]

/-- Parts that begin with marks are frames if there are no more marks than parts. -/
theorem framed_of_countP (parts : List (List Item)) (marked : ∀ part ∈ parts, Marked mark part)
    (few : parts.flatten.countP mark ≤ parts.length) : ∀ part ∈ parts, Frame mark part := by
  have many : ∀ parts : List (List Item), (∀ part ∈ parts, Marked mark part) →
      parts.length ≤ parts.flatten.countP mark := by
    intro parts marked
    induction parts with
    | nil => exact Nat.le_refl _
    | cons part parts ih =>
      rw [List.forall_mem_cons] at marked
      have one := countP_marked marked.1
      have more := ih marked.2
      rw [List.flatten_cons, List.countP_append, List.length_cons]
      omega
  induction parts with
  | nil => simp
  | cons part parts ih =>
    rw [List.forall_mem_cons] at marked ⊢
    have one := countP_marked marked.1
    have more := many parts marked.2
    rw [List.flatten_cons, List.countP_append, List.length_cons] at few
    exact ⟨frame_of_countP marked.1 (by omega), ih marked.2 (by omega)⟩

/-- What comes before the next mark belongs to the frame before. -/
theorem takeWhile_frames {clear : List Item} (none : ∀ item ∈ clear, mark item = false)
    {frames : List (List Item)} (framed : ∀ part ∈ frames, Frame mark part) :
    (clear ++ frames.flatten).takeWhile (!mark ·) = clear := by
  have stops : frames.flatten.takeWhile (!mark ·) = [] := by
    cases frames with
    | nil => rfl
    | cons part frames =>
      obtain ⟨first, rest, rfl, marks, -⟩ := framed part List.mem_cons_self
      simp [marks]
  rw [List.takeWhile_append_of_pos, stops, List.append_nil]
  intro item member
  rw [none item member]
  rfl

theorem frame_append_inj {first second : List Item} {rest rest' : List (List Item)}
    (frame : Frame mark first) (frame' : Frame mark second)
    (framed : ∀ part ∈ rest, Frame mark part) (framed' : ∀ part ∈ rest', Frame mark part)
    (same : first ++ rest.flatten = second ++ rest'.flatten) :
    first = second ∧ rest.flatten = rest'.flatten := by
  obtain ⟨head, tail, rfl, -, clear⟩ := frame
  obtain ⟨head', tail', rfl, -, clear'⟩ := frame'
  rw [List.cons_append, List.cons_append, List.cons.injEq] at same
  obtain ⟨rfl, tails⟩ := same
  have equal : tail = tail' := by
    rw [← takeWhile_frames clear framed, tails, takeWhile_frames clear' framed']
  subst equal
  exact ⟨rfl, List.append_cancel_left tails⟩

theorem frames_unique (frames frames' : List (List Item))
    (framed : ∀ part ∈ frames, Frame mark part) (framed' : ∀ part ∈ frames', Frame mark part)
    (same : frames.flatten = frames'.flatten) : frames = frames' := by
  induction frames generalizing frames' with
  | nil =>
    have none := countP_frames frames' framed'
    rw [← same] at none
    exact (List.length_eq_zero_iff.mp none.symm).symm
  | cons part frames ih =>
    cases frames' with
    | nil =>
      have none := countP_frames _ framed
      rw [same] at none
      cases none
    | cons part' frames' =>
      rw [List.forall_mem_cons] at framed framed'
      obtain ⟨rfl, rest⟩ := frame_append_inj framed.1 framed'.1 framed.2 framed'.2 same
      rw [ih frames' framed.2 framed'.2 rest]

/-- As many parts of a stream of frames as it has frames, each of which begins with a
mark, are its frames. -/
theorem parts_eq_frames (parts frames : List (List Item))
    (framed : ∀ part ∈ frames, Frame mark part) (marked : ∀ part ∈ parts, Marked mark part)
    (same : parts.flatten = frames.flatten) (count : parts.length = frames.length) :
    parts = frames := by
  apply frames_unique parts frames (framed_of_countP parts marked ?_) framed same
  rw [same, countP_frames frames framed]
  exact Nat.le_of_eq count.symm

end CssLab.Framing
