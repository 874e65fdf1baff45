import Mathlib.Data.List.Nodup
import Mathlib.Logic.Function.Basic

namespace CssLab.Chain

variable {next next' : Node → Option Node}

/-- Following `next` from `first` meets `nodes`, in that order, and then stands
at `last`. -/
def Segment (next : Node → Option Node) : Node → List Node → Node → Prop
  | first, [], last => first = last
  | first, node :: rest, last =>
    first = node ∧ ∃ after, next node = some after ∧ Segment next after rest last

@[simp] theorem segment_nil : Segment next first [] last ↔ first = last := Iff.rfl

@[simp] theorem segment_cons : Segment next first (node :: rest) last ↔
    first = node ∧ ∃ after, next node = some after ∧ Segment next after rest last := Iff.rfl

theorem segment_append : Segment next first (front ++ back) last ↔
    ∃ middle, Segment next first front middle ∧ Segment next middle back last := by
  induction front generalizing first with
  | nil => simp
  | cons node rest ih =>
    simp only [List.cons_append, segment_cons, ih]
    constructor
    · rintro ⟨same, after, link, middle, left, right⟩
      exact ⟨middle, ⟨same, after, link, left⟩, right⟩
    · rintro ⟨middle, ⟨same, after, link, left⟩, right⟩
      exact ⟨same, after, link, middle, left, right⟩

/-- A node linked behind the last one makes the segment one longer. -/
theorem segment_concat : Segment next first (nodes ++ [node]) last ↔
    Segment next first nodes node ∧ next node = some last := by
  rw [segment_append]
  constructor
  · rintro ⟨middle, left, same, after, link, rfl⟩
    exact ⟨same ▸ left, link⟩
  · rintro ⟨left, link⟩
    exact ⟨node, left, rfl, last, link, rfl⟩

theorem Segment.frame (segment : Segment next first nodes last)
    (same : ∀ node ∈ nodes, next' node = next node) : Segment next' first nodes last := by
  induction nodes generalizing first with
  | nil => exact segment
  | cons node rest ih =>
    obtain ⟨here, after, link, tail⟩ := segment
    have rest := ih tail fun other member => same other (List.mem_cons_of_mem _ member)
    exact ⟨here, after, by rw [same node List.mem_cons_self, link], rest⟩

theorem Segment.head_mem (segment : Segment next first nodes last) :
    first ∈ nodes ++ [last] := by
  cases nodes with
  | nil => simpa using segment
  | cons node rest => simp [segment.1]

theorem Segment.first_eq (segment : Segment next first nodes last) :
    first = nodes.head?.getD last := by
  cases nodes with
  | nil => exact segment
  | cons node rest => exact segment.1

/-- Each node of a segment points to another one of it, or to its end. -/
theorem Segment.next_mem (segment : Segment next first nodes last) (member : node ∈ nodes) :
    ∃ after, next node = some after ∧ after ∈ nodes ++ [last] := by
  induction nodes generalizing first with
  | nil => cases member
  | cons head rest ih =>
    obtain ⟨here, after, link, tail⟩ := segment
    rcases List.mem_cons.mp member with same | later
    · subst same
      exact ⟨after, link, List.mem_cons_of_mem _ tail.head_mem⟩
    · obtain ⟨beyond, link', inside⟩ := ih tail later
      exact ⟨beyond, link', List.mem_cons_of_mem _ inside⟩

/-- A segment that ends where nothing follows is determined by its start. -/
theorem Segment.unique (left : Segment next first nodes last)
    (right : Segment next first nodes' last) (ends : next last = none) : nodes = nodes' := by
  induction nodes generalizing first nodes' with
  | nil =>
    cases nodes' with
    | nil => rfl
    | cons node rest =>
      obtain ⟨here, after, link, _⟩ := right
      have start : first = last := left
      rw [← here, start, ends] at link
      cases link
  | cons node rest ih =>
    obtain ⟨here, after, link, tail⟩ := left
    cases nodes' with
    | nil =>
      have start : first = last := right
      rw [← here, start, ends] at link
      cases link
    | cons node' rest' =>
      obtain ⟨here', after', link', tail'⟩ := right
      have same : node = node' := here.symm.trans here'
      subst same
      have followed : after = after' := Option.some.inj (link.symm.trans link')
      subst followed
      rw [ih tail tail']

theorem Segment.nodup (segment : Segment next first nodes last) (ends : next last = none) :
    nodes.Nodup := by
  induction nodes generalizing first with
  | nil => exact List.nodup_nil
  | cons node rest ih =>
    have whole := segment
    obtain ⟨here, after, link, tail⟩ := segment
    refine List.nodup_cons.mpr ⟨?_, ih tail⟩
    intro member
    -- the list from the second occurrence on would be the whole list
    obtain ⟨front, back, split⟩ := List.append_of_mem member
    rw [split, segment_append] at tail
    obtain ⟨middle, -, again⟩ := tail
    have start : first = middle := here.trans again.1.symm
    have same := whole.unique (start ▸ again) ends
    have longer := congrArg List.length same
    simp [split] at longer
    omega

/-- Linking a node to what follows its successor takes the successor out. -/
theorem Segment.unlink [DecidableEq Node]
    (segment : Segment next first (front ++ [node] ++ removed :: back) last)
    (nodup : (front ++ [node] ++ removed :: back).Nodup) :
    Segment (Function.update next node (next removed)) first (front ++ [node] ++ back) last := by
  obtain ⟨middle, left, here, after, link, right⟩ := segment_append.mp segment
  obtain ⟨left, -⟩ := segment_concat.mp left
  have apart := (List.nodup_append.mp nodup).2.2
  have unique := (List.nodup_append.mp (List.nodup_append.mp nodup).1).2.2
  refine segment_append.mpr ⟨after, segment_concat.mpr ⟨left.frame ?_, ?_⟩, right.frame ?_⟩
  · intro other member
    exact Function.update_of_ne (unique other member node (List.mem_singleton.mpr rfl)) ..
  · rw [Function.update_self, link]
  · intro other member
    have different := apart node (by simp) other (List.mem_cons_of_mem _ member)
    exact Function.update_of_ne different.symm ..

end CssLab.Chain
