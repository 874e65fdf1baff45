import CssLab.Lib.Printf

namespace CssLab.Http

open Printf

/-- What comes before the first stop and what comes after it. -/
theorem append_stop_inj {stop : UInt8} {first second rest rest' : List UInt8}
    (clear : stop ∉ first) (clear' : stop ∉ second)
    (same : first ++ stop :: rest = second ++ stop :: rest') : first = second ∧ rest = rest' := by
  have front : first = second := by
    rw [← takeWhile_stop clear rest, same, takeWhile_stop clear' rest']
  subst front
  exact ⟨rfl, List.cons_injective (List.append_cancel_left same)⟩

/-- A line of the header. -/
def fieldLine (field : List UInt8 × List UInt8) : List UInt8 :=
  field.1 ++ text ": " ++ field.2 ++ crlf

theorem fieldLine_append (field : List UInt8 × List UInt8) (rest : List UInt8) :
    fieldLine field ++ rest = field.1 ++ 58 :: 32 :: (field.2 ++ 13 :: 10 :: rest) := by
  have colon : text ": " = [58, 32] := rfl
  simp [fieldLine, colon, crlf]

theorem fieldLine_ne {field : List UInt8 × List UInt8} (name : IsLine field.1)
    (rest rest' : List UInt8) : 13 :: rest ≠ fieldLine field ++ rest' := by
  intro same
  rw [fieldLine_append] at same
  cases named : field.1 with
  | nil =>
    rw [named, List.nil_append, List.cons.injEq] at same
    exact absurd same.1 (by decide)
  | cons first others =>
    rw [named, List.cons_append, List.cons.injEq] at same
    exact name.1 (by simp [named, same.1])

/-- The fields end at the empty line and are read back one at a time. -/
theorem fieldLines_inj {fields fields' : List (List UInt8 × List UInt8)}
    (lines : ∀ field ∈ fields, IsLine field.1 ∧ 58 ∉ field.1 ∧ IsLine field.2)
    (lines' : ∀ field ∈ fields', IsLine field.1 ∧ 58 ∉ field.1 ∧ IsLine field.2)
    {rest rest' : List UInt8}
    (same : fields.flatMap fieldLine ++ 13 :: rest = fields'.flatMap fieldLine ++ 13 :: rest') :
    fields = fields' ∧ rest = rest' := by
  induction fields generalizing fields' with
  | nil =>
    cases fields' with
    | nil => exact ⟨rfl, List.cons_injective same⟩
    | cons field' fields' =>
      rw [List.flatMap_nil, List.nil_append, List.flatMap_cons, List.append_assoc] at same
      exact absurd same (fieldLine_ne (lines' field' List.mem_cons_self).1 _ _)
  | cons field fields ih =>
    cases fields' with
    | nil =>
      rw [List.flatMap_nil, List.nil_append, List.flatMap_cons, List.append_assoc] at same
      exact absurd same.symm (fieldLine_ne (lines field List.mem_cons_self).1 _ _)
    | cons field' fields' =>
      rw [List.forall_mem_cons] at lines lines'
      rw [List.flatMap_cons, List.flatMap_cons, List.append_assoc, List.append_assoc,
        fieldLine_append, fieldLine_append] at same
      obtain ⟨names, behind⟩ := append_stop_inj lines.1.2.1 lines'.1.2.1 same
      obtain ⟨values, later⟩ :=
        append_stop_inj lines.1.2.2.1 lines'.1.2.2.1 (List.cons_injective behind)
      obtain ⟨rfl, rests⟩ := ih lines.2 lines'.2 (List.cons_injective later)
      exact ⟨by rw [Prod.ext names values], rests⟩

theorem Response.render_eq (response : Response) :
    response.render = text "HTTP/1.1 " ++ (decimal response.code ++ 32 ::
      (response.reason ++ 13 :: 10 ::
        (response.fields.flatMap fieldLine ++ 13 :: 10 :: response.body))) := by
  have blank : text " " = [32] := rfl
  have lines : response.fields.flatMap
      (fun field => field.1 ++ text ": " ++ field.2 ++ crlf) =
      response.fields.flatMap fieldLine := rfl
  rw [render, statusLine, lines, blank]
  simp [crlf]

/-- The bytes of a response determine it: its code, its fields and its body. -/
theorem Response.render_injective {first second : Response}
    (same : first.render = second.render) : first = second := by
  rw [render_eq, render_eq, List.append_right_inj] at same
  have digits : ∀ number, 32 ∉ decimal number :=
    fun number member => absurd (decimal_digits number 32 member) (by decide)
  obtain ⟨codes, same⟩ := append_stop_inj (digits _) (digits _) same
  obtain ⟨reasons, same⟩ := append_stop_inj first.line.1 second.line.1 same
  obtain ⟨fields, same⟩ := fieldLines_inj first.lines second.lines (List.cons_injective same)
  have codes := decimal_injective codes
  have bodies := List.cons_injective same
  cases first
  cases second
  subst codes reasons fields bodies
  rfl

end CssLab.Http
