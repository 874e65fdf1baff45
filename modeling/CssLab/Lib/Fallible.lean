import Mathlib.Data.Option.Basic

/-! Two computations that may fail, run side by side: `Option.Rel` says that
both fail or both succeed with related results. -/

namespace CssLab.Fallible

variable {related : α → β → Prop} {also : γ → δ → Prop}

theorem bind (both : Option.Rel related first second)
    (next : ∀ a b, related a b → Option.Rel also (f a) (g b)) :
    Option.Rel also (first.bind f) (second.bind g) := by
  cases both with
  | some held => exact next _ _ held
  | none => exact .none

theorem bind_left {also : γ → β → Prop} (both : Option.Rel related first second)
    (next : ∀ a b, related a b → Option.Rel also (f a) (some b)) :
    Option.Rel also (first.bind f) second := by
  cases both with
  | some held => exact next _ _ held
  | none => exact .none

theorem bind_right {also : α → δ → Prop} (both : Option.Rel related first second)
    (next : ∀ a b, related a b → Option.Rel also (some a) (g b)) :
    Option.Rel also first (second.bind g) := by
  cases both with
  | some held => exact next _ _ held
  | none => exact .none

theorem mono {weaker : α → β → Prop} (both : Option.Rel related first second)
    (implies : ∀ a b, related a b → weaker a b) : Option.Rel weaker first second := by
  cases both with
  | some held => exact .some (implies _ _ held)
  | none => exact .none

theorem right_of_left (both : Option.Rel related first second) (done : first = some a) :
    ∃ b, second = some b ∧ related a b := by
  subst done
  cases both with
  | some held => exact ⟨_, rfl, held⟩

theorem left_of_right (both : Option.Rel related first second) (done : second = some b) :
    ∃ a, first = some a ∧ related a b := by
  subst done
  cases both with
  | some held => exact ⟨_, rfl, held⟩

end CssLab.Fallible
