import CssLab.Lib.Precedence
import Mathlib.Order.Basic

namespace CssLab.Precedence

variable {Token Operator Tree : Type} (grammar : Precedence Token Operator Tree)

/-- A derivation during which so many symbols are on the stack at most: what is before the
right side of an operator, or before the inside of brackets, stays there meanwhile. -/
inductive Stacked : Nat → Nat → List Token → Tree → Prop
  | atom (found : grammar.atom token = some tree) : Stacked (room + 1) least [token] tree
  | brackets (inner : Stacked (room + 2) 0 tokens tree) :
      Stacked (room + 3) least (grammar.opening :: (tokens ++ [grammar.closing])) tree
  | node {op : Operator} (above : least ≤ grammar.level op)
      (left : Stacked (room + 2) (grammar.level op) before first)
      (right : Stacked room (grammar.level op + 1) after second) :
      Stacked (room + 2) least (before ++ grammar.operator op :: after)
        (grammar.node op first second)

variable {grammar}

theorem Stacked.derives (stacked : grammar.Stacked room least tokens tree) :
    grammar.Derives least tokens tree := by
  induction stacked with
  | atom found => exact .atom found
  | brackets inner ih => exact .brackets ih
  | node above left right ih ih' => exact .node above ih ih'

theorem Stacked.room_pos (stacked : grammar.Stacked room least tokens tree) : 0 < room := by
  cases stacked with
  | atom found => exact Nat.succ_pos _
  | brackets inner => exact Nat.succ_pos _
  | node above left right => exact Nat.succ_pos _

/-- What has no operator below a level has none below a lower one. -/
theorem Stacked.lower (stacked : grammar.Stacked room least tokens tree) (lower : least' ≤ least) :
    grammar.Stacked room least' tokens tree := by
  cases stacked with
  | atom found => exact .atom found
  | brackets inner => exact .brackets inner
  | node above left right => exact .node (lower.trans above) left right

theorem Stacked.wider (stacked : grammar.Stacked room least tokens tree) (more : Nat) :
    grammar.Stacked (room + more) least tokens tree := by
  induction stacked with
  | @atom token tree room least found =>
    rw [Nat.add_right_comm]
    exact .atom found
  | @brackets room tokens tree least inner ih =>
    rw [Nat.add_right_comm] at ih ⊢
    exact .brackets ih
  | @node least room before first after second op above left right ih ih' =>
    rw [Nat.add_right_comm] at ih ⊢
    exact .node above ih ih'

theorem Stacked.mono (stacked : grammar.Stacked room least tokens tree) (enough : room ≤ room') :
    grammar.Stacked room' least tokens tree := by
  obtain ⟨more, rfl⟩ := Nat.exists_eq_add_of_le enough
  exact stacked.wider more

theorem Derives.stacked (derives : grammar.Derives least tokens tree) :
    ∃ room, grammar.Stacked room least tokens tree := by
  induction derives with
  | atom found => exact ⟨1, .atom found⟩
  | brackets inner ih =>
    obtain ⟨room, stacked⟩ := ih
    exact ⟨room + 3, .brackets (stacked.wider 2)⟩
  | node above left right ih ih' =>
    obtain ⟨first, left⟩ := ih
    obtain ⟨second, right⟩ := ih'
    refine ⟨first + second + 2, .node above (left.mono ?_) (right.mono (Nat.le_add_left ..))⟩
    omega

end CssLab.Precedence
