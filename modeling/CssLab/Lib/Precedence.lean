import Mathlib.Algebra.Order.Group.Int

/-! Grammars of binary operators with levels, all of them associating to the left, and
brackets: what such a grammar derives from a list of tokens is unique. -/

namespace CssLab

/-- The tokens of an expression and the trees that are built of them. -/
structure Precedence (Token Operator Tree : Type) where
  atom : Token → Option Tree
  operator : Operator → Token
  level : Operator → Nat
  opening : Token
  closing : Token
  node : Operator → Tree → Tree → Tree
  operator_injective : operator first = operator second → first = second
  atom_operator (op : Operator) : atom (operator op) = none
  atom_opening : atom opening = none
  atom_closing : atom closing = none
  operator_ne_opening (op : Operator) : operator op ≠ opening
  operator_ne_closing (op : Operator) : operator op ≠ closing
  opening_ne_closing : opening ≠ closing

namespace Precedence

variable {Token Operator Tree : Type} (grammar : Precedence Token Operator Tree)

/-- The trees of a list of tokens that have no operator below a level outside brackets. On
its left an operator has operators of its own level, on its right only higher ones. -/
inductive Derives : Nat → List Token → Tree → Prop
  | atom (found : grammar.atom token = some tree) : Derives least [token] tree
  | brackets (inner : Derives 0 tokens tree) :
      Derives least (grammar.opening :: (tokens ++ [grammar.closing])) tree
  | node {op : Operator} (above : least ≤ grammar.level op)
      (left : Derives (grammar.level op) before first)
      (right : Derives (grammar.level op + 1) after second) :
      Derives least (before ++ grammar.operator op :: after) (grammar.node op first second)

theorem singleton_ne (found : grammar.atom token = some tree) (op : Operator)
    (front back : List Token) : [token] ≠ front ++ grammar.operator op :: back := by
  intro same
  have member : grammar.operator op ∈ [token] := same ▸ by simp
  rw [← List.mem_singleton.mp member, grammar.atom_operator] at found
  cases found

section Depth

variable [DecidableEq Token]

/-- How much deeper a token takes us into brackets. -/
def weight (token : Token) : Int :=
  if token = grammar.opening then 1 else if token = grammar.closing then -1 else 0

def depth : List Token → Int
  | [] => 0
  | token :: tokens => grammar.weight token + depth tokens

theorem depth_nil : grammar.depth [] = 0 := rfl

theorem depth_cons (token : Token) (tokens : List Token) :
    grammar.depth (token :: tokens) = grammar.weight token + grammar.depth tokens := rfl

theorem depth_append (front back : List Token) :
    grammar.depth (front ++ back) = grammar.depth front + grammar.depth back := by
  induction front with
  | nil => rw [List.nil_append, depth_nil, zero_add]
  | cons token front ih => rw [List.cons_append, depth_cons, depth_cons, ih, add_assoc]

theorem weight_opening : grammar.weight grammar.opening = 1 := if_pos rfl

theorem weight_closing : grammar.weight grammar.closing = -1 := by
  rw [weight, if_neg grammar.opening_ne_closing.symm, if_pos rfl]

theorem weight_operator (op : Operator) : grammar.weight (grammar.operator op) = 0 := by
  rw [weight, if_neg (grammar.operator_ne_opening op), if_neg (grammar.operator_ne_closing op)]

theorem weight_atom (found : grammar.atom token = some tree) : grammar.weight token = 0 := by
  rw [weight, if_neg, if_neg]
  · rintro rfl
    rw [grammar.atom_closing] at found
    cases found
  · rintro rfl
    rw [grammar.atom_opening] at found
    cases found

variable {grammar}

theorem Derives.depth_eq (derives : grammar.Derives least tokens tree) :
    grammar.depth tokens = 0 := by
  induction derives with
  | atom found => rw [depth_cons, depth_nil, weight_atom grammar found, add_zero]
  | brackets inner ih =>
    rw [depth_cons, depth_append, ih, depth_cons, depth_nil, weight_opening, weight_closing]
    rfl
  | node above left right ih ih' =>
    rw [depth_append, depth_cons, ih, ih', weight_operator]
    rfl

theorem Derives.depth_nonneg (derives : grammar.Derives least tokens tree)
    (parts : tokens = front ++ back) : 0 ≤ grammar.depth front := by
  induction derives generalizing front back with
  | atom found =>
    cases front with
    | nil => exact le_refl _
    | cons token rest =>
      obtain ⟨rfl, none⟩ := List.cons_eq_cons.mp parts
      obtain ⟨rfl, rfl⟩ := List.append_eq_nil_iff.mp none.symm
      rw [depth_cons, depth_nil, weight_atom grammar found, add_zero]
  | brackets inner ih =>
    cases front with
    | nil => exact le_refl _
    | cons token rest =>
      obtain ⟨rfl, more⟩ := List.cons_eq_cons.mp parts
      rw [depth_cons, weight_opening]
      rcases List.append_eq_append_iff.mp more with ⟨last, rfl, ends⟩ | ⟨later, same, -⟩
      · rw [depth_append, inner.depth_eq]
        cases last with
        | nil => exact (by decide : (0 : Int) ≤ 1 + (0 + 0))
        | cons token last =>
          obtain ⟨rfl, none⟩ := List.cons_eq_cons.mp ends
          obtain ⟨rfl, rfl⟩ := List.append_eq_nil_iff.mp none.symm
          rw [depth_cons, depth_nil, weight_closing]
          decide
      · have inside := ih same
        omega
  | @node least before first after second op above left right ih ih' =>
    rcases List.append_eq_append_iff.mp parts with ⟨later, rfl, ends⟩ | ⟨later, same, -⟩
    · rw [depth_append, left.depth_eq, zero_add]
      cases later with
      | nil => exact le_refl _
      | cons token later =>
        obtain ⟨rfl, same⟩ := List.cons_eq_cons.mp ends
        rw [depth_cons, weight_operator, zero_add]
        exact ih' same
    · exact ih same

theorem Derives.depth_pos (inner : grammar.Derives least tokens tree) {op : Operator}
    (parts : grammar.opening :: (tokens ++ [grammar.closing]) =
      front ++ grammar.operator op :: back) : 0 < grammar.depth front := by
  cases front with
  | nil => exact absurd (List.cons_eq_cons.mp parts).1.symm (grammar.operator_ne_opening op)
  | cons token rest =>
    obtain ⟨rfl, more⟩ := List.cons_eq_cons.mp parts
    rw [depth_cons, weight_opening]
    rcases List.append_eq_append_iff.mp more with ⟨last, rfl, ends⟩ | ⟨later, same, -⟩
    · cases last with
      | nil => exact absurd (List.cons_eq_cons.mp ends).1.symm (grammar.operator_ne_closing op)
      | cons token last => simp at ends
    · have inside := inner.depth_nonneg same
      omega

/-- Outside brackets there are only operators of the level or above. -/
theorem Derives.least_le (derives : grammar.Derives least tokens tree) {op : Operator}
    (parts : tokens = front ++ grammar.operator op :: back) (outside : grammar.depth front = 0) :
    least ≤ grammar.level op := by
  induction derives generalizing front back with
  | atom found => exact absurd parts (singleton_ne grammar found op front back)
  | brackets inner ih => exact absurd outside (inner.depth_pos parts).ne'
  | @node least before first after second op' above left right ih ih' =>
    rcases List.append_eq_append_iff.mp parts with ⟨later, rfl, ends⟩ | ⟨later, same, ends⟩
    · rw [depth_append, left.depth_eq, zero_add] at outside
      cases later with
      | nil =>
        obtain ⟨same, -⟩ := List.cons_eq_cons.mp ends
        rwa [← grammar.operator_injective same]
      | cons token later =>
        obtain ⟨rfl, same⟩ := List.cons_eq_cons.mp ends
        rw [depth_cons, weight_operator, zero_add] at outside
        have higher := ih' same outside
        omega
    · cases later with
      | nil =>
        obtain ⟨same, -⟩ := List.cons_eq_cons.mp ends
        rwa [grammar.operator_injective same]
      | cons token later =>
        obtain ⟨rfl, -⟩ := List.cons_eq_cons.mp ends
        exact Nat.le_trans above (ih same outside)

/-- Of two operators outside brackets the left one is not both the last and below the other. -/
theorem Derives.not_later {op op' : Operator}
    (left : grammar.Derives (grammar.level op) before first)
    (right : grammar.Derives (grammar.level op + 1) (middle ++ grammar.operator op' :: after)
      second)
    (left' : grammar.Derives (grammar.level op') (before ++ grammar.operator op :: middle)
      first') : False := by
  have between := left'.depth_eq
  rw [depth_append, left.depth_eq, depth_cons, weight_operator, zero_add, zero_add] at between
  have below := left'.least_le rfl left.depth_eq
  have above := right.least_le rfl between
  omega

/-- The operator that is applied last is at one place only. -/
theorem Derives.split_unique {op op' : Operator}
    (left : grammar.Derives (grammar.level op) before first)
    (right : grammar.Derives (grammar.level op + 1) after second)
    (left' : grammar.Derives (grammar.level op') before' first')
    (right' : grammar.Derives (grammar.level op' + 1) after' second')
    (same : before ++ grammar.operator op :: after =
      before' ++ grammar.operator op' :: after') :
    before = before' ∧ op = op' ∧ after = after' := by
  rcases List.append_eq_append_iff.mp same with ⟨later, rfl, ends⟩ | ⟨later, rfl, ends⟩
  · cases later with
    | nil =>
      obtain ⟨one, rest⟩ := List.cons_eq_cons.mp ends
      exact ⟨(List.append_nil before).symm, grammar.operator_injective one, rest⟩
    | cons token middle =>
      obtain ⟨rfl, rfl⟩ := List.cons_eq_cons.mp ends
      exact (left.not_later right left').elim
  · cases later with
    | nil =>
      obtain ⟨one, rest⟩ := List.cons_eq_cons.mp ends
      exact ⟨List.append_nil before', (grammar.operator_injective one).symm, rest.symm⟩
    | cons token middle =>
      obtain ⟨rfl, rfl⟩ := List.cons_eq_cons.mp ends
      exact (left'.not_later right' left).elim

theorem Derives.unique (derives : grammar.Derives least tokens tree)
    (derives' : grammar.Derives least' tokens' tree') (same : tokens = tokens') : tree = tree' := by
  induction derives generalizing least' tokens' tree' with
  | @atom token tree least found =>
    cases derives' with
    | atom found' =>
      obtain ⟨rfl, -⟩ := List.cons_eq_cons.mp same
      exact Option.some.inj (found.symm.trans found')
    | brackets inner => simp at same
    | node above left right => exact absurd same (singleton_ne grammar found _ _ _)
  | brackets inner ih =>
    cases derives' with
    | atom found => simp at same
    | brackets inner' =>
      obtain ⟨-, more⟩ := List.cons_eq_cons.mp same
      exact ih inner' (List.append_inj_left' more rfl)
    | node above left right => exact absurd left.depth_eq (inner.depth_pos same).ne'
  | node above left right ih ih' =>
    cases derives' with
    | atom found => exact absurd same.symm (singleton_ne grammar found _ _ _)
    | brackets inner => exact absurd left.depth_eq (inner.depth_pos same.symm).ne'
    | node above' left' right' =>
      obtain ⟨front, rfl, back⟩ := left.split_unique right left' right' same
      rw [ih left' front, ih' right' back]

end Depth

end Precedence

end CssLab
