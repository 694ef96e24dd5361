import ExactCalc.Expr.Basic
/-!
# What an expression is worth

An expression stands for a tree of operations: `*` and `/` bind closer than `+` and `-`, operations of one rank group to
the left, and a sign belongs to the first operand alone.  The value of a tree is exact; a division by zero anywhere in
it, even in a factor of a zero product, leaves it without one.
-/
namespace ExactCalc

inductive Tree where
  | number (value : Rat)
  | negated (tree : Tree)
  | node (op : Op) (left right : Tree)
deriving DecidableEq

namespace Tree

/-- The exact value of a tree, if no division in it is by zero. -/
def value : Tree → Option Rat
  | number r       => some r
  | negated t      => t.value.map fun r => -r
  | node op t₁ t₂  =>
    match t₁.value, t₂.value with
    | some a, some b => op.apply a b
    | _,      _      => none

/-- Some division in the tree has a divisor of value zero. -/
inductive DividesByZero : Tree → Prop
  | here {t₁ t₂ : Tree} : t₂.value = some 0 → DividesByZero (node .div t₁ t₂)
  | negated {t : Tree} : DividesByZero t → DividesByZero (negated t)
  | left {op : Op} {t₁ t₂ : Tree} : DividesByZero t₁ → DividesByZero (node op t₁ t₂)
  | right {op : Op} {t₁ t₂ : Tree} : DividesByZero t₂ → DividesByZero (node op t₁ t₂)

/-- A product joined to the sum that waits to its left, if one does. -/
def close : Option (Tree × Op) → Tree → Tree
  | none,         product => product
  | some (s, op), product => node op s product

/-- Groups operands into a tree, from left to right: `waiting` is the sum so far with the operator after it, `product`
the product that is still growing. -/
def group (waiting : Option (Tree × Op)) (product : Tree) : List (Op × Tree) → Tree
  | []              => close waiting product
  | (op, t) :: rest =>
    if op.isMultiplicative then group waiting (node op product t) rest
    else group (some (close waiting product, op)) t rest

theorem dividesByZero_of_value_eq_none : ∀ {t : Tree}, t.value = none → DividesByZero t
  | number _, h => by simp [value] at h
  | negated t, h => .negated (dividesByZero_of_value_eq_none (by simpa [value] using h))
  | node op t₁ t₂, h => by
    cases h₁ : t₁.value with
    | none => exact .left (dividesByZero_of_value_eq_none h₁)
    | some a =>
      cases h₂ : t₂.value with
      | none => exact .right (dividesByZero_of_value_eq_none h₂)
      | some b =>
        simp only [value, h₁, h₂] at h
        obtain ⟨rfl, rfl⟩ := Op.apply_eq_none_iff.1 h
        exact .here h₂

theorem value_eq_none_of_dividesByZero {t : Tree} (h : DividesByZero t) : t.value = none := by
  induction h with
  | @here t₁ t₂ h => cases h₁ : t₁.value <;> simp [value, h, h₁, Op.apply]
  | negated _ ih => simp [value, ih]
  | left _ ih => simp [value, ih]
  | @right op t₁ t₂ _ ih => cases h₁ : t₁.value <;> simp [value, ih, h₁]

/-- **A tree is without a value exactly if it divides by zero.** -/
theorem value_eq_none_iff {t : Tree} : t.value = none ↔ DividesByZero t :=
  ⟨dividesByZero_of_value_eq_none, value_eq_none_of_dividesByZero⟩

end Tree

/-- The number that digits spell, leading zeros or not. -/
def numeral (digits : List (Fin 10 × Nat)) : Nat :=
  digits.foldl (fun n d => 10 * n + d.1.val) 0

/-- A sign applied to the operand after it. -/
def Sign.apply : Option Sign → Tree → Tree
  | none,   t => t
  | some s, t => if s.negative then .negated t else t

mutual
def Operand.tree : Operand → Tree
  | .number ds   => .number (numeral ds : Rat)
  | .group _ e _ => e.tree

def Expr.tree : Expr → Tree
  | .mk sign first rest => Tree.group none (Sign.apply sign first.tree) rest.trees

def Links.trees : Links → List (Op × Tree)
  | .nil         => []
  | .cons j o ls => (j.op, o.tree) :: ls.trees
end

/-- The exact value of an expression, if no division in it is by zero. -/
def Expr.value (e : Expr) : Option Rat :=
  e.tree.value

end ExactCalc
