import ExactCalc.Expr.Order
/-!
# The operations of an expression

An operation of an expression is a node of its tree.  `Expr.operations` lists the nodes in the order of evaluation; the
list is fixed by the form of the expression alone, and what its numbers are worth decides only how far an evaluation
gets.
-/
namespace ExactCalc

namespace Tree

/-- The nodes of a tree, each after those of its operands. -/
def nodes : Tree → List Tree
  | number _     => []
  | negated t    => t.nodes
  | node op t t' => t.nodes ++ t'.nodes ++ [node op t t']

/-- The operator of a node. -/
def operator? : Tree → Option Op
  | node op _ _ => some op
  | _           => none

/-- The fold that does the operation of a node, if its operands have values and it has a result. -/
def step? : Tree → Option Step
  | node op t t' =>
    match t.value, t'.value with
    | some a, some b => (op.apply a b).map fun r => ⟨a, op, b, r⟩
    | _,      _      => none
  | _ => none

/-! The nodes that `group` makes: they are found by the same walk over the operands. -/

/-- The `*` and `/` of a group from left to right; `product` is the product so far. -/
def products (product : Tree) : List (Op × Tree) → List Tree
  | []              => []
  | (op, t) :: rest =>
    if op.isMultiplicative then node op product t :: products (node op product t) rest
    else products t rest

/-- The node of the operator that waits for a product to its right, if one does. -/
def closing : Option (Tree × Op) → Tree → List Tree
  | none,         _       => []
  | some (s, op), product => [node op s product]

/-- The `+` and `-` of a group from left to right; `waiting` and `product` are as in `group`. -/
def sums (waiting : Option (Tree × Op)) (product : Tree) : List (Op × Tree) → List Tree
  | []              => closing waiting product
  | (op, t) :: rest =>
    if op.isMultiplicative then sums waiting (node op product t) rest
    else closing waiting product ++ sums (some (close waiting product, op)) t rest

end Tree

/-- The operations of a group outside the groups in it: first `*` and `/`, then `+` and `-`, both from left to right. -/
def Expr.ownOperations : Expr → List Tree
  | .mk sign first rest =>
    Tree.products (Sign.apply sign first.tree) rest.trees ++ Tree.sums none (Sign.apply sign first.tree) rest.trees

/-- **The operations of an expression in order**: those of its groups, deepest group first and by closing parenthesis
inside a depth. -/
def Expr.operations (e : Expr) : List Tree :=
  e.orderedGroups.flatMap Expr.ownOperations

/-- The operators of a row of tokens that are not signs: those that come after an operand.  `ended` tells whether an
operand has just ended. -/
def binaryOperators (ended : Bool) : List Token → List Op
  | []               => []
  | .op o :: ts      => if ended then o :: binaryOperators false ts else binaryOperators false ts
  | .opening :: ts   => binaryOperators false ts
  | .num _ :: ts     => binaryOperators true ts
  | .closing :: ts   => binaryOperators true ts

end ExactCalc
