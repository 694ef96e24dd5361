import ExactCalc.Expr.Tree
import ExactCalc.Fold.Step
/-!
# The order of the operations

In which order the operations of an expression are done, said of the expression alone.  Its **groups** (the insides of
its parentheses, and the whole) come deepest first, and by closing parenthesis inside a depth.  A group is a **chain**
once the groups inside it have values: all its `*` and `/` come from left to right, then all its `+` and `-`.  The first
division by zero in this order ends it.
-/
namespace ExactCalc

/-! ## A chain -/

/-- An operator at a position, and the number after it. -/
structure Link where
  op      : Op
  pos     : Nat
  operand : Rat
deriving DecidableEq

/-- Numbers joined by operators. -/
structure Chain where
  first : Rat
  links : List Link
deriving DecidableEq

namespace Chain

/-- The `*` and `/` of a chain from left to right, up to a division by zero; `a` is the product so far. -/
def multiply (a : Rat) : List Link → List Step
  | []      => []
  | l :: ls =>
    if l.op.isMultiplicative then
      match l.op.apply a l.operand with
      | some r => ⟨a, l.op, l.operand, r⟩ :: multiply r ls
      | none   => []
    else multiply l.operand ls

/-- The chain of the products of a chain that does not divide by zero: only `+` and `-` are left. -/
def products (a : Rat) : List Link → Chain
  | []      => ⟨a, []⟩
  | l :: ls =>
    if l.op.isMultiplicative then products ((l.op.apply a l.operand).getD 0) ls
    else
      let c := products l.operand ls
      ⟨a, ⟨l.op, l.pos, c.first⟩ :: c.links⟩

/-- The operations of a chain from left to right, whatever their rank; `a` is the result so far. -/
def accumulate (a : Rat) : List Link → List Step
  | []      => []
  | l :: ls =>
    match l.op.apply a l.operand with
    | some r => ⟨a, l.op, l.operand, r⟩ :: accumulate r ls
    | none   => []

/-- The position of the leftmost division by zero. -/
def zeroDivision? (c : Chain) : Option Nat :=
  (c.links.find? fun l => l.op == .div && l.operand == 0).map Link.pos

/-- **The operations of a chain in order**, up to a division by zero. -/
def steps (c : Chain) : List Step :=
  multiply c.first c.links ++
    if c.zeroDivision?.isSome then []
    else
      let sums := products c.first c.links
      accumulate sums.first sums.links

end Chain

/-! ## The chain of a group -/

/-- The position that stands for a joint; an implied `*` never divides, so it has none of its own. -/
def Joint.pos : Joint → Nat
  | written _ i => i
  | implied     => 0

/-- The links of a group, if the groups inside it have values. -/
def Links.links : Links → Option (List Link)
  | .nil         => some []
  | .cons j o ls =>
    match o.tree.value, ls.links with
    | some v, some rest => some (⟨j.op, j.pos, v⟩ :: rest)
    | _,      _         => none

def Expr.chain : Expr → Option Chain
  | .mk sign first rest =>
    match (Sign.apply sign first.tree).value, rest.links with
    | some v, some links => some ⟨v, links⟩
    | _,      _          => none

/-! ## The groups of an expression -/

mutual
def Operand.groups (depth : Nat) : Operand → List (Nat × Expr)
  | .number _    => []
  | .group _ e _ => e.groups (depth + 1)

/-- The groups of an expression with their depths, by closing parenthesis; the expression itself is the last. -/
def Expr.groups (depth : Nat) : Expr → List (Nat × Expr)
  | .mk sign first rest => first.groups depth ++ rest.groups depth ++ [(depth, .mk sign first rest)]

def Links.groups (depth : Nat) : Links → List (Nat × Expr)
  | .nil         => []
  | .cons _ o ls => o.groups depth ++ ls.groups depth
end

/-- The groups in the order of evaluation: sorted by decreasing depth, and otherwise left in order. -/
def Expr.orderedGroups (e : Expr) : List Expr :=
  ((e.groups 0).mergeSort fun a b => decide (b.1 ≤ a.1)).map Prod.snd

/-- The operations of groups in the given order, and the division by zero that ends them, if one does. -/
def runGroups : List Expr → List Step × Option Nat
  | []      => ([], none)
  | e :: es =>
    match e.chain with
    | none   => ([], none)
    | some c =>
      match c.zeroDivision? with
      | some i => (c.steps, some i)
      | none   =>
        let rest := runGroups es
        (c.steps ++ rest.1, rest.2)

/-- **The operations of an expression in order**, up to the first division by zero. -/
def Expr.steps (e : Expr) : List Step :=
  (runGroups e.orderedGroups).1

/-- **The position of the first division by zero** in the order of evaluation. -/
def Expr.zeroDivision? (e : Expr) : Option Nat :=
  (runGroups e.orderedGroups).2

end ExactCalc
