import ExactCalc.Text.Blank
import ExactCalc.Token
/-!
# Expressions

The grammar of expressions, as a type.  An expression is an operand, perhaps after a sign, and any number of further
operands, each joined to the one before it; an operand is a number or an expression between parentheses.  Every
character keeps its position, so that an expression says where each of its parts stands in a text.
-/
namespace ExactCalc

/-- How an operand is joined to the one before it: by an operator at a position, or by a `*` that is not written. -/
inductive Joint where
  | written (op : Op) (pos : Nat)
  | implied
deriving DecidableEq, Repr

def Joint.op : Joint → Op
  | written op _ => op
  | implied      => .mul

/-- A sign that opens an expression. -/
structure Sign where
  negative : Bool
  pos      : Nat
deriving DecidableEq, Repr

def Sign.char (s : Sign) : Char :=
  if s.negative then '-' else '+'

mutual
/-- A number, by its digits and their positions, or an expression between two parentheses, by their positions. -/
inductive Operand where
  | number (digits : List (Fin 10 × Nat))
  | group (opening : Nat) (inside : Expr) (closing : Nat)

inductive Expr where
  | mk (sign : Option Sign) (first : Operand) (rest : Links)

/-- The operands after the first, each with the joint before it. -/
inductive Links where
  | nil
  | cons (joint : Joint) (operand : Operand) (rest : Links)
end

/-! ## The written form -/

def Joint.write : Joint → List (Char × Nat)
  | written op i => [(op.symbol, i)]
  | implied      => []

def Sign.write (s : Sign) : List (Char × Nat) :=
  [(s.char, s.pos)]

mutual
def Operand.write : Operand → List (Char × Nat)
  | .number ds   => ds.map fun d => ((Symbol.digit d.1).char, d.2)
  | .group i e j => ('(', i) :: e.write ++ [(')', j)]

def Expr.write : Expr → List (Char × Nat)
  | .mk sign first rest => (sign.map Sign.write).getD [] ++ first.write ++ rest.write

def Links.write : Links → List (Char × Nat)
  | .nil         => []
  | .cons j o ls => j.write ++ o.write ++ ls.write
end

/-! ## The rules that the type leaves open -/

def Operand.isGroup : Operand → Bool
  | .number _    => false
  | .group _ _ _ => true

/-- Whether an operand is a number whose first digit is `0`. -/
def Operand.startsWithZero : Operand → Bool
  | .number ((d, _) :: _) => d.val == 0
  | _                     => false

/-- Whether a joint may stand between two operands.  A `*` is implied only beside a pair of parentheses, and a number
right after `/` may not start with `0`. -/
def Joint.Joins (before after : Operand) : Joint → Prop
  | .written op _ => op = .div → after.startsWithZero = false
  | .implied      => before.isGroup = true ∨ after.isGroup = true

mutual
def Operand.WellFormed : Operand → Prop
  | .number ds   => ds ≠ []
  | .group _ e _ => e.WellFormed

def Expr.WellFormed : Expr → Prop
  | .mk _ first rest => first.WellFormed ∧ rest.WellFormed first

/-- The rules for the operands that follow `before`. -/
def Links.WellFormed : Links → Operand → Prop
  | .nil,         _      => True
  | .cons j o ls, before => j.Joins before o ∧ o.WellFormed ∧ ls.WellFormed o
end

/-- **A text spells an expression** if its visible characters, in order and in place, are the written form of it. -/
def Expr.Spells (e : Expr) (cs : List Char) : Prop :=
  e.WellFormed ∧ e.write = placed cs

end ExactCalc
