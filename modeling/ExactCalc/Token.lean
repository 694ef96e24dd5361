/-!
# Symbols, tokens and cells

An expression is typed as **symbols** (digits, operators, parentheses) and read into **tokens** (numbers, operators,
parentheses).  Evaluation works on a row of **cells**, one per token: a cell holds its token until a fold has spent it.
Cells never move, so a slot number keeps its meaning from the first fold to the last.
-/
namespace ExactCalc

/-- The four binary operators. -/
inductive Op where
  | add
  | sub
  | mul
  | div
deriving DecidableEq, Repr

namespace Op

def symbol : Op → Char
  | add => '+'
  | sub => '-'
  | mul => '*'
  | div => '/'

/-- Whether an operator is folded before `+` and `-`. -/
def isMultiplicative : Op → Bool
  | add | sub => false
  | mul | div => true

/-- The exact result of an operator; a zero divisor has none. -/
def apply : Op → Rat → Rat → Option Rat
  | add, a, b => some (a + b)
  | sub, a, b => some (a - b)
  | mul, a, b => some (a * b)
  | div, a, b => if b = 0 then none else some (a / b)

theorem apply_eq_none_iff {op : Op} {a b : Rat} : op.apply a b = none ↔ op = div ∧ b = 0 := by
  cases op <;> simp [apply]

end Op

/-- What a key stands for, and what a visible character of an expression is read as. -/
inductive Symbol where
  | digit (value : Fin 10)
  | op (op : Op)
  | opening
  | closing
deriving DecidableEq, Repr

namespace Symbol

def char : Symbol → Char
  | digit d => Nat.digitChar d
  | op o    => o.symbol
  | opening => '('
  | closing => ')'

/-- The symbol that a character stands for.  Only ASCII digits are digits. -/
def ofChar? (c : Char) : Option Symbol :=
  if c.isDigit then some (digit (Fin.ofNat 10 (c.toNat - '0'.toNat)))
  else match c with
    | '+' => some (op .add)
    | '-' => some (op .sub)
    | '*' => some (op .mul)
    | '/' => some (op .div)
    | '(' => some opening
    | ')' => some closing
    | _   => none

theorem ofChar?_char : ∀ s : Symbol, ofChar? s.char = some s
  | digit d => by revert d; decide
  | op o    => by cases o <;> rfl
  | opening => rfl
  | closing => rfl

end Symbol

inductive Token where
  | num (value : Rat)
  | op (op : Op)
  | opening
  | closing
deriving DecidableEq

/-- One slot of the row: its token, or `none` once a fold has spent it. -/
abbrev Cell := Option Token

/-! ## Texts -/

/-- A rational number as written in traces: `n`, or `n/d` in lowest terms if it is not an integer. -/
def fractionText (r : Rat) : String :=
  if r.den = 1 then toString r.num else toString r.num ++ "/" ++ toString r.den

def Token.text : Token → String
  | num r   => fractionText r
  | op o    => o.symbol.toString
  | opening => "("
  | closing => ")"

/-- A row of cells, separated by single spaces; a spent cell is a middle dot. -/
def cellsText (cells : List Cell) : String :=
  " ".intercalate (cells.map fun c => (c.map Token.text).getD "·")

def tokensText (tokens : List Token) : String :=
  cellsText (tokens.map some)

end ExactCalc
