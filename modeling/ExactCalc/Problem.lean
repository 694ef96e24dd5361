/-!
# Problems

Everything that can stop a calculation, by cause.  A position counts characters of the text that was typed, from 0.
-/
namespace ExactCalc

/-- Why a row of cells cannot be folded.  A row that was read from a text never gives one of these. -/
inductive Inconsistency where
  /-- The span does not lie in the row, or its parentheses do not. -/
  | spanOutsideRow
  /-- No number follows a leading `-`. -/
  | signWithoutNumber
  /-- An operator has no live cell on one side. -/
  | missingOperand
  /-- A neighbour of an operator is not a number. -/
  | operandNotNumber
  /-- After all folds the first live cell is not alone, or not a number. -/
  | tokensLeft
  /-- After all folds no cell is live. -/
  | nothingLeft
  /-- A cause stated by the caller. -/
  | stated (detail : String)
deriving DecidableEq, Repr

def Inconsistency.detail : Inconsistency → String
  | spanOutsideRow    => "portée hors du tableau de jetons"
  | signWithoutNumber => "signe '-' sans nombre"
  | missingOperand    => "opérande manquant"
  | operandNotNumber  => "opérande non numérique"
  | tokensLeft        => "plus d’un jeton après repli"
  | nothingLeft       => "aucun jeton après repli"
  | stated d          => d

inductive Problem where
  | unmatchedParenthesis (pos : Nat)
  | emptyParentheses (pos : Nat)
  | leadingMultiplicative (pos : Nat)
  | adjacentOperators (pos : Nat)
  | trailingOperator (pos : Nat)
  | invalidCharacter (pos : Nat) (char : Char)
  | emptyExpression
  | divisionByZero (pos : Nat)
  | inconsistent (pos : Nat) (cause : Inconsistency)
deriving DecidableEq, Repr

namespace Problem

/-- The position at fault; only an empty expression has none. -/
def position? : Problem → Option Nat
  | unmatchedParenthesis i | emptyParentheses i | leadingMultiplicative i | adjacentOperators i | trailingOperator i
  | invalidCharacter i _ | divisionByZero i | inconsistent i _ => some i
  | emptyExpression => none

/-- Whether the text is at fault for its form alone, whatever its numbers are worth. -/
def isMalformed : Problem → Bool
  | divisionByZero _ | inconsistent _ _ => false
  | _ => true

/-- The position as a message names it. -/
def place (i : Nat) : String :=
  " (index " ++ toString i ++ ")"

def message : Problem → String
  | unmatchedParenthesis i  => "parenthèse non appariée" ++ place i
  | emptyParentheses i      => "parenthèses vides" ++ place i
  | leadingMultiplicative i => "'*' ou '/' en tête, sans opérande à gauche" ++ place i
  | adjacentOperators i     => "opérateurs adjacents" ++ place i
  | trailingOperator i      => "opérateur final, sans opérande à droite" ++ place i
  | invalidCharacter i c    => "caractère invalide '" ++ c.toString ++ "'" ++ place i
  | emptyExpression         => "expression vide"
  | divisionByZero i        => "division par zéro" ++ place i
  | inconsistent i cause    => "erreur interne : " ++ cause.detail ++ place i

end Problem

end ExactCalc
