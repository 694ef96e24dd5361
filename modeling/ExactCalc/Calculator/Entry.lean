import ExactCalc.Text.Blank
import ExactCalc.Token
/-!
# The entry field

The keypad spaces out what it enters: an operator stands between spaces, unless it opens the entry or a pair of
parentheses; an opening parenthesis after an operand is preceded by a space.  The end of the entry is where keys act,
so its characters are kept last one first.
-/
namespace ExactCalc

/-- The characters of the entry, the last one first. -/
structure Entry where
  reversed : List Char := []
deriving DecidableEq, Repr

namespace Entry

def empty : Entry := {}

def ofString (text : String) : Entry :=
  ⟨text.toList.reverse⟩

def text (e : Entry) : String :=
  String.ofList e.reversed.reverse

def push (e : Entry) (c : Char) : Entry :=
  ⟨c :: e.reversed⟩

/-- The entry without the spaces at its end. -/
def dropSpaces (e : Entry) : Entry :=
  ⟨e.reversed.dropWhile fun c => c == ' '⟩

/-- Whether the last character that is not blank ends an operand. -/
def endsOperand (e : Entry) : Bool :=
  match e.reversed.find? fun c => !isBlank c with
  | some c => c.isDigit || c == ')'
  | none   => false

/-- Whether an operator at the end of the entry is a sign, and takes no space before it. -/
def expectsSign (e : Entry) : Bool :=
  match e.reversed with
  | []     => true
  | c :: _ => c == '('

/-- The entry after a key. -/
def press (e : Entry) : Symbol → Entry
  | .digit d => e.push (Symbol.digit d).char
  | .closing => e.dropSpaces.push ')'
  | .opening => (if e.endsOperand then e.push ' ' else e).push '('
  | .op o    =>
    let e := e.dropSpaces
    ((if e.expectsSign then e else e.push ' ').push o.symbol).push ' '

/-- The entry without its last symbol and the spaces around it. -/
def deleteLast (e : Entry) : Entry :=
  dropSpaces ⟨e.dropSpaces.reversed.tail⟩

end Entry

end ExactCalc
