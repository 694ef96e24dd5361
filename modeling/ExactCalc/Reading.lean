import ExactCalc.Text.Blank
import ExactCalc.Token
import ExactCalc.Span
import ExactCalc.Problem
/-!
# Reading an expression

One scan from left to right turns a text into tokens and spans, and is the only check of its form: what
`Reading.ofString` accepts folds without an inconsistency.  Blanks are skipped, also between the digits of a number.  A
`*` is implied between an operand and what follows it, if one of the two is a pair of parentheses.  A sign may open the
text or a pair of parentheses.
-/
namespace ExactCalc

/-- A token and the position it was read at: for a number, its first digit; for an implied `*`, the character that
implied it. -/
structure Lexeme where
  token : Token
  pos   : Nat
deriving DecidableEq

/-- What an accepted text is read into. -/
structure Reading where
  lexemes : List Lexeme
  spans   : SpanTable
deriving DecidableEq

namespace Reading

def tokens (r : Reading) : List Token :=
  r.lexemes.map Lexeme.token

def positions (r : Reading) : List Nat :=
  r.lexemes.map Lexeme.pos

end Reading

/-- An opening parenthesis that is not closed yet. -/
structure Opening where
  /-- The slot of the first token after it. -/
  start : Nat
  /-- How deep the tokens after it are nested. -/
  depth : Nat
  pos   : Nat
deriving DecidableEq

/-- The state of the scan. -/
structure Scan where
  /-- The lexemes read so far, the last one first. -/
  lexemes : List Lexeme := []
  /-- The parentheses to be closed, the innermost first. -/
  pending : List Opening := []
  /-- How deep the next token is nested. -/
  depth   : Nat := 0
  spans   : SpanTable := .empty
deriving DecidableEq

namespace Scan

def push (s : Scan) (t : Token) (i : Nat) : Scan :=
  { s with lexemes := ⟨t, i⟩ :: s.lexemes }

/-- A digit extends the number before it, or starts one.  A `0` right after `/` is refused at the `/`. -/
def digit (s : Scan) (i : Nat) (d : Fin 10) : Except Problem Scan :=
  match s.lexemes with
  | ⟨.num n, p⟩ :: before => .ok { s with lexemes := ⟨.num (10 * n + (d.val : Rat)), p⟩ :: before }
  | ⟨.op .div, p⟩ :: _    => if d.val = 0 then .error (.divisionByZero p) else .ok (s.push (.num (d.val : Rat)) i)
  | ⟨.closing, _⟩ :: _    => .ok ((s.push (.op .mul) i).push (.num (d.val : Rat)) i)
  | _                     => .ok (s.push (.num (d.val : Rat)) i)

/-- Opens a pair of parentheses at position `i`, after the tokens read so far. -/
def enter (s : Scan) (i : Nat) : Scan :=
  { s with
    lexemes := ⟨.opening, i⟩ :: s.lexemes
    pending := ⟨s.lexemes.length + 1, s.depth + 1, i⟩ :: s.pending
    depth := s.depth + 1 }

def opening (s : Scan) (i : Nat) : Scan :=
  match s.lexemes with
  | ⟨.num _, _⟩ :: _ | ⟨.closing, _⟩ :: _ => (s.push (.op .mul) i).enter i
  | _                                     => s.enter i

/-- Closes the innermost pair of parentheses and records the span inside it. -/
def closing (s : Scan) (i : Nat) : Except Problem Scan :=
  match s.pending, s.lexemes with
  | [],      _                 => .error (.unmatchedParenthesis i)
  | _ :: _,  ⟨.opening, _⟩ :: _ => .error (.emptyParentheses i)
  | _ :: _,  ⟨.op _, _⟩ :: _    => .error (.trailingOperator i)
  | o :: os, lexemes            =>
    .ok { lexemes := ⟨.closing, i⟩ :: lexemes
          pending := os
          depth := s.depth - 1
          spans := s.spans.record ⟨o.depth, o.start, lexemes.length - 1⟩ }

/-- An operator needs an operand before it, unless it is a sign, and may not be the last character (`final`). -/
def operator (s : Scan) (i : Nat) (op : Op) (final : Bool) : Except Problem Scan :=
  match s.lexemes, op.isMultiplicative with
  | ⟨.op _, _⟩ :: _,    _    => .error (.adjacentOperators i)
  | [],                 true => .error (.leadingMultiplicative i)
  | ⟨.opening, _⟩ :: _, true => .error (.leadingMultiplicative i)
  | _, _ => if final then .error (.trailingOperator i) else .ok (s.push (.op op) i)

/-- One character, at position `i`; `final` if no character follows it, blank or not. -/
def step (s : Scan) (i : Nat) (c : Char) (final : Bool) : Except Problem Scan :=
  if isBlank c then .ok s
  else match Symbol.ofChar? c with
    | some (.digit d) => s.digit i d
    | some (.op o)    => s.operator i o final
    | some .opening   => .ok (s.opening i)
    | some .closing   => s.closing i
    | none            => .error (.invalidCharacter i c)

/-- The characters from position `i` on, up to the first problem. -/
def run (s : Scan) (i : Nat) : List Char → Except Problem Scan
  | []      => .ok s
  | c :: cs =>
    match s.step i c cs.isEmpty with
    | .error p => .error p
    | .ok s'   => s'.run (i + 1) cs

/-- The end of the text: every parenthesis must be closed and the last operator must have its operand.  The root span
is recorded last. -/
def finish (s : Scan) : Except Problem Reading :=
  match s.lexemes, s.pending with
  | [],               _      => .error .emptyExpression
  | _ :: _,           o :: _ => .error (.unmatchedParenthesis o.pos)
  | ⟨.op _, p⟩ :: _,  []     => .error (.trailingOperator p)
  | lexemes,          []     => .ok ⟨lexemes.reverse, s.spans.record ⟨0, 0, lexemes.length - 1⟩⟩

end Scan

namespace Reading

/-- Reads a sequence of characters. -/
def ofChars (cs : List Char) : Except Problem Reading :=
  match Scan.run {} 0 cs with
  | .error p => .error p
  | .ok s    => s.finish

/-- **Reads an expression**, or tells the first problem of its form. -/
def ofString (text : String) : Except Problem Reading :=
  ofChars text.toList

end Reading

end ExactCalc
