import ExactCalc.Fold.Step
import ExactCalc.Span
import ExactCalc.Value
import ExactCalc.Text.Quoted
/-!
# The journal

What the library does is recorded as events, in order; each has a level and a message.
-/
namespace ExactCalc

inductive Level where
  | error
  | info
  | debug
  | trace
deriving DecidableEq, Repr

inductive Event where
  /-- A text was read into this many tokens, nested this deep. -/
  | scanned (tokens depth : Nat)
  /-- A span is about to be folded; its cells as they are then. -/
  | entered (span : Span) (content : List Cell)
  | folded (step : Step)
  /-- A text was worked out to a value. -/
  | answered (text : String) (value : Value)
  /-- A text was read, and yet its row was inconsistent. -/
  | gaveUp (text : String) (problem : Problem)
  /-- A console session starts. -/
  | started (precision : Nat)
deriving DecidableEq

namespace Event

def level : Event → Level
  | scanned .. | entered .. | answered .. => .debug
  | folded _  => .trace
  | gaveUp .. => .error
  | started _ => .info

def message : Event → String
  | scanned n d     => "découpage: " ++ toString n ++ " jetons, profondeur max " ++ toString d
  | entered s cells => "portée profondeur " ++ toString s.depth ++ " " ++ s.text ++ " : " ++ cellsText cells
  | folded s        => s.text
  | answered t v    => quote t ++ " = " ++ v.text
  | gaveUp t p      => quote t ++ ": " ++ p.message
  | started p       => "console: précision " ++ toString p ++ " chiffres"

def step? : Event → Option Step
  | folded s => some s
  | _        => none

end Event

end ExactCalc
