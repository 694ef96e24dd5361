import ExactCalc.Evaluation
import ExactCalc.Calculator.Entry
/-!
# The calculator

The state behind the window: the entry, what was shown last, and the precision.  A problem leaves the last result in
place but clears the working, so that a working always belongs to the result beside it.
-/
namespace ExactCalc

structure Calculator where
  entry     : Entry := .empty
  result    : String := ""
  /-- The text of the last problem; empty if there is none to show. -/
  error     : String := ""
  working   : Working := {}
  precision : Nat := defaultPrecision
  /-- Whether the entry field is to take the focus at the next frame. -/
  focusing  : Bool := true
deriving DecidableEq

namespace Calculator

def ofPrecision (n : Nat) : Calculator :=
  { precision := clampPrecision n }

/-! ## What the state can undergo -/

def typeText (c : Calculator) (text : String) : Calculator :=
  { c with entry := .ofString text }

def clearEntry (c : Calculator) : Calculator :=
  { c with entry := .empty, focusing := true }

def clearResults (c : Calculator) : Calculator :=
  { c with result := "", error := "", working := {}, focusing := true }

/-- Clears everything and restores the default precision. -/
def reset (c : Calculator) : Calculator :=
  { c.clearResults with entry := .empty, precision := defaultPrecision }

def deleteLast (c : Calculator) : Calculator :=
  { c with entry := c.entry.deleteLast, focusing := true }

def setPrecision (c : Calculator) (n : Nat) : Calculator :=
  { c with precision := clampPrecision n, focusing := true }

/-- A problem as it is shown: its message and, if it has a position, the entry with a caret under the character at
fault. -/
def problemText (entry : Entry) (p : Problem) : String :=
  match p.position? with
  | none   => p.message
  | some i => p.message ++ "\n" ++ entry.text ++ "\n" ++ String.ofList (List.replicate i ' ' ++ ['^'])

def showProblem (c : Calculator) (p : Problem) : Calculator :=
  { c with error := problemText c.entry p, working := {}, focusing := true }

def showResult (c : Calculator) (result : String) (working : Working) : Calculator :=
  { c with result, error := "", working, focusing := true }

/-- Evaluates the entry and shows the outcome. -/
def evaluateEntry (c : Calculator) : Calculator :=
  match explain c.entry.text c.precision with
  | .ok (v, working) => c.showResult v.text working
  | .error p         => c.showProblem p

def press (c : Calculator) (s : Symbol) : Calculator :=
  { c with entry := c.entry.press s, focusing := true }

/-! ## The window -/

inductive Button where
  | clearEntry
  | clearResults
  | reset
  | deleteLast
  | equals
  | symbol (s : Symbol)
deriving DecidableEq, Repr

/-- What the user does in one frame of the window.  Enter counts as `enter` only while the entry field has the focus; a
frame with Enter anywhere else is one with `nothing`. -/
inductive Gesture where
  | nothing
  | escape
  | enter
  | dial (precision : Nat)
  | click (button : Button)
deriving DecidableEq, Repr

def click (c : Calculator) : Button → Calculator
  | .clearEntry   => c.clearEntry
  | .clearResults => c.clearResults
  | .reset        => c.reset
  | .deleteLast   => c.deleteLast
  | .equals       => c.evaluateEntry
  | .symbol s     => c.press s

/-- The dial stops at its ends and acts only if it moves. -/
def dial (c : Calculator) (n : Nat) : Calculator :=
  if clampPrecision n = c.precision then c else c.setPrecision n

/-- One frame: the entry field takes the focus it was to take, and then the gesture acts.  Escape acts before that.
Whether the field has the focus is not part of the state: it is told by the gesture, `enter` or `nothing`. -/
def frame (c : Calculator) : Gesture → Calculator
  | .nothing => { c with focusing := false }
  | .escape  => { c.clearEntry with focusing := false }
  | .enter   => evaluateEntry { c with focusing := false }
  | .dial n  => dial { c with focusing := false } n
  | .click b => click { c with focusing := false } b

/-! ## Runs -/

/-- Everything that can happen to a calculator. -/
inductive Action where
  | typeText (text : String)
  | clearEntry
  | clearResults
  | reset
  | deleteLast
  | setPrecision (n : Nat)
  | showProblem (p : Problem)
  | showResult (result : String) (working : Working)
  | frame (g : Gesture)
deriving DecidableEq

def act (c : Calculator) : Action → Calculator
  | .typeText t     => c.typeText t
  | .clearEntry     => c.clearEntry
  | .clearResults   => c.clearResults
  | .reset          => c.reset
  | .deleteLast     => c.deleteLast
  | .setPrecision n => c.setPrecision n
  | .showProblem p  => c.showProblem p
  | .showResult r w => c.showResult r w
  | .frame g        => c.frame g

/-- Whether an action evaluates the entry. -/
def Action.evaluates : Action → Bool
  | .frame .enter | .frame (.click .equals) => true
  | _ => false

/-- The events of an action: only an evaluation has any. -/
def actionEvents (c : Calculator) (a : Action) : List Event :=
  if a.evaluates then explanationEvents c.entry.text c.precision else []

/-- The states of a run, the first one included. -/
def states (c : Calculator) : List Action → List Calculator
  | []      => [c]
  | a :: as => c :: states (c.act a) as

/-- The events of a run. -/
def runEvents (c : Calculator) : List Action → List Event
  | []      => []
  | a :: as => c.actionEvents a ++ runEvents (c.act a) as

end Calculator

end ExactCalc
