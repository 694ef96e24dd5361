import ExactCalc.Reading
import ExactCalc.Fold.Row
/-!
# Evaluating an expression

A text is read, its row folded, and the exact result rounded.  `evaluate` gives the value; `explain` gives also the
working: the tokens, the spans, every fold, and a note on the method.
-/
namespace ExactCalc

/-- Folds what was read. -/
def Reading.fold (r : Reading) : Folded :=
  foldTable r.positions r.spans (r.tokens.map some)

/-- The working of a calculation, as the four texts that are shown. -/
structure Working where
  tokens : String := ""
  spans  : String := ""
  steps  : String := ""
  note   : String := ""
deriving DecidableEq, Repr

/-- The note on the method: rounding is to `precision` digits. -/
def methodNote (precision : Nat) : String :=
  "Pipeline: jetons → portées (de la plus profonde à la racine) → * / puis + - → arrondi (" ++
    toString precision ++ " chiffres)."

/-- The working, from what was read and how its row was folded. -/
def Reading.working (r : Reading) (f : Folded) (precision : Nat) : Working where
  tokens := tokensText r.tokens
  spans  := r.spans.text
  steps  := f.trace ""
  note   := methodNote precision

/-- The exact value of a text. -/
def exactValue (text : String) : Except Problem Rat :=
  match Reading.ofString text with
  | .error p => .error p
  | .ok r    => r.fold.answer

/-- **The value of a text**, rounded to `precision` digits after the point, of which at most `maxPrecision` count. -/
def evaluate (text : String) (precision : Nat) : Except Problem Value :=
  match exactValue text with
  | .error p => .error p
  | .ok v    => .ok (Value.ofRat v (clampPrecision precision))

/-- **The value of a text and its working.** -/
def explain (text : String) (precision : Nat) : Except Problem (Value × Working) :=
  match Reading.ofString text with
  | .error p => .error p
  | .ok r    =>
    let f := r.fold
    match f.answer with
    | .error p => .error p
    | .ok v    => .ok (Value.ofRat v (clampPrecision precision), r.working f (clampPrecision precision))

/-! ## What is logged -/

/-- The events of reading a text and folding it. -/
def evaluationEvents (text : String) : List Event :=
  match Reading.ofString text with
  | .error _ => []
  | .ok r    => .scanned r.lexemes.length r.spans.maxDepth :: r.fold.events

/-- The events of explaining a text: a success is recorded at the end. -/
def explanationEvents (text : String) (precision : Nat) : List Event :=
  evaluationEvents text ++
    match explain text precision with
    | .error _    => []
    | .ok (v, _)  => [.answered text v]

theorem evaluate_eq_explain (text : String) (precision : Nat) :
    evaluate text precision = (explain text precision).map Prod.fst := by
  unfold evaluate explain exactValue
  cases Reading.ofString text with
  | error p => rfl
  | ok r => simp only; cases r.fold.answer <;> rfl

end ExactCalc
