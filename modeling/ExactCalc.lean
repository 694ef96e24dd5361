import ExactCalc.Main
import ExactCalc.Calculator.Basic
import ExactCalc.Expr.Order
import ExactCalc.Fold.Length
import ExactCalc.Proofs.Numeral
import ExactCalc.Proofs.Draft
import ExactCalc.Proofs.Acceptance
import ExactCalc.Proofs.Relocation
import ExactCalc.Proofs.Chain
import ExactCalc.Proofs.FlatRow
import ExactCalc.Proofs.NestedRow
import ExactCalc.Proofs.Blocks
import ExactCalc.Proofs.Evaluation
import ExactCalc.Proofs.Nesting
import ExactCalc.Proofs.Reach
import ExactCalc.Proofs.Tabulation
import ExactCalc.Proofs.Localisation
import ExactCalc.Proofs.Spacing
import ExactCalc.Proofs.Viability
import ExactCalc.Proofs.Pieces
import ExactCalc.Proofs.Faithful
import ExactCalc.Proofs.Unplaced
import ExactCalc.Proofs.Printing
import ExactCalc.Expr.Operations
import ExactCalc.Proofs.Operations
import ExactCalc.Proofs.Trace
import ExactCalc.Proofs.AnyOrder
import ExactCalc.Proofs.Coherence
import ExactCalc.Proofs.Keypad
import ExactCalc.Proofs.Nearest
import ExactCalc.Proofs.Canonical
import ExactCalc.Proofs.FiniteDecimal
import ExactCalc.Proofs.RoundingLaws
import ExactCalc.Proofs.DecimalText
import ExactCalc.Proofs.TypedBack
import ExactCalc.Proofs.Answers
import ExactCalc.Proofs.FirstZero
import ExactCalc.Proofs.Conversation
import ExactCalc.Fold.Slots
import ExactCalc.Proofs.Stops
import ExactCalc.Proofs.Safety
import ExactCalc.Proofs.Certificate
import ExactCalc.Proofs.Conservation
import ExactCalc.Proofs.Transparency
import ExactCalc.Proofs.Stretch
import ExactCalc.Proofs.Locality
