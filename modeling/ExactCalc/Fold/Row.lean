import ExactCalc.Journal
/-!
# Folding a row of cells

Spans are folded in place, deepest first.  A span loses its parentheses, then its leading sign, and then two passes go
over its slots from left to right: one folds `*` and `/`, the other `+` and `-`.  A fold writes its result into the slot
of its operator and spends the two operands.  Where folding stops at a problem, the row stays as the folds before it
left it.
-/
namespace ExactCalc

/-- What folding leaves: the row, the events, and the problem that stopped it, if one did. -/
structure Folding where
  cells   : List Cell
  events  : List Event := []
  problem : Option Problem := none
deriving DecidableEq

/-- Goes on with the row that is left, unless a problem stopped the folding. -/
def Folding.andThen (f : Folding) (next : List Cell → Folding) : Folding :=
  match f.problem with
  | some _ => f
  | none   =>
    let g := next f.cells
    { g with events := f.events ++ g.events }

/-- The position of a slot; a slot without one counts as position 0. -/
def positionAt (positions : List Nat) (slot : Nat) : Nat :=
  positions[slot]?.getD 0

section
variable (positions : List Nat)

/-! ## One pass -/

/-- The operator of a cell, if the pass for this kind of operator folds it. -/
def operatorOf (multiplicative : Bool) : Cell → Option Op
  | some (.op op) => if op.isMultiplicative = multiplicative then some op else none
  | _             => none

/-- Goes over the first `n` cells of `right` and folds the operators of one kind; `left` holds the cells before them,
nearest first. -/
def sweep (multiplicative : Bool) : Nat → List Cell → List Cell → Folding
  | 0,     left, right      => { cells := left.reverse ++ right }
  | _ + 1, left, []         => { cells := left.reverse }
  | n + 1, left, c :: right =>
    match operatorOf multiplicative c with
    | none    => sweep multiplicative n (c :: left) right
    | some op =>
      match foldOperator (positionAt positions left.length) op left right with
      | .error p => { cells := left.reverse ++ c :: right, problem := some p }
      | .ok (step, left', right') =>
        let f := sweep multiplicative n (some (.num step.result) :: left') right'
        { f with events := .folded step :: f.events }

/-- A pass over the slots from `start` to `stop`. -/
def pass (multiplicative : Bool) (start stop : Nat) (cells : List Cell) : Folding :=
  sweep positions multiplicative (stop + 1 - start) (cells.take start).reverse (cells.drop start)

/-- The two passes over the slots from `start` to `stop`. -/
def passes (start stop : Nat) (cells : List Cell) : Folding :=
  (pass positions true start stop cells).andThen (pass positions false start stop)

/-! ## One span -/

/-- Negates the number that a leading `-` applies to: at most `n` spent cells may come before it.  Gives the number of
cells up to and with that number and the cells after the change, or the number of cells before the one that should be a
number. -/
def negateFirst : Nat → List Cell → Except Nat (Nat × List Cell)
  | _,     some (.num r) :: cells => .ok (1, some (.num (-r)) :: cells)
  | n + 1, none :: cells          =>
    match negateFirst n cells with
    | .ok (k, cells') => .ok (k + 1, none :: cells')
    | .error k        => .error (k + 1)
  | _,     _                      => .error 0

/-- Folds the slots from `start` to `stop`, a leading sign first.  A leading `+` is spent; a leading `-` is spent and
negates the next number. -/
def foldSigned (start stop : Nat) (cells : List Cell) : Folding :=
  let before := cells.take start
  match cells.drop start with
  | some (.op .add) :: after => passes positions (start + 1) stop (before ++ none :: after)
  | some (.op .sub) :: after =>
    match negateFirst (stop - start) after with
    | .ok (k, after') => passes positions (start + 1 + k) stop (before ++ none :: after')
    | .error k        =>
      { cells := before ++ none :: after
        problem := some (.inconsistent (positionAt positions (start + 1 + k)) .signWithoutNumber) }
  | _ => passes positions start stop cells

/-- Whether a span, with its parentheses if it has them, lies in a row of `n` cells. -/
def Span.fits (s : Span) (n : Nat) : Bool :=
  if s.isRoot then decide (s.start ≤ s.stop) && decide (s.stop < n)
  else decide (1 ≤ s.start) && decide (s.start ≤ s.stop) && decide (s.stop + 1 < n)

/-- Spends the two parentheses of a span; the root has none. -/
def spendParentheses (s : Span) (cells : List Cell) : List Cell :=
  if s.isRoot then cells else (cells.set (s.start - 1) none).set (s.stop + 1) none

def foldSpan (s : Span) (cells : List Cell) : Folding :=
  if s.fits cells.length then
    let f := foldSigned positions s.start s.stop (spendParentheses s cells)
    { f with events := .entered s ((cells.drop s.start).take (s.stop + 1 - s.start)) :: f.events }
  else { cells, problem := some (.inconsistent (positionAt positions s.start) .spanOutsideRow) }

/-! ## The whole row -/

def foldSpans : List Span → List Cell → Folding
  | [],         cells => { cells }
  | s :: spans, cells => (foldSpan positions s cells).andThen (foldSpans spans)

/-- The live tokens of a row, each with its slot; `slot` is the first one. -/
def liveTokens : Nat → List Cell → List (Nat × Token)
  | _,    []              => []
  | slot, none :: cells   => liveTokens (slot + 1) cells
  | slot, some t :: cells => (slot, t) :: liveTokens (slot + 1) cells

/-- The number that a folded row has come to: its only live token. -/
def soleNumber (cells : List Cell) : Except Problem Rat :=
  match liveTokens 0 cells with
  | []             => .error (.inconsistent 0 .nothingLeft)
  | [(_, .num r)]  => .ok r
  | (slot, _) :: _ => .error (.inconsistent (positionAt positions slot) .tokensLeft)

end

/-- A row after all its spans: what is left of it, the events, and the number it has come to or the problem. -/
structure Folded where
  cells  : List Cell
  events : List Event
  answer : Except Problem Rat

def Folded.steps (f : Folded) : List Step :=
  f.events.filterMap Event.step?

/-- **Folds a row by the spans of a table**, deepest first.  The row and the table need not belong together. -/
def foldTable (positions : List Nat) (spans : SpanTable) (cells : List Cell) : Folded :=
  let f := foldSpans positions spans.deepestFirst cells
  { cells := f.cells
    events := f.events
    answer := match f.problem with
      | some p => .error p
      | none   => soleNumber positions f.cells }

/-! ## Traces -/

/-- A trace with more lines: each starts a new line, unless the trace is still empty. -/
def extendTrace (trace : String) (lines : List String) : String :=
  lines.foldl (fun t line => if t.isEmpty then line else t ++ "\n" ++ line) trace

def Folded.trace (f : Folded) (before : String) : String :=
  extendTrace before (f.steps.map Step.text)

end ExactCalc
