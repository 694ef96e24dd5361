import ExactCalc.Fold.Row
/-!
# Folding by slot numbers

Folding once more, as a machine that does one small piece of work at a time and knows every cell by its slot number.
What an array and its machine integers do not allow is a **fault**: a slot outside the row, a slot number below 0 or
beyond the length of the row (which is the largest number that is sure to be a machine integer), a division by 0.  The
bounds of a span come from outside and may be any numbers, so they are compared with the row before they are used.
-/
namespace ExactCalc

/-- What a machine with an array cannot do. -/
inductive Fault where
  /-- The row has no such slot. -/
  | outsideRow (slot : Nat)
  /-- A slot number is raised beyond the length of the row. -/
  | raisedTooFar (slot : Nat)
  /-- A slot number is lowered below 0. -/
  | loweredTooFar
  | zeroDivisor
deriving DecidableEq, Repr

namespace Slots

/-! ## Guarded operations -/

section
variable (cells : List Cell)

def read (slot : Nat) : Except Fault Cell :=
  match cells[slot]? with
  | some c => .ok c
  | none   => .error (.outsideRow slot)

/-- Whether a cell is live; its token is not looked at. -/
def isLive (slot : Nat) : Except Fault Bool :=
  match cells[slot]? with
  | some c => .ok c.isSome
  | none   => .error (.outsideRow slot)

def write (slot : Nat) (c : Cell) : Except Fault (List Cell) :=
  if slot < cells.length then .ok (cells.set slot c) else .error (.outsideRow slot)

/-- The cells from `start` to `stop`. -/
def slice (start stop : Nat) : Except Fault (List Cell) :=
  if start ≤ stop ∧ stop < cells.length then .ok ((cells.drop start).take (stop + 1 - start))
  else .error (.outsideRow stop)

def raise (slot : Nat) : Except Fault Nat :=
  if slot < cells.length then .ok (slot + 1) else .error (.raisedTooFar slot)

def lower : Nat → Except Fault Nat
  | 0        => .error .loweredTooFar
  | slot + 1 => .ok slot

/-- The nearest live slot below a slot. -/
def nearestBelow : Nat → Except Fault (Option Nat)
  | 0        => .ok none
  | slot + 1 => do
    if ← isLive cells slot then return some slot else nearestBelow slot

/-- The nearest live slot among the `n` slots from `slot` on. -/
def nearestFrom : Nat → Nat → Except Fault (Option Nat)
  | 0,     _    => .ok none
  | n + 1, slot => do
    if ← isLive cells slot then return some slot else nearestFrom n (← raise cells slot)

end

def divide (a b : Rat) : Except Fault Rat :=
  if b = 0 then .error .zeroDivisor else .ok (a / b)

/-- The result of an operator; a divisor is looked at before it is used. -/
def result (op : Op) (a b : Rat) : Except Fault (Option Rat) :=
  match op with
  | .add => .ok (some (a + b))
  | .sub => .ok (some (a - b))
  | .mul => .ok (some (a * b))
  | .div => if b = 0 then .ok none else do return some (← divide a b)

/-! ## Pieces of work -/

/-- A piece of work on the row. -/
inductive Task where
  /-- To check a span and to spend its parentheses. -/
  | enter (s : Span)
  /-- To spend the sign in `start`, if there is one. -/
  | sign (start stop : Nat)
  /-- To negate the next number, which is in `slot` or comes after spent cells. -/
  | negate (slot stop : Nat)
  /-- To fold the operators of one kind from `slot` to `stop`. -/
  | scan (multiplicative : Bool) (slot stop : Nat)
deriving DecidableEq

/-- What a piece of work has come to: the row, the events, and the work that comes next. -/
structure Done where
  cells  : List Cell
  events : List Event := []
  next   : List Task := []
deriving DecidableEq

def scans (start stop : Nat) : List Task :=
  [.scan true start stop, .scan false start stop]

section
variable (positions : List Nat) (cells : List Cell)

/-- Whether a span lies in the row: no bound is added to, for it may be the largest machine integer. -/
def contains (s : Span) : Bool :=
  if s.isRoot then decide (s.start ≤ s.stop) && decide (s.stop < cells.length)
  else decide (1 ≤ s.start) && decide (s.start ≤ s.stop) && decide (s.stop < cells.length - 1)

def spendAround (s : Span) : Except Fault (List Cell) :=
  if s.isRoot then .ok cells
  else do
    let opened ← write cells (← lower s.start) none
    write opened (← raise opened s.stop) none

def enter (s : Span) : Except Fault (Except Problem Done) :=
  if contains cells s then do
    let content ← slice cells s.start s.stop
    let spent ← spendAround cells s
    return .ok { cells := spent, events := [.entered s content], next := [.sign s.start s.stop] }
  else .ok (.error (.inconsistent (positionAt positions s.start) .spanOutsideRow))

def sign (start stop : Nat) : Except Fault (Except Problem Done) := do
  match ← read cells start with
  | some (.op .add) => return .ok { cells := ← write cells start none, next := scans (← raise cells start) stop }
  | some (.op .sub) => return .ok { cells := ← write cells start none, next := [.negate (← raise cells start) stop] }
  | _               => return .ok { cells, next := scans start stop }

/-- Negates the number in a slot; the slot may lie just after the row. -/
def negateAt (slot stop : Nat) : Except Fault (Except Problem Done) :=
  match cells[slot]? with
  | some (some (.num r)) => do
    return .ok { cells := ← write cells slot (some (.num (-r))), next := scans (← raise cells slot) stop }
  | _ => .ok (.error (.inconsistent (positionAt positions slot) .signWithoutNumber))

def negate (slot stop : Nat) : Except Fault (Except Problem Done) :=
  if slot ≤ stop then do
    if ← isLive cells slot then negateAt positions cells slot stop
    else return .ok { cells, next := [.negate (← raise cells slot) stop] }
  else negateAt positions cells slot stop

/-- Folds the operator in a slot with its nearest live neighbours; all checks come before the first change. -/
def foldAt (slot : Nat) (op : Op) : Except Fault (Except Problem (Step × List Cell)) := do
  let pos := positionAt positions slot
  let left ← nearestBelow cells slot
  let after ← raise cells slot
  let right ← nearestFrom cells (cells.length - after) after
  match left, right with
  | some g, some d =>
    match ← read cells g, ← read cells d with
    | some (.num a), some (.num b) =>
      match ← result op a b with
      | some r =>
        let folded ← write cells slot (some (.num r))
        let folded ← write folded g none
        let folded ← write folded d none
        return .ok (⟨a, op, b, r⟩, folded)
      | none => return .error (.divisionByZero pos)
    | _, _ => return .error (.inconsistent pos .operandNotNumber)
  | _, _ => return .error (.inconsistent pos .missingOperand)

def scan (multiplicative : Bool) (slot stop : Nat) : Except Fault (Except Problem Done) :=
  if stop < slot then .ok (.ok { cells })
  else do
    match operatorOf multiplicative (← read cells slot) with
    | none    => return .ok { cells, next := [.scan multiplicative (← raise cells slot) stop] }
    | some op =>
      match ← foldAt positions cells slot op with
      | .error p      => return .error p
      | .ok (s, rest) =>
        return .ok { cells := rest, events := [.folded s], next := [.scan multiplicative (← raise cells slot) stop] }

def Task.work : Task → Except Fault (Except Problem Done)
  | .enter s          => Slots.enter positions cells s
  | .sign start stop  => Slots.sign cells start stop
  | .negate slot stop => Slots.negate positions cells slot stop
  | .scan m slot stop => Slots.scan positions cells m slot stop

end

/-! ## The machine -/

/-- The row, what is recorded so far, and the work that is left, in order. -/
structure State where
  cells  : List Cell
  events : List Event := []
  tasks  : List Task
deriving DecidableEq

def State.start (spans : SpanTable) (cells : List Cell) : State where
  cells := cells
  tasks := spans.deepestFirst.map .enter

/-- What a step comes to: another state, or the answer. -/
inductive Outcome where
  | goesOn (s : State)
  | ends (answer : Except Problem Rat)

/-- One step: the first piece of work, or the answer if no work is left.  A step that ends with a problem gives no new
state: nothing has changed. -/
def State.step (positions : List Nat) (s : State) : Except Fault Outcome :=
  match s.tasks with
  | []      => .ok (.ends (soleNumber positions s.cells))
  | t :: ts => do
    match ← t.work positions s.cells with
    | .error p => return .ends (.error p)
    | .ok d    => return .goesOn ⟨d.cells, s.events ++ d.events, d.next ++ ts⟩

end Slots

end ExactCalc
