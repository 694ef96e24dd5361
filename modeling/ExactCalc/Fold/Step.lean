import ExactCalc.Token
import ExactCalc.Problem
/-!
# One fold

A fold takes an operator and its two nearest live neighbours.  The row is seen from the operator: the cells to its left,
nearest first, and the cells to its right.  The walk to a neighbour passes over spent cells and stops at the first live
one, however far that is.
-/
namespace ExactCalc

/-- A fold that was done. -/
structure Step where
  left   : Rat
  op     : Op
  right  : Rat
  result : Rat
deriving DecidableEq

/-- The line of a trace: `a op b = r`. -/
def Step.text (s : Step) : String :=
  fractionText s.left ++ " " ++ s.op.symbol.toString ++ " " ++ fractionText s.right ++ " = " ++ fractionText s.result

/-- The nearest live token of a walk, and the cells of the walk once that token is spent. -/
def takeNearest : List Cell → Option (Token × List Cell)
  | []              => none
  | none :: cells   => (takeNearest cells).map fun (t, rest) => (t, none :: rest)
  | some t :: cells => some (t, none :: cells)

/-- Folds the operator at position `pos` between `left` and `right`.  A missing neighbour is noticed before one that is
not a number, and that before a zero divisor; the cells are spent only if the fold is done. -/
def foldOperator (pos : Nat) (op : Op) (left right : List Cell) : Except Problem (Step × List Cell × List Cell) :=
  match takeNearest left, takeNearest right with
  | some (.num a, left'), some (.num b, right') =>
    match op.apply a b with
    | some r => .ok (⟨a, op, b, r⟩, left', right')
    | none   => .error (.divisionByZero pos)
  | some _, some _ => .error (.inconsistent pos .operandNotNumber)
  | _, _           => .error (.inconsistent pos .missingOperand)

theorem takeNearest_eq_none_iff : ∀ {cells : List Cell}, takeNearest cells = none ↔ ∀ c ∈ cells, c = none
  | []              => by simp [takeNearest]
  | none :: cells   => by
    have ih : takeNearest cells = none ↔ ∀ c ∈ cells, c = none := takeNearest_eq_none_iff
    simp [takeNearest, ih]
  | some t :: cells => by simp [takeNearest]

theorem length_of_takeNearest : ∀ {cells rest : List Cell} {t : Token},
    takeNearest cells = some (t, rest) → rest.length = cells.length
  | [], _, _, h => by simp [takeNearest] at h
  | none :: cells, rest, t, h => by
    obtain ⟨⟨t', rest'⟩, h', e⟩ := Option.map_eq_some_iff.1 h
    obtain ⟨rfl, rfl⟩ := Prod.mk.inj e
    simp [length_of_takeNearest h']
  | some u :: cells, rest, t, h => by
    simp only [takeNearest, Option.some.injEq, Prod.mk.injEq] at h
    simp [← h.2]

/-- **The walk stops at the first live cell.** -/
theorem takeNearest_eq_some_iff : ∀ {cells rest : List Cell} {t : Token},
    takeNearest cells = some (t, rest) ↔
      ∃ n far, cells = List.replicate n none ++ some t :: far ∧ rest = List.replicate n none ++ none :: far
  | [], rest, t => by simp [takeNearest]
  | none :: cells, rest, t => by
    simp only [takeNearest, Option.map_eq_some_iff, Prod.exists, Prod.mk.injEq]
    constructor
    · rintro ⟨t', rest', h, rfl, rfl⟩
      obtain ⟨n, far, rfl, rfl⟩ := takeNearest_eq_some_iff.1 h
      exact ⟨n + 1, far, rfl, rfl⟩
    · rintro ⟨n, far, h, rfl⟩
      cases n with
      | zero => simp at h
      | succ n =>
        simp only [List.replicate_succ, List.cons_append, List.cons.injEq, true_and] at h
        exact ⟨t, _, takeNearest_eq_some_iff.2 ⟨n, far, h, rfl⟩, rfl, by simp [List.replicate_succ]⟩
  | some u :: cells, rest, t => by
    simp only [takeNearest, Option.some.injEq, Prod.mk.injEq]
    constructor
    · rintro ⟨rfl, rfl⟩
      exact ⟨0, cells, rfl, rfl⟩
    · rintro ⟨n, far, h, rfl⟩
      cases n with
      | zero => simp at h; simp [h]
      | succ n => simp [List.replicate_succ] at h

/-- **A fold is done exactly between two numbers that have a result.** -/
theorem foldOperator_eq_ok_iff {pos : Nat} {op : Op} {left right left' right' : List Cell} {s : Step} :
    foldOperator pos op left right = .ok (s, left', right') ↔
      s.op = op ∧ takeNearest left = some (.num s.left, left') ∧ takeNearest right = some (.num s.right, right') ∧
        op.apply s.left s.right = some s.result := by
  obtain ⟨a, o, b, r⟩ := s
  rcases h₁ : takeNearest left with _ | ⟨t₁, l₁⟩
  · simp [foldOperator, h₁]
  rcases h₂ : takeNearest right with _ | ⟨t₂, l₂⟩
  · simp [foldOperator, h₁, h₂]
  cases t₁ with
  | num a' =>
    cases t₂ with
    | num b' =>
      cases h : op.apply a' b' with
      | none =>
        simp only [foldOperator, h₁, h₂, h, reduceCtorEq, false_iff, Option.some.injEq, Prod.mk.injEq,
          Token.num.injEq]
        rintro ⟨-, ⟨rfl, -⟩, ⟨rfl, -⟩, h'⟩
        rw [h] at h'
        cases h'
      | some r' =>
        simp only [foldOperator, h₁, h₂, h, Except.ok.injEq, Prod.mk.injEq, Step.mk.injEq, Option.some.injEq,
          Token.num.injEq]
        constructor
        · rintro ⟨⟨rfl, rfl, rfl, rfl⟩, rfl, rfl⟩
          exact ⟨rfl, ⟨rfl, rfl⟩, ⟨rfl, rfl⟩, h⟩
        · rintro ⟨rfl, ⟨rfl, rfl⟩, ⟨rfl, rfl⟩, h'⟩
          rw [h] at h'
          cases h'
          exact ⟨⟨rfl, rfl, rfl, rfl⟩, rfl, rfl⟩
    | op _ | opening | closing => simp [foldOperator, h₁, h₂]
  | op _ | opening | closing => simp [foldOperator, h₁, h₂]

end ExactCalc
