import ExactCalc.Evaluation
import ExactCalc.Proofs.Relocation
/-!
# Folding does not look at positions

The positions of a row are handed to the problems and to nothing else.  So a row with other positions, or with none, is
left the same, with the same events, and comes to the same number or to the same problem elsewhere
(`unplaced_foldTable`).  Texts that are read into the same tokens and spans have the same value and the same working, or
divide by zero both (`explain_unplaced`).
-/
namespace ExactCalc

/-- A problem without its position. -/
def Problem.unplaced (p : Problem) : Problem :=
  p.relocate fun _ => 0

def Folding.unplaced (f : Folding) : Folding :=
  { f with problem := f.problem.map Problem.unplaced }

def Folded.unplaced (f : Folded) : Folded :=
  { f with answer := f.answer.mapError Problem.unplaced }

theorem Problem.unplaced_eq_divisionByZero_iff {p : Problem} :
    p.unplaced = divisionByZero 0 ↔ ∃ i, p = divisionByZero i := by
  cases p <;> simp [unplaced, relocate]

theorem mapError_unplaced_eq_ok_iff {α : Type} {x : Except Problem α} {a : α} :
    x.mapError Problem.unplaced = .ok a ↔ x = .ok a := by
  cases x <;> simp [Except.mapError]

theorem mapError_unplaced_eq_divisionByZero_iff {α : Type} {x : Except Problem α} :
    x.mapError Problem.unplaced = .error (.divisionByZero 0) ↔ ∃ i, x = .error (.divisionByZero i) := by
  cases x <;> simp [Except.mapError, Problem.unplaced_eq_divisionByZero_iff]

theorem mapError_foldOperator (pos : Nat) (op : Op) (left right : List Cell) :
    (foldOperator pos op left right).mapError Problem.unplaced = foldOperator 0 op left right := by
  unfold foldOperator
  split
  · split <;> rfl
  · rfl
  · rfl

theorem Folding.unplaced_andThen {f : Folding} {next next' : List Cell → Folding}
    (h : ∀ cells, (next cells).unplaced = next' cells) : (f.andThen next).unplaced = f.unplaced.andThen next' := by
  obtain ⟨cells, events, _ | p⟩ := f
  · rw [andThen, unplaced, unplaced, Option.map_none, andThen, ← h cells]
    rfl
  · rfl

section
variable (positions : List Nat)

theorem unplaced_sweep (m : Bool) : ∀ (n : Nat) (left right : List Cell),
    (sweep positions m n left right).unplaced = sweep [] m n left right
  | 0,     _,    _          => rfl
  | n + 1, left, []         => rfl
  | n + 1, left, c :: right => by
    rw [sweep, sweep]
    cases operatorOf m c with
    | none => exact unplaced_sweep m n (c :: left) right
    | some op =>
      -- both sweeps fold here or stop here: the outcomes of the fold differ in their position alone
      have hop := mapError_foldOperator (positionAt positions left.length) op left right
      have h₀ : positionAt [] left.length = 0 := rfl
      dsimp only
      rw [h₀, ← hop]
      cases foldOperator (positionAt positions left.length) op left right with
      | error p => rfl
      | ok x =>
        have ih := unplaced_sweep m n (some (.num x.1.result) :: x.2.1) x.2.2
        dsimp only [Except.mapError]
        rw [← ih]
        rfl

theorem unplaced_pass (m : Bool) (start stop : Nat) (cells : List Cell) :
    (pass positions m start stop cells).unplaced = pass [] m start stop cells :=
  unplaced_sweep positions m _ _ _

theorem unplaced_passes (start stop : Nat) (cells : List Cell) :
    (passes positions start stop cells).unplaced = passes [] start stop cells := by
  rw [passes, Folding.unplaced_andThen (unplaced_pass positions false start stop), unplaced_pass]
  rfl

theorem unplaced_foldSigned (start stop : Nat) (cells : List Cell) :
    (foldSigned positions start stop cells).unplaced = foldSigned [] start stop cells := by
  unfold foldSigned
  split
  · exact unplaced_passes positions _ _ _
  · split
    · exact unplaced_passes positions _ _ _
    · rfl
  · exact unplaced_passes positions _ _ _

theorem unplaced_foldSpan (s : Span) (cells : List Cell) :
    (foldSpan positions s cells).unplaced = foldSpan [] s cells := by
  unfold foldSpan
  split
  · rw [← unplaced_foldSigned positions]
    rfl
  · rfl

theorem unplaced_foldSpans : ∀ (spans : List Span) (cells : List Cell),
    (foldSpans positions spans cells).unplaced = foldSpans [] spans cells
  | [],         _     => rfl
  | s :: spans, cells => by
    rw [foldSpans, Folding.unplaced_andThen (unplaced_foldSpans spans), unplaced_foldSpan]
    rfl

theorem mapError_soleNumber (cells : List Cell) :
    (soleNumber positions cells).mapError Problem.unplaced = soleNumber [] cells := by
  unfold soleNumber
  split <;> rfl

/-- **Folding a row does not look at its positions**: they tell only where a problem is. -/
theorem unplaced_foldTable (spans : SpanTable) (cells : List Cell) :
    (foldTable positions spans cells).unplaced = foldTable [] spans cells := by
  rw [foldTable, foldTable, ← unplaced_foldSpans positions]
  rcases foldSpans positions spans.deepestFirst cells with ⟨cells', events, _ | p⟩
  · dsimp only [Folded.unplaced, Folding.unplaced, Option.map_none]
    rw [mapError_soleNumber]
  · rfl

end

theorem Reading.unplaced_fold {r r' : Reading} (ht : r'.tokens = r.tokens) (hs : r'.spans = r.spans) :
    r'.fold.unplaced = r.fold.unplaced := by
  rw [fold, fold, unplaced_foldTable, unplaced_foldTable, ht, hs]

theorem Reading.events_fold {r r' : Reading} (ht : r'.tokens = r.tokens) (hs : r'.spans = r.spans) :
    r'.fold.events = r.fold.events := by
  have h := congrArg Folded.events (unplaced_fold ht hs)
  exact h

/-- **Texts that are read into the same tokens and spans are explained alike**, up to the position of a problem. -/
theorem explain_unplaced {s t : String} {r r' : Reading} (h : Reading.ofString s = .ok r)
    (h' : Reading.ofString t = .ok r') (ht : r'.tokens = r.tokens) (hs : r'.spans = r.spans) (precision : Nat) :
    (explain t precision).mapError Problem.unplaced = (explain s precision).mapError Problem.unplaced := by
  have hanswer : r'.fold.answer.mapError Problem.unplaced = r.fold.answer.mapError Problem.unplaced :=
    congrArg Folded.answer (Reading.unplaced_fold ht hs)
  have hworking (n : Nat) : r'.working r'.fold n = r.working r.fold n := by
    simp only [Reading.working, Folded.trace, Folded.steps, ht, hs, Reading.events_fold ht hs]
  rw [explain, explain, h, h']
  dsimp only
  cases ha : r.fold.answer with
  | ok v =>
    rw [ha] at hanswer
    rw [mapError_unplaced_eq_ok_iff.1 hanswer, hworking]
  | error p =>
    cases ha' : r'.fold.answer with
    | ok v' =>
      rw [ha, ha'] at hanswer
      cases hanswer
    | error p' =>
      rw [ha, ha'] at hanswer
      exact congrArg Except.error (Except.error.inj hanswer)

theorem mapError_map {α β : Type} (f : α → β) (g : Problem → Problem) (x : Except Problem α) :
    (x.map f).mapError g = (x.mapError g).map f := by
  cases x <;> rfl

/-- **Texts that are read into the same tokens and spans are worth the same**, up to the position of a problem. -/
theorem evaluate_unplaced {s t : String} {r r' : Reading} (h : Reading.ofString s = .ok r)
    (h' : Reading.ofString t = .ok r') (ht : r'.tokens = r.tokens) (hs : r'.spans = r.spans) (precision : Nat) :
    (evaluate t precision).mapError Problem.unplaced = (evaluate s precision).mapError Problem.unplaced := by
  rw [evaluate_eq_explain, evaluate_eq_explain, mapError_map, mapError_map, explain_unplaced h h' ht hs]

end ExactCalc
