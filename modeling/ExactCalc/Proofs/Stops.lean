import ExactCalc.Fold.Length
/-!
# Where folding stops

Folding that stops at a problem stops inside one span, with the spans before it folded (`foldSpans_stops`): the span
does not lie in the row, or its leading `-` has no number, or one of its operators cannot be folded between the cells on
its two sides (`foldSpan_stops`).  Every other cell and event is as the work before that point left it.
-/
namespace ExactCalc

/-- An operator of these cells cannot be folded between the cells on its two sides. -/
def StuckOperator (positions : List Nat) (p : Problem) (cells : List Cell) : Prop :=
  ∃ left op right, cells = left.reverse ++ some (.op op) :: right ∧
    foldOperator (positionAt positions left.length) op left right = .error p

/-- The `-` in slot `start` of `cells` is spent, and after at most `n` spent cells there is no number that it could
negate. -/
def StuckSign (positions : List Nat) (start n : Nat) (cells : List Cell) (p : Problem) (f : Folding) : Prop :=
  ∃ before after k, cells = before ++ some (.op .sub) :: after ∧ before.length = start ∧
    negateFirst n after = .error k ∧ p = .inconsistent (positionAt positions (start + 1 + k)) .signWithoutNumber ∧
    f = { cells := before ++ none :: after, problem := some p }

theorem eq_of_operatorOf {m : Bool} {c : Cell} {op : Op} (h : operatorOf m c = some op) : c = some (.op op) := by
  unfold operatorOf at h
  split at h
  · split at h
    · rw [Option.some.inj h]
    · cases h
  · cases h

theorem eq_replicate_of_takeNearest {cells : List Cell} (h : takeNearest cells = none) :
    cells = List.replicate cells.length none :=
  List.eq_replicate_iff.2 ⟨rfl, takeNearest_eq_none_iff.1 h⟩

/-- **A fold that is not done** lacks a neighbour, or one of its neighbours is no number, or the right one is a zero
divisor. -/
theorem foldOperator_eq_error {pos : Nat} {op : Op} {left right : List Cell} {p : Problem}
    (h : foldOperator pos op left right = .error p) :
    p = .inconsistent pos .missingOperand ∧ (takeNearest left = none ∨ takeNearest right = none) ∨
      ∃ t left' u right', takeNearest left = some (t, left') ∧ takeNearest right = some (u, right') ∧
        (p = .inconsistent pos .operandNotNumber ∧ ((∀ a, t ≠ .num a) ∨ ∀ b, u ≠ .num b) ∨
          p = .divisionByZero pos ∧ op = .div ∧ (∃ a, t = .num a) ∧ u = .num 0) := by
  unfold foldOperator at h
  rcases hl : takeNearest left with _ | ⟨t, left'⟩
  · simp only [hl, Except.error.injEq] at h
    exact .inl ⟨h.symm, .inl rfl⟩
  rcases hr : takeNearest right with _ | ⟨u, right'⟩
  · simp only [hl, hr, Except.error.injEq] at h
    exact .inl ⟨h.symm, .inr rfl⟩
  refine .inr ⟨t, left', u, right', rfl, rfl, ?_⟩
  cases t with
  | num a =>
    cases u with
    | num b =>
      cases happly : op.apply a b with
      | none =>
        simp only [hl, hr, happly, Except.error.injEq] at h
        obtain ⟨rfl, rfl⟩ := Op.apply_eq_none_iff.1 happly
        exact .inr ⟨h.symm, rfl, ⟨a, rfl⟩, rfl⟩
      | some r =>
        simp only [hl, hr, happly, reduceCtorEq] at h
    | op _ | opening | closing =>
      simp only [hl, hr, Except.error.injEq] at h
      exact .inl ⟨h.symm, .inr fun _ => Token.noConfusion⟩
  | op _ | opening | closing =>
    simp only [hl, hr, Except.error.injEq] at h
    exact .inl ⟨h.symm, .inl fun _ => Token.noConfusion⟩

theorem Folding.andThen_stops {f : Folding} {next : List Cell → Folding} {p : Problem}
    (h : (f.andThen next).problem = some p) :
    f.problem = some p ∧ f.andThen next = f ∨
      f.problem = none ∧ (next f.cells).problem = some p ∧
        f.andThen next = { next f.cells with events := f.events ++ (next f.cells).events } := by
  unfold Folding.andThen at h ⊢
  cases hf : f.problem with
  | some q =>
    rw [hf] at h
    exact .inl ⟨hf ▸ h, rfl⟩
  | none =>
    rw [hf] at h
    exact .inr ⟨rfl, h, rfl⟩

/-- **A search for the number of a leading `-` fails at the first cell that is not spent**, or after as many spent cells
as it may pass over, and that cell is no number. -/
theorem negateFirst_eq_error {n k : Nat} {cells : List Cell} (h : negateFirst n cells = .error k) :
    k ≤ n ∧ (∀ j < k, cells[j]? = some none) ∧ (k < n → cells[k]? ≠ some none) ∧
      ∀ r, cells[k]? ≠ some (some (.num r)) := by
  fun_induction negateFirst n cells generalizing k with
  | case1 => cases h
  | case2 => cases h
  | case3 n cells k' hk ih =>
    cases h
    obtain ⟨hle, hspent, hlive, hnum⟩ := ih hk
    refine ⟨Nat.succ_le_succ hle, fun j hj => ?_, fun hlt => ?_, fun r => ?_⟩
    · cases j with
      | zero   => rfl
      | succ j => exact hspent j (Nat.lt_of_succ_lt_succ hj)
    · exact hlive (Nat.lt_of_succ_lt_succ hlt)
    · exact hnum r
  | case4 n cells hnum hspent =>
    cases h
    refine ⟨Nat.zero_le n, fun j hj => absurd hj (Nat.not_lt_zero j), fun hlt he => ?_, fun r he => ?_⟩
    · cases n with
      | zero => exact Nat.lt_irrefl 0 hlt
      | succ n =>
        obtain ⟨rest, rfl⟩ := List.head?_eq_some_iff.1 (List.head?_eq_getElem?.trans he)
        exact hspent n rest rfl rfl
    · obtain ⟨rest, rfl⟩ := List.head?_eq_some_iff.1 (List.head?_eq_getElem?.trans he)
      exact hnum r rest rfl

section
variable {positions : List Nat} {p : Problem}

/-! ## The passes -/

theorem sweep_stops (m : Bool) : ∀ (n : Nat) (left right : List Cell),
    (sweep positions m n left right).problem = some p →
      StuckOperator positions p (sweep positions m n left right).cells
  | 0,     _,    _,          h => by cases h
  | n + 1, _,    [],         h => by cases h
  | n + 1, left, c :: right, h => by
    unfold sweep at h ⊢
    cases ho : operatorOf m c with
    | none =>
      rw [ho] at h
      exact sweep_stops m n (c :: left) right h
    | some op =>
      rw [ho] at h
      dsimp only at h ⊢
      cases hf : foldOperator (positionAt positions left.length) op left right with
      | error q =>
        rw [hf] at h
        cases h
        exact ⟨left, op, right, by rw [eq_of_operatorOf ho], hf⟩
      | ok x =>
        rw [hf] at h
        exact sweep_stops m n _ _ h

theorem passes_stops {start stop : Nat} {cells : List Cell} (h : (passes positions start stop cells).problem = some p) :
    StuckOperator positions p (passes positions start stop cells).cells := by
  unfold passes at h ⊢
  rcases Folding.andThen_stops h with ⟨hf, he⟩ | ⟨-, hg, he⟩
  · rw [he]
    exact sweep_stops true _ _ _ hf
  · rw [he]
    exact sweep_stops false _ _ _ hg

/-! ## One span -/

theorem Span.bounds_of_fits {s : Span} {n : Nat} (h : s.fits n = true) : s.start ≤ s.stop ∧ s.stop < n := by
  unfold fits at h
  split at h <;> simp only [Bool.and_eq_true, decide_eq_true_eq] at h <;> omega

theorem foldSigned_stops {start stop : Nat} {cells : List Cell} (hstart : start ≤ cells.length)
    (h : (foldSigned positions start stop cells).problem = some p) :
    StuckOperator positions p (foldSigned positions start stop cells).cells ∨
      StuckSign positions start (stop - start) cells p (foldSigned positions start stop cells) := by
  unfold foldSigned at h ⊢
  split at h
  · exact .inl (passes_stops h)
  · rename_i after hrow
    cases hk : negateFirst (stop - start) after with
    | ok x =>
      rw [hk] at h
      exact .inl (passes_stops h)
    | error k =>
      rw [hk] at h
      cases h
      refine .inr ⟨cells.take start, after, k, ?_, List.length_take_of_le hstart, hk, rfl, rfl⟩
      rw [← hrow, List.take_append_drop]
  · exact .inl (passes_stops h)

/-- **What stops the folding of a span.** -/
theorem foldSpan_stops {s : Span} {row : List Cell} (h : (foldSpan positions s row).problem = some p) :
    s.fits row.length = false ∧ p = .inconsistent (positionAt positions s.start) .spanOutsideRow ∧
        foldSpan positions s row = { cells := row, problem := some p } ∨
      s.fits row.length = true ∧
        (StuckOperator positions p (foldSpan positions s row).cells ∨
          ∃ f, StuckSign positions s.start (s.stop - s.start) (spendParentheses s row) p f ∧
            (foldSpan positions s row).cells = f.cells ∧
            (foldSpan positions s row).events.filterMap Event.step? = []) := by
  unfold foldSpan at h ⊢
  cases hfits : s.fits row.length with
  | false =>
    rw [hfits] at h
    cases h
    exact .inl ⟨rfl, rfl, rfl⟩
  | true =>
    rw [hfits] at h
    refine .inr ⟨rfl, ?_⟩
    obtain ⟨hle, hlt⟩ := Span.bounds_of_fits hfits
    have hstart : s.start ≤ (spendParentheses s row).length := by
      rw [length_spendParentheses]
      omega
    rcases foldSigned_stops hstart h with hop | hsign
    · exact .inl hop
    · refine .inr ⟨_, hsign, rfl, ?_⟩
      obtain ⟨before, after, k, -, -, -, -, hf⟩ := hsign
      simp only [↓reduceIte, hf]
      rfl

/-! ## The row -/

/-- **Folding stops in one span, after all the spans before it are folded.** -/
theorem foldSpans_stops : ∀ {spans : List Span} {cells : List Cell},
    (foldSpans positions spans cells).problem = some p → ∃ done s rest row events,
      spans = done ++ s :: rest ∧ foldSpans positions done cells = { cells := row, events := events } ∧
        (foldSpan positions s row).problem = some p ∧
        (foldSpans positions spans cells).cells = (foldSpan positions s row).cells ∧
        (foldSpans positions spans cells).events = events ++ (foldSpan positions s row).events
  | [],         _,     h => by cases h
  | s :: spans, cells, h => by
    have hcons (ss : List Span) : foldSpans positions (s :: ss) cells =
        (foldSpan positions s cells).andThen (foldSpans positions ss) := rfl
    rw [hcons] at h ⊢
    rcases Folding.andThen_stops h with ⟨hf, he⟩ | ⟨hnone, hg, he⟩
    · exact ⟨[], s, spans, cells, [], rfl, rfl, hf, by rw [he], by rw [he]; rfl⟩
    · obtain ⟨done, s', rest, row, events, rfl, hdone, hp, hc, hev⟩ := foldSpans_stops hg
      refine ⟨s :: done, s', rest, row, (foldSpan positions s cells).events ++ events, rfl, ?_, hp, ?_, ?_⟩
      · rw [hcons, Folding.andThen, hnone]
        simp only [hdone]
      · rw [he, hc]
      · rw [he]
        dsimp only
        rw [hev, List.append_assoc]

/-- An answer comes either from what stopped the folding or from the look at what is left of the row. -/
theorem foldTable_error_cases {spans : SpanTable} {cells : List Cell}
    (h : (foldTable positions spans cells).answer = .error p) :
    (foldSpans positions spans.deepestFirst cells).problem = some p ∨
      (foldSpans positions spans.deepestFirst cells).problem = none ∧
        soleNumber positions (foldTable positions spans cells).cells = .error p := by
  unfold foldTable at h ⊢
  dsimp only at h ⊢
  cases hp : (foldSpans positions spans.deepestFirst cells).problem with
  | some q =>
    rw [hp] at h
    cases h
    exact .inl rfl
  | none =>
    rw [hp] at h
    exact .inr ⟨rfl, h⟩

theorem inconsistent_of_soleNumber {cells : List Cell} (h : soleNumber positions cells = .error p) :
    ∃ i cause, p = .inconsistent i cause := by
  unfold soleNumber at h
  split at h <;> cases h <;> exact ⟨_, _, rfl⟩

/-- **The only problems of folding** are a division by zero and an inconsistency. -/
theorem answer_eq_error_cases {spans : SpanTable} {cells : List Cell}
    (h : (foldTable positions spans cells).answer = .error p) :
    (∃ i, p = .divisionByZero i) ∨ ∃ i cause, p = .inconsistent i cause := by
  rcases foldTable_error_cases h with h | ⟨-, h⟩
  · obtain ⟨-, s, -, row, -, -, -, hp, -, -⟩ := foldSpans_stops h
    rcases foldSpan_stops hp with ⟨-, rfl, -⟩ | ⟨-, hstuck | hsign⟩
    · exact .inr ⟨_, _, rfl⟩
    · obtain ⟨left, op, right, -, hf⟩ := hstuck
      rcases foldOperator_eq_error hf with ⟨rfl, -⟩ | ⟨t, left', u, right', -, -, ⟨rfl, -⟩ | ⟨rfl, -⟩⟩
      · exact .inr ⟨_, _, rfl⟩
      · exact .inr ⟨_, _, rfl⟩
      · exact .inl ⟨_, rfl⟩
    · obtain ⟨f, ⟨before, after, k, -, -, -, rfl, -⟩, -, -⟩ := hsign
      exact .inr ⟨_, _, rfl⟩
  · exact .inr (inconsistent_of_soleNumber h)

end

end ExactCalc
