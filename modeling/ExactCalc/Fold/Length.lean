import ExactCalc.Fold.Row
/-!
# The row keeps its length

Every part of folding returns as many cells as it was given (`length_foldTable` for the whole), also where it stops at a
problem; so a slot of the row before is a slot of the row after.
-/
namespace ExactCalc

theorem length_sweep (positions : List Nat) (m : Bool) : ∀ (n : Nat) (left right : List Cell),
    (sweep positions m n left right).cells.length = left.length + right.length
  | 0,     left, right      => by simp [sweep]
  | n + 1, left, []         => by simp [sweep]
  | n + 1, left, c :: right => by
    unfold sweep
    split
    · rw [length_sweep positions m n, List.length_cons, List.length_cons]
      omega
    · split
      · simp
      · rename_i h
        obtain ⟨-, h₁, h₂, -⟩ := foldOperator_eq_ok_iff.1 h
        have := length_of_takeNearest h₁
        have := length_of_takeNearest h₂
        simp only [length_sweep positions m n, List.length_cons]
        omega

theorem length_pass (positions : List Nat) (m : Bool) (start stop : Nat) (cells : List Cell) :
    (pass positions m start stop cells).cells.length = cells.length := by
  rw [pass, length_sweep, List.length_reverse, ← List.length_append, List.take_append_drop]

theorem length_andThen {f : Folding} {next : List Cell → Folding}
    (h : ∀ cells, (next cells).cells.length = cells.length) :
    (f.andThen next).cells.length = f.cells.length := by
  unfold Folding.andThen
  split
  · rfl
  · exact h f.cells

theorem length_passes (positions : List Nat) (start stop : Nat) (cells : List Cell) :
    (passes positions start stop cells).cells.length = cells.length := by
  rw [passes, length_andThen (length_pass positions false start stop), length_pass]

theorem length_of_negateFirst : ∀ {n k : Nat} {cells cells' : List Cell},
    negateFirst n cells = .ok (k, cells') → cells'.length = cells.length := by
  intro n k cells cells' h
  fun_induction negateFirst n cells generalizing k cells' with
  | case1 => cases h; rfl
  | case2 n cells k₀ c₀ h₀ ih => cases h; simp [ih h₀]
  | case3 => cases h
  | case4 => cases h

theorem length_foldSigned (positions : List Nat) (start stop : Nat) (cells : List Cell) :
    (foldSigned positions start stop cells).cells.length = cells.length := by
  have e := congrArg List.length (List.take_append_drop start cells)
  rw [List.length_append] at e
  unfold foldSigned
  split
  · rename_i after h
    rw [h, List.length_cons] at e
    rw [length_passes, List.length_append, List.length_cons, e]
  · rename_i after h
    rw [h, List.length_cons] at e
    split
    · rename_i h'
      rw [length_passes, List.length_append, List.length_cons, length_of_negateFirst h', e]
    · rw [List.length_append, List.length_cons, e]
  · rw [length_passes]

theorem length_spendParentheses (s : Span) (cells : List Cell) : (spendParentheses s cells).length = cells.length := by
  unfold spendParentheses
  split <;> simp

theorem length_foldSpan (positions : List Nat) (s : Span) (cells : List Cell) :
    (foldSpan positions s cells).cells.length = cells.length := by
  unfold foldSpan
  split
  · rw [length_foldSigned, length_spendParentheses]
  · rfl

theorem length_foldSpans (positions : List Nat) : ∀ (spans : List Span) (cells : List Cell),
    (foldSpans positions spans cells).cells.length = cells.length
  | [],         _     => rfl
  | s :: spans, cells => by
    rw [foldSpans, length_andThen (length_foldSpans positions spans), length_foldSpan]

/-- **Folding never adds or removes a slot**, whatever the table, and also where it stops at a problem. -/
theorem length_foldTable (positions : List Nat) (spans : SpanTable) (cells : List Cell) :
    (foldTable positions spans cells).cells.length = cells.length :=
  length_foldSpans positions spans.deepestFirst cells

end ExactCalc
