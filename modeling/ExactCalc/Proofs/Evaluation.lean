import ExactCalc.Evaluation
import ExactCalc.Proofs.Acceptance
import ExactCalc.Proofs.NestedRow
import ExactCalc.Proofs.ZeroDivision
/-!
# Evaluation is exact

Folding the row of an accepted text does the operations of its expression, in their order, up to the first division by
zero; without one, the row comes to the exact value of the expression (`Expr.fold_reading`).  So a text that is read is
worth what its tree is worth, and is refused only if the tree divides by zero.
-/
namespace ExactCalc

/-! ## The whole row -/

theorem Folding.andThen_of_some {f : Folding} {p : Problem} (h : f.problem = some p) (next : List Cell → Folding) :
    f.andThen next = f := by
  rw [andThen, h]

theorem Folding.andThen_of_none {f : Folding} (h : f.problem = none) (next : List Cell → Folding) :
    f.andThen next = { next f.cells with events := f.events ++ (next f.cells).events } := by
  rw [andThen, h]

section
variable {positions : List Nat} {done : List Span}

/-- The row of a whole expression; once its own span is folded, a single number is left. -/
def Expr.Whole (positions : List Nat) (done : List Span) (e : Expr) (cells : List Cell) : Prop :=
  if e.span 0 0 ∈ done then (∀ b ∈ e.inner 0 0, b.1 ∈ done) ∧ ∃ v, e.value = some v ∧ HoldsNumber v cells
  else e.Row positions done 0 0 cells

theorem Expr.Whole.fold {e : Expr} {cells : List Cell} (h : e.Whole positions done cells) {b : Span × Expr}
    (hb : b ∈ e.blocks 0 0) (hn : IsNext done b) :
    ∃ c cells', FoldsAs positions b c cells cells' ∧
      (c.zeroDivision? = none → e.Whole positions (b.1 :: done) cells') := by
  unfold Whole at h ⊢
  by_cases hd : e.span 0 0 ∈ done
  · rw [if_pos hd] at h
    rcases List.mem_append.1 hb with hb | hb
    · exact absurd (h.1 b hb) hn.1
    · rw [List.mem_singleton.1 hb] at hn
      exact absurd hd hn.1
  · rw [if_neg hd] at h
    rcases List.mem_append.1 hb with hb | hb
    · obtain ⟨c, cells', hf, hr⟩ := (h.focus b hb hn).foldsIn hn [] [] rfl
      rw [List.nil_append, List.append_nil, List.nil_append, List.append_nil] at hf
      refine ⟨c, cells', hf, fun hz => ?_⟩
      rw [if_neg fun hm => (List.mem_cons.1 hm).elim (fun e => Expr.span_ne_of_mem_inner hb e.symm) hd]
      exact hr hz
    · rw [List.mem_singleton.1 hb] at hn ⊢
      obtain ⟨c, cells', hf, hv⟩ := h.foldsIn_root hn.2 []
      rw [List.nil_append, List.append_nil, List.nil_append, List.append_nil] at hf
      refine ⟨c, cells', hf, fun hz => ?_⟩
      rw [if_pos List.mem_cons_self]
      exact ⟨fun b hb => List.mem_cons_of_mem _ (hn.2 b hb), hv hz⟩

/-- **The folds of a whole row do the operations of its groups**, one group after the other. -/
theorem Expr.Whole.foldSpans {e : Expr} : ∀ {bs : List (Span × Expr)} {done : List Span} {cells : List Cell},
    e.Whole positions done cells → (∀ b ∈ bs, b ∈ e.blocks 0 0) → Ready done bs →
    (foldSpans positions (bs.map Prod.fst) cells).events.filterMap Event.step? = (runGroups (bs.map Prod.snd)).1 ∧
      (foldSpans positions (bs.map Prod.fst) cells).problem =
        (runGroups (bs.map Prod.snd)).2.map .divisionByZero ∧
      ((runGroups (bs.map Prod.snd)).2 = none →
        e.Whole positions ((bs.map Prod.fst).reverse ++ done) (foldSpans positions (bs.map Prod.fst) cells).cells)
  | [],      _,    _,     h, _,  _  => ⟨rfl, rfl, fun _ => h⟩
  | b :: bs, done, cells, h, hb, hr => by
    obtain ⟨c, cells', ⟨hc, hcells, hsteps, hproblem⟩, hw⟩ := h.fold (hb b List.mem_cons_self) hr.1
    rw [List.map_cons, List.map_cons, ExactCalc.foldSpans]
    cases hz : c.zeroDivision? with
    | some i =>
      have hrun : runGroups (b.2 :: bs.map Prod.snd) = (c.steps, some i) := by simp only [runGroups, hc, hz]
      have hp : (foldSpan positions b.1 cells).problem = some (.divisionByZero i) := by
        rw [hproblem, hz, Option.map_some]
      rw [Folding.andThen_of_some hp, hrun]
      exact ⟨hsteps, hp, fun h => by cases h⟩
    | none =>
      have hrun : runGroups (b.2 :: bs.map Prod.snd) =
          (c.steps ++ (runGroups (bs.map Prod.snd)).1, (runGroups (bs.map Prod.snd)).2) := by
        simp only [runGroups, hc, hz]
      have hp : (foldSpan positions b.1 cells).problem = none := by rw [hproblem, hz, Option.map_none]
      obtain ⟨h₁, h₂, h₃⟩ := (hw hz).foldSpans (fun b' hb' => hb b' (List.mem_cons_of_mem b hb')) hr.2
      rw [Folding.andThen_of_none hp, hrun, hcells, List.filterMap_append, hsteps, h₁, List.reverse_cons,
        List.append_assoc, List.singleton_append]
      exact ⟨rfl, h₂, h₃⟩

end

/-! ## Reading and folding -/

theorem liveTokens_replicate (k : Nat) : ∀ (slot : Nat) (cells : List Cell),
    liveTokens slot (List.replicate k none ++ cells) = liveTokens (slot + k) cells := by
  induction k with
  | zero => exact fun _ _ => rfl
  | succ k ih =>
    intro slot cells
    rw [List.replicate_succ, List.cons_append, liveTokens, ih, Nat.add_right_comm, Nat.add_assoc]

theorem soleNumber_of_holdsNumber {positions : List Nat} {v : Rat} {cells : List Cell} (h : HoldsNumber v cells) :
    soleNumber positions cells = .ok v := by
  obtain ⟨k, m, rfl⟩ := h
  have hm := liveTokens_replicate m (0 + k + 1) []
  rw [List.append_nil] at hm
  rw [soleNumber, liveTokens_replicate, liveTokens, hm]
  rfl

theorem Expr.whole_fresh (e : Expr) : e.Whole e.reading.positions [] (e.reading.tokens.map some) := by
  have hcells : e.reading.tokens.map some = freshCells e.lexemes := List.map_map
  rw [Whole, if_neg List.not_mem_nil, hcells]
  exact e.row_fresh (placedAt_map_pos [] e.lexemes)

/-- **Folding the groups of an expression, recorded in any order**, does their operations, deepest groups first; it ends
in the first division by zero of that order, or else in the exact value. -/
theorem Expr.foldTable_of_perm {e : Expr} {bs : List (Span × Expr)} (h : bs.Perm (e.blocks 0 0)) {groups : List Expr}
    (hg : (bs.mergeSort fun a b => a.1.deeper b.1).map Prod.snd = groups) {f : Folded}
    (hf : foldTable e.reading.positions (SpanTable.ofList (bs.map Prod.fst)) (e.reading.tokens.map some) = f) :
    f.steps = (runGroups groups).1 ∧
      ((∃ i, (runGroups groups).2 = some i ∧ f.answer = .error (.divisionByZero i)) ∨
        ∃ v, (runGroups groups).2 = none ∧ e.value = some v ∧ f.answer = .ok v) := by
  have hperm : (bs.mergeSort fun a b => a.1.deeper b.1).Perm (e.blocks 0 0) := (List.mergeSort_perm _ _).trans h
  obtain ⟨hsteps, hproblem, hend⟩ := e.whole_fresh.foldSpans (fun b hb => hperm.mem_iff.1 hb) (Expr.ready_mergeSort h)
  rw [hg, map_fst_mergeSort] at hsteps hproblem hend
  rw [foldTable] at hf
  subst hf
  unfold Folded.steps
  refine ⟨hsteps, ?_⟩
  dsimp only
  rw [hproblem]
  cases hz : (runGroups groups).2 with
  | some i => exact .inl ⟨i, rfl, rfl⟩
  | none =>
    have hroot : e.span 0 0 ∈ (SpanTable.ofList (bs.map Prod.fst)).deepestFirst.reverse ++ [] := by
      rw [List.append_nil, List.mem_reverse, ← map_fst_mergeSort]
      exact List.mem_map_of_mem (hperm.mem_iff.2 (List.mem_append_right _ List.mem_cons_self))
    have h := hend hz
    rw [Whole, if_pos hroot] at h
    obtain ⟨-, v, hv, hn⟩ := h
    exact .inr ⟨v, rfl, hv, soleNumber_of_holdsNumber hn⟩

/-- **Folding what an expression is read into** does its operations in order; it ends in the first division by zero, or
else in the exact value. -/
theorem Expr.fold_reading (e : Expr) :
    e.reading.fold.steps = e.steps ∧
      ((∃ i, e.zeroDivision? = some i ∧ e.reading.fold.answer = .error (.divisionByZero i)) ∨
        ∃ v, e.zeroDivision? = none ∧ e.value = some v ∧ e.reading.fold.answer = .ok v) :=
  foldTable_of_perm (.refl _) e.map_snd_schedule rfl

/-- **A text that is read is worth what its tree is worth.**  It spells one expression.  If no division in the tree of
that expression is by zero, the answer is the exact value, rounded; if one is, however deep and whatever it is
multiplied by, the answer is a division by zero.  There is no third answer. -/
theorem evaluate_of_ofString_eq_ok {text : String} {r : Reading} (h : Reading.ofString text = .ok r) (precision : Nat) :
    ∃ e : Expr, e.Spells text.toList ∧ (∀ e' : Expr, e'.Spells text.toList → e' = e) ∧
      (¬e.tree.DividesByZero →
        ∃ v, e.value = some v ∧ evaluate text precision = .ok (Value.ofRat v (min precision 200))) ∧
      (e.tree.DividesByZero → ∃ i, evaluate text precision = .error (.divisionByZero i)) := by
  obtain ⟨e, he, rfl⟩ := ofChars_eq_ok_iff_spells.1 h
  refine ⟨e, he, fun e' he' => he'.unique he, ?_⟩
  have heval : evaluate text precision = e.reading.fold.answer.map fun v => Value.ofRat v (min precision 200) := by
    simp only [evaluate, exactValue, h]
    cases e.reading.fold.answer <;> rfl
  rw [heval, ← Tree.value_eq_none_iff]
  obtain ⟨-, ⟨i, hz, ha⟩ | ⟨v, -, hv, ha⟩⟩ := e.fold_reading
  · have hv : e.tree.value = none := e.value_eq_none_of_zeroDivision hz
    rw [ha]
    exact ⟨fun hn => absurd hv hn, fun _ => ⟨i, rfl⟩⟩
  · have hn : e.tree.value ≠ none := fun hn => by
      rw [show e.tree.value = some v from hv] at hn
      cases hn
    rw [ha]
    exact ⟨fun _ => ⟨v, hv, rfl⟩, fun h => absurd h hn⟩

theorem evaluate_signed_product :
    (∃ r, Reading.ofString "-2(3-1)/4" = .ok r) ∧
      ∃ e : Expr, e.Spells "-2(3-1)/4".toList ∧ (∀ e' : Expr, e'.Spells "-2(3-1)/4".toList → e' = e) ∧
        (¬e.tree.DividesByZero →
          ∃ v, e.value = some v ∧ evaluate "-2(3-1)/4" 30 = .ok (Value.ofRat v (min 30 200))) ∧
        (e.tree.DividesByZero → ∃ i, evaluate "-2(3-1)/4" 30 = .error (.divisionByZero i)) :=
  ⟨⟨_, rfl⟩, evaluate_of_ofString_eq_ok rfl 30⟩

end ExactCalc
