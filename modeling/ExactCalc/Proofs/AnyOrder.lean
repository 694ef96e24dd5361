import ExactCalc.Proofs.Trace
/-!
# Groups in any order

The order in which the spans of a text are recorded decides only which of two groups of one depth comes first.  Neither
reads or writes a cell of the other, so with the spans recorded in any other order the row comes to the same number by
the same folds in another order, or to a division by zero as before, perhaps to another one
(`foldTable_of_perm_deepestFirst`).
-/
namespace ExactCalc

/-! ## The lines of a trace -/

theorem newline_notMem_toString_int (i : Int) : '\n' ∉ (toString i).toList :=
  notMem_toString_int rfl (by decide) i

theorem newline_notMem_fractionText (r : Rat) : '\n' ∉ (fractionText r).toList := by
  unfold fractionText
  split
  · exact newline_notMem_toString_int r.num
  · simp only [String.toList_append, List.mem_append, not_or]
    exact ⟨⟨newline_notMem_toString_int r.num, by decide⟩, newline_notMem_toString_int r.den⟩

theorem Step.newline_notMem_text (s : Step) : '\n' ∉ s.text.toList := by
  have hop : '\n' ∉ s.op.symbol.toString.toList := by cases s.op <;> decide
  simp only [text, String.toList_append, List.mem_append, not_or]
  exact ⟨⟨⟨⟨⟨⟨newline_notMem_fractionText _, by decide⟩, hop⟩, by decide⟩, newline_notMem_fractionText _⟩, by decide⟩,
    newline_notMem_fractionText _⟩

/-- The lines of a text; an empty text has one, which is empty. -/
def lines (text : String) : List (List Char) :=
  text.toList.splitOn '\n'

/-- A trace is cut at the ends of its lines and nowhere else. -/
theorem Folded.lines_trace (f : Folded) (h : f.steps ≠ []) :
    lines (f.trace "") = f.steps.map fun s => s.text.toList := by
  have hnl : ∀ l ∈ f.steps.map fun s => s.text.toList, '\n' ∉ l := by
    intro l hl
    obtain ⟨s, -, rfl⟩ := List.mem_map.1 hl
    exact s.newline_notMem_text
  have hls : f.steps.map (fun s => s.text.toList) ≠ [] := fun hn => h (List.map_eq_nil_iff.1 hn)
  have hjoin : (f.trace "").toList = ['\n'].intercalate (f.steps.map fun s => s.text.toList) := by
    rw [f.trace_empty, String.toList_intercalate, List.map_map]
    rfl
  rw [lines, hjoin, List.splitOn_intercalate '\n' hnl hls]

/-- Folds in another order have the same lines in another order. -/
theorem Folded.lines_trace_perm {f g : Folded} (h : f.steps.Perm g.steps) :
    (lines (f.trace "")).Perm (lines (g.trace "")) := by
  by_cases hg : g.steps = []
  · have hf : f.steps = [] := (hg ▸ h).eq_nil
    rw [f.trace_empty, g.trace_empty, hf, hg]
  · have hf : f.steps ≠ [] := fun hf => hg (hf ▸ h).symm.eq_nil
    rw [f.lines_trace hf, g.lines_trace hg]
    exact h.map _

/-! ## The spans in another order -/

/-- Spans in another order are those of the same groups in another order. -/
theorem Expr.exists_blocks_of_perm {e : Expr} {spans : List Span} (h : spans.Perm e.reading.spans.deepestFirst) :
    ∃ bs : List (Span × Expr), bs.Perm (e.blocks 0 0) ∧ bs.map Prod.fst = spans := by
  have hsorted : e.reading.spans.deepestFirst.Perm ((e.blocks 0 0).map Prod.fst) := by
    rw [show e.reading.spans = SpanTable.ofList ((e.blocks 0 0).map Prod.fst) from rfl, SpanTable.deepestFirst_ofList]
    exact List.mergeSort_perm _ _
  have hown : List.Forall₂ (fun s b => s = b.1) ((e.blocks 0 0).map Prod.fst) (e.blocks 0 0) :=
    List.forall₂_map_left_iff.2 (List.forall₂_same.2 fun _ _ => rfl)
  obtain ⟨bs, hbs, hperm⟩ := List.perm_comp_forall₂ (h.trans hsorted) hown
  refine ⟨bs, hperm, ?_⟩
  have hfst : List.Forall₂ (fun s t => s = t) spans (bs.map Prod.fst) := List.forall₂_map_right_iff.2 hbs
  exact (List.forall₂_eq_eq_eq ▸ hfst : spans = bs.map Prod.fst).symm

/-- **What the groups of an expression fold to does not depend on their order.**  It has a value, which they fold to by
its operations, or it divides by zero. -/
theorem Expr.foldTable_blocks {e : Expr} {bs : List (Span × Expr)} (h : bs.Perm (e.blocks 0 0)) {f : Folded}
    (hf : foldTable e.reading.positions (SpanTable.ofList (bs.map Prod.fst)) (e.reading.tokens.map some) = f) :
    (∃ v, e.value = some v ∧ f.answer = .ok v ∧ f.steps.Perm (e.operations.filterMap Tree.step?)) ∨
      e.value = none ∧ ∃ i, f.answer = .error (.divisionByZero i) := by
  have hperm : (bs.mergeSort fun a b => a.1.deeper b.1).Perm e.schedule :=
    ((List.mergeSort_perm _ _).trans h).trans (List.mergeSort_perm _ _).symm
  have hgroups : ((bs.mergeSort fun a b => a.1.deeper b.1).map Prod.snd).Perm e.orderedGroups := by
    rw [← e.map_snd_schedule]
    exact hperm.map Prod.snd
  have hvalues (hne : e.value ≠ none) :
      ∀ g ∈ (bs.mergeSort fun a b => a.1.deeper b.1).map Prod.snd, g.value ≠ none :=
    fun g hg hn => hne (value_eq_none_of_mem_orderedGroups (hgroups.mem_iff.1 hg) hn)
  obtain ⟨hsteps, ⟨i, hz, ha⟩ | ⟨v, -, hv, ha⟩⟩ := Expr.foldTable_of_perm h rfl hf
  · refine .inr ⟨?_, i, ha⟩
    -- if every group had a value, none would divide by zero
    by_contra hne
    rw [(runGroups_of_values (hvalues hne)).1] at hz
    cases hz
  · have hne : e.value ≠ none := by simp [hv]
    refine .inl ⟨v, hv, ha, ?_⟩
    rw [hsteps, (runGroups_of_values (hvalues hne)).2.eq_filterMap]
    exact (hgroups.flatMap_right _).filterMap _

/-- **The spans of an accepted text may be recorded in any order.**  Either the row comes to the same number with both
tables, by the same folds and with the same lines in its trace, each in some order, or both meet a division by zero. -/
theorem foldTable_of_perm_deepestFirst {text : String} {r : Reading} (h : Reading.ofString text = .ok r)
    {spans : List Span} (hp : spans.Perm r.spans.deepestFirst) :
    let permuted := foldTable r.positions (SpanTable.ofList spans) (r.tokens.map some)
    (∃ v, r.fold.answer = .ok v ∧ permuted.answer = .ok v ∧ permuted.steps.Perm r.fold.steps ∧
        (lines (permuted.trace "")).Perm (lines (r.fold.trace ""))) ∨
      (∃ i, r.fold.answer = .error (.divisionByZero i)) ∧ ∃ j, permuted.answer = .error (.divisionByZero j) := by
  intro permuted
  obtain ⟨e, -, rfl⟩ := ofChars_eq_ok_iff_spells.1 h
  obtain ⟨bs, hbs, rfl⟩ := Expr.exists_blocks_of_perm hp
  have hfold : foldTable e.reading.positions (SpanTable.ofList ((e.blocks 0 0).map Prod.fst))
      (e.reading.tokens.map some) = e.reading.fold := rfl
  rcases Expr.foldTable_blocks (.refl _) hfold with ⟨v, hv, ha, hs⟩ | ⟨hv, i, ha⟩
  · rcases Expr.foldTable_blocks hbs rfl with ⟨v', hv', ha', hs'⟩ | ⟨hv', -⟩
    · obtain rfl : v = v' := Option.some.inj (hv.symm.trans hv')
      have hsteps : permuted.steps.Perm e.reading.fold.steps := hs'.trans hs.symm
      exact .inl ⟨v, ha, ha', hsteps, Folded.lines_trace_perm hsteps⟩
    · rw [hv] at hv'
      cases hv'
  · rcases Expr.foldTable_blocks hbs rfl with ⟨v', hv', -⟩ | ⟨-, j, ha'⟩
    · rw [hv] at hv'
      cases hv'
    · exact .inr ⟨⟨i, ha⟩, j, ha'⟩

theorem foldTable_root_recorded_first :
    ∃ r, Reading.ofString "(1+2)*(3-4)" = .ok r ∧
      [Span.mk 0 0 10, Span.mk 1 7 9, Span.mk 1 1 3].Perm r.spans.deepestFirst ∧
      let permuted := foldTable r.positions (SpanTable.ofList [Span.mk 0 0 10, Span.mk 1 7 9, Span.mk 1 1 3])
        (r.tokens.map some)
      (∃ v, r.fold.answer = .ok v ∧ permuted.answer = .ok v ∧ permuted.steps.Perm r.fold.steps ∧
          (lines (permuted.trace "")).Perm (lines (r.fold.trace ""))) ∨
        (∃ i, r.fold.answer = .error (.divisionByZero i)) ∧ ∃ j, permuted.answer = .error (.divisionByZero j) := by
  obtain ⟨r, h, hs⟩ : ∃ r, Reading.ofString "(1+2)*(3-4)" = .ok r ∧
      r.spans.deepestFirst = [Span.mk 1 1 3, Span.mk 1 7 9, Span.mk 0 0 10] := ⟨_, rfl, rfl⟩
  have hp : [Span.mk 0 0 10, Span.mk 1 7 9, Span.mk 1 1 3].Perm r.spans.deepestFirst := by
    rw [hs]
    decide
  exact ⟨r, h, hp, foldTable_of_perm_deepestFirst h hp⟩

end ExactCalc
