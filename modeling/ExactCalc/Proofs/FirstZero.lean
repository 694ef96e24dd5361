import ExactCalc.Proofs.Evaluation
import ExactCalc.Proofs.Faithful
import ExactCalc.Proofs.Tabulation
/-!
# Which division by zero is reported

Several divisions of an expression may be by zero.  The groups are taken deepest first, and by closing parenthesis inside
a depth (`Expr.pairwise_deepestFirst`); the first that divides by zero outside the groups in it decides, by the leftmost
such `/` (`evaluate_reports_first_zeroDivision`).
-/
namespace ExactCalc

/-! ## The groups of a text -/

/-- The order of two spans of a table: the deeper one first, and of one depth the one that is closed first. -/
def Span.Precedes (s t : Span) : Prop :=
  t.depth < s.depth ∨ s.depth = t.depth ∧ s.stop < t.stop

theorem Expr.depth_of_mem_level {e : Expr} {k : Nat} {s : Span} (h : s ∈ e.reading.spans.level k) : s.depth = k := by
  rw [reading, SpanTable.level_ofList] at h
  simpa [eq_comm] using (List.mem_filter.1 h).2

/-- **The groups of an expression are taken deepest first**, and by closing parenthesis inside a depth. -/
theorem Expr.pairwise_deepestFirst (e : Expr) : e.reading.spans.deepestFirst.Pairwise Span.Precedes := by
  have hdepths : (List.range e.reading.spans.levels.length).reverse.Pairwise fun d d' => d' < d := by
    rw [List.pairwise_reverse]
    exact List.pairwise_lt_range
  rw [SpanTable.deepestFirst_eq, List.pairwise_flatMap]
  constructor
  · intro k _
    refine (e.sorted_level k).imp_of_mem fun hs ht hlt => .inr ⟨?_, hlt⟩
    rw [depth_of_mem_level hs, depth_of_mem_level ht]
  · refine hdepths.imp fun hlt s hs t ht => .inl ?_
    rwa [depth_of_mem_level hs, depth_of_mem_level ht]

theorem Expr.map_fst_schedule (e : Expr) : e.schedule.map Prod.fst = e.reading.spans.deepestFirst :=
  map_fst_mergeSort _

/-! ### The tokens of a group -/

/-- The lexemes in the slots of a span, in a row that starts at `slot`, are those of its group. -/
def Fills (slot : Nat) (ls : List Lexeme) (b : Span × Expr) : Prop :=
  ∃ before after, ls = before ++ b.2.lexemes ++ after ∧ slot + before.length = b.1.start

section
variable {b : Span × Expr} {slot : Nat} {ls : List Lexeme}

theorem Fills.own (e : Expr) (depth slot : Nat) : Fills slot e.lexemes (e.span depth slot, e) :=
  ⟨[], [], (List.append_nil _).symm, rfl⟩

theorem Fills.prepend (h : Fills slot ls b) {slot' : Nat} (before : List Lexeme) (hs : slot' + before.length = slot) :
    Fills slot' (before ++ ls) b := by
  obtain ⟨xs, ys, rfl, he⟩ := h
  exact ⟨before ++ xs, ys, by simp only [List.append_assoc], by rw [List.length_append]; omega⟩

theorem Fills.append (h : Fills slot ls b) (after : List Lexeme) : Fills slot (ls ++ after) b := by
  obtain ⟨xs, ys, rfl, he⟩ := h
  exact ⟨xs, ys ++ after, by simp only [List.append_assoc], he⟩

end

mutual
theorem Operand.fills_of_mem_blocks : ∀ {o : Operand} {depth slot : Nat}, ∀ b ∈ o.blocks depth slot,
    Fills slot o.lexemes b
  | .group i e j, depth, slot, b, hb => by
    have he : Fills (slot + 1) e.lexemes b := Expr.forall_mem_blocks e.fills_of_mem_inner (.own ..) b hb
    exact (he.append [⟨.closing, j⟩]).prepend [⟨.opening, i⟩] rfl

theorem Expr.fills_of_mem_inner : ∀ (e : Expr) {depth slot : Nat}, ∀ b ∈ e.inner depth slot, Fills slot e.lexemes b
  | .mk sign first rest, depth, slot, b, hb => by
    rw [Expr.lexemes]
    rcases List.mem_append.1 hb with hb | hb
    · exact ((Operand.fills_of_mem_blocks b hb).prepend _ rfl).append _
    · exact (Links.fills_of_mem_blocks b hb).prepend _ (by rw [List.length_append, Nat.add_assoc])

theorem Links.fills_of_mem_blocks : ∀ {ls : Links} {depth slot : Nat}, ∀ b ∈ ls.blocks depth slot,
    Fills slot ls.lexemes b
  | .cons j o ls, depth, slot, b, hb => by
    have hrest : Fills (slot + 1) (o.lexemes ++ ls.lexemes) b := by
      rcases List.mem_append.1 hb with hb | hb
      · exact (Operand.fills_of_mem_blocks b hb).append _
      · exact (Links.fills_of_mem_blocks b hb).prepend _ rfl
    exact hrest.prepend [j.lexeme o.pos] rfl
end

/-- **The slots of a span hold the tokens of its group.** -/
theorem Expr.lexemes_of_mem_blocks {e : Expr} {b : Span × Expr} (hb : b ∈ e.blocks 0 0) :
    (e.lexemes.drop b.1.start).take (b.1.stop + 1 - b.1.start) = b.2.lexemes := by
  have hspan := (e.nested_blocks b hb).1
  have hlen := b.2.length_lexemes_pos
  have hstop : b.1.stop + 1 - b.1.start = b.2.lexemes.length := by
    rw [← hspan, Expr.span]
    dsimp only
    omega
  obtain ⟨before, after, he, hs⟩ : Fills 0 e.lexemes b := forall_mem_blocks e.fills_of_mem_inner (.own ..) b hb
  rw [hstop, he, ← hs, Nat.zero_add, List.append_assoc, List.drop_left, List.take_left]

/-! ## The leftmost division -/

theorem Expr.Spells.pairwise_write {e : Expr} {cs : List Char} (h : e.Spells cs) :
    e.write.Pairwise fun x y => x.2 < y.2 :=
  h.2 ▸ pairwise_placed cs

/-- The divisions by zero of a group come by position. -/
theorem Expr.pairwise_zeroDivisions {e : Expr} (h : e.write.Pairwise fun x y => x.2 < y.2) :
    e.zeroDivisions.Pairwise (· < ·) := by
  have hp := h.sublist e.sublist_write
  rwa [List.pairwise_map] at hp

theorem le_of_head? {is : List Nat} (h : is.Pairwise (· < ·)) {i : Nat} (hi : is.head? = some i) : ∀ j ∈ is, i ≤ j := by
  obtain ⟨rest, rfl⟩ := List.head?_eq_some_iff.1 hi
  intro j hj
  rcases List.mem_cons.1 hj with rfl | hj
  · exact Nat.le_refl _
  · exact Nat.le_of_lt (List.rel_of_pairwise_cons h hj)

/-- **Which division by zero is reported.**  The spans of an accepted text stand for the groups of its expression, each
for the tokens in its slots, in the order of folding: deepest first, and by closing parenthesis inside a depth.  If the
expression divides by zero anywhere, then some group has a `/` of its own before an operand worth 0, and the leftmost of
the first such group is reported, at every precision. -/
theorem evaluate_reports_first_zeroDivision {text : String} {r : Reading} (h : Reading.ofString text = .ok r) :
    ∃ e : Expr, e.Spells text.toList ∧ (∀ e' : Expr, e'.Spells text.toList → e' = e) ∧
      e.schedule.map Prod.fst = r.spans.deepestFirst ∧ r.spans.deepestFirst.Pairwise Span.Precedes ∧
      (∀ b ∈ e.schedule, (r.lexemes.drop b.1.start).take (b.1.stop + 1 - b.1.start) = b.2.lexemes) ∧
      (e.tree.DividesByZero → ∃ before b after i, e.schedule = before ++ b :: after ∧
        (∀ a ∈ before, a.2.zeroDivisions = []) ∧ i ∈ b.2.zeroDivisions ∧ (∀ j ∈ b.2.zeroDivisions, i ≤ j) ∧
        text.toList[i]? = some '/' ∧ ∀ precision, evaluate text precision = .error (.divisionByZero i)) := by
  obtain ⟨e, he, rfl⟩ := ofChars_eq_ok_iff_spells.1 h
  refine ⟨e, he, fun e' he' => he'.unique he, e.map_fst_schedule, e.pairwise_deepestFirst, ?_, ?_⟩
  · exact fun b hb => Expr.lexemes_of_mem_blocks ((List.mergeSort_perm _ _).mem_iff.1 hb)
  · intro hz
    obtain ⟨-, ⟨i, hi, ha⟩ | ⟨v, -, hv, -⟩⟩ := e.fold_reading
    · obtain ⟨before, b, after, hs, hb, c, hc, hzero⟩ := e.schedule_of_zeroDivision hi
      rw [Expr.zeroDivision?_of_chain hc] at hzero
      have hw := Expr.write_sublist_of_mem_blocks b (Expr.mem_blocks_of_schedule hs)
      have hpw := Expr.pairwise_zeroDivisions (he.pairwise_write.sublist hw)
      have hmem : ('/', i) ∈ placed text.toList := he.2 ▸ e.mem_write_of_zeroDivision hi
      refine ⟨before, b, after, i, hs, hb, List.mem_of_head? hzero, le_of_head? hpw hzero, (mem_placed_iff.1 hmem).1,
        fun precision => ?_⟩
      rw [evaluate, exactValue, h]
      dsimp only
      rw [ha]
    · have hn : e.value = none := Tree.value_eq_none_iff.2 hz
      rw [hn] at hv
      cases hv

theorem evaluate_reports_deeper_zeroDivision :
    ∃ r, Reading.ofString "1/(2-2)+(4/(3-3))" = .ok r ∧
      ∃ e : Expr, e.Spells "1/(2-2)+(4/(3-3))".toList ∧ e.schedule.map Prod.fst = r.spans.deepestFirst ∧
        e.tree.DividesByZero ∧ ∃ before b after i, e.schedule = before ++ b :: after ∧
          (∀ a ∈ before, a.2.zeroDivisions = []) ∧ i ∈ b.2.zeroDivisions ∧ (∀ j ∈ b.2.zeroDivisions, i ≤ j) ∧
          "1/(2-2)+(4/(3-3))".toList[i]? = some '/' ∧
          ∀ precision, evaluate "1/(2-2)+(4/(3-3))" precision = .error (.divisionByZero i) := by
  obtain ⟨r, h, hanswer⟩ : ∃ r, Reading.ofString "1/(2-2)+(4/(3-3))" = .ok r ∧
      r.fold.answer = .error (.divisionByZero 10) := ⟨_, rfl, by decide +kernel⟩
  obtain ⟨e, he, -, hs, -, -, hz⟩ := evaluate_reports_first_zeroDivision h
  have hr : e.reading = r := Except.ok.inj ((ofChars_eq_ok_iff_spells.2 ⟨e, he, rfl⟩).symm.trans h)
  have hd : e.tree.DividesByZero := by
    obtain ⟨-, ⟨i, hi, -⟩ | ⟨v, -, -, ha⟩⟩ := e.fold_reading
    · exact Tree.value_eq_none_iff.1 (e.value_eq_none_of_zeroDivision hi)
    · rw [hr, hanswer] at ha
      cases ha
  exact ⟨r, h, e, he, hs, hd, hz hd⟩

example : evaluate "1/(2-2)+(4/(3-3))" 30 = .error (.divisionByZero 10) := by
  decide +kernel

end ExactCalc
