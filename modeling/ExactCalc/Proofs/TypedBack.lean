import ExactCalc.Proofs.Canonical
import ExactCalc.Proofs.Evaluation
import ExactCalc.Proofs.Printing
/-!
# Results can be typed back

An integer is typed as it is shown; a decimal, which no expression can hold, as the quotient of its mantissa by a power of
ten.  Either text is worth the value itself, at any precision that has room for its digits (`evaluate_typed_back`).
-/
namespace ExactCalc

/-- A text that has the characters of an expression, blanks apart, is worth what the expression is worth. -/
theorem evaluate_of_visible {e : Expr} (he : e.WellFormed) {text : String}
    (h : visible text.toList = e.write.map Prod.fst) {v : Rat} (hv : e.value = some v) (precision : Nat) :
    evaluate text precision = .ok (Value.ofRat v (clampPrecision precision)) := by
  obtain ⟨r, hr, ht, hs⟩ := Expr.ofString_of_visible he h
  have hanswer : e.reading.fold.answer = .ok v := by
    obtain ⟨-, ⟨i, hz, -⟩ | ⟨v', -, hv', ha⟩⟩ := e.fold_reading
    · rw [e.value_eq_none_of_zeroDivision hz] at hv
      cases hv
    · rw [ha, Option.some.inj (hv.symm.trans hv')]
  have hfold : r.fold.answer.mapError Problem.unplaced = e.reading.fold.answer.mapError Problem.unplaced :=
    congrArg Folded.answer (Reading.unplaced_fold ht hs)
  rw [hanswer] at hfold
  rw [evaluate, exactValue, hr]
  dsimp only
  rw [mapError_unplaced_eq_ok_iff.1 hfold]

/-! ## Typed numbers -/

theorem write_decimalDigits (n : Nat) :
    (Operand.number (decimalDigits n)).write.map Prod.fst = Nat.toDigits 10 n :=
  map_fst_digitRun_decimalDigits n

theorem value_decimalDigits (n : Nat) : (Operand.number (decimalDigits n)).tree.value = some (n : Rat) := by
  rw [Operand.tree, Tree.value, numeral_decimalDigits]

/-- The sign that an integer is typed with. -/
def Sign.typed (m : Int) : Option Sign :=
  if m < 0 then some ⟨true, 0⟩ else none

theorem Sign.value_typed (m : Int) :
    (Sign.apply (typed m) (Operand.number (decimalDigits m.natAbs)).tree).value = some (m : Rat) := by
  rw [Sign.value_apply, value_decimalDigits, Option.map_some, Option.some.injEq, Nat.cast_natAbs, typed]
  split
  · rename_i hm
    rw [Sign.number, if_pos rfl, abs_of_neg hm, Int.cast_neg, neg_neg]
  · rename_i hm
    rw [Sign.number, abs_of_nonneg (not_lt.1 hm)]

/-- An expression that starts with an integer. -/
def Expr.typed (m : Int) (rest : Links) : Expr :=
  .mk (Sign.typed m) (.number (decimalDigits m.natAbs)) rest

/-- The operands that divide by `n`. -/
def Links.dividing (n : Nat) : Links :=
  .cons (.written .div 0) (.number (decimalDigits n)) .nil

theorem Expr.write_typed (m : Int) (rest : Links) :
    (typed m rest).write.map Prod.fst = (toString m).toList ++ rest.write.map Prod.fst := by
  rw [typed, write, List.map_append, List.map_append, write_decimalDigits, toList_toString_int, Sign.typed]
  split <;> rfl

theorem Links.write_dividing (n : Nat) : (dividing n).write.map Prod.fst = '/' :: Nat.toDigits 10 n := by
  rw [dividing, write, write, List.append_nil, List.map_append, write_decimalDigits]
  rfl

theorem Expr.wellFormed_typed (m : Int) : (typed m .nil).WellFormed :=
  ⟨decimalDigits_ne_nil m.natAbs, trivial⟩

theorem Expr.wellFormed_typed_dividing (m : Int) {n : Nat} (h : 0 < n) : (typed m (.dividing n)).WellFormed :=
  ⟨decimalDigits_ne_nil m.natAbs, fun _ => startsWithZero_decimalDigits h, decimalDigits_ne_nil n, trivial⟩

theorem Expr.value_typed (m : Int) : (typed m .nil).value = some (m : Rat) :=
  Sign.value_typed m

theorem Expr.value_typed_dividing (m : Int) {n : Nat} (h : 0 < n) :
    (typed m (.dividing n)).value = some ((m : Rat) / n) := by
  have hn : (n : Rat) ≠ 0 := by exact_mod_cast h.ne'
  have htree : (typed m (.dividing n)).tree =
      .node .div (Sign.apply (Sign.typed m) (Operand.number (decimalDigits m.natAbs)).tree)
        (Operand.number (decimalDigits n)).tree := rfl
  rw [value, htree, Tree.value, Sign.value_typed, value_decimalDigits]
  exact if_neg hn

/-! ## Typing a value back -/

theorem evaluate_typed {e : Expr} (he : e.WellFormed) {text : String} (h : text.toList = e.write.map Prod.fst)
    {v : Value} (hv : e.value = some v.toRat) (hc : v.Canonical) {q : Nat} (hq : v.scale ≤ clampPrecision q) :
    evaluate text q = .ok v := by
  rw [evaluate_of_visible he (by rw [h, Expr.visible_write he]) hv, Value.ofRat_toRat hc hq]

theorem canonical_of_evaluate_eq_ok {text : String} {p : Nat} {v : Value} (h : evaluate text p = .ok v) :
    v.Canonical ∧ v.scale ≤ maxPrecision := by
  unfold evaluate at h
  split at h
  · cases h
  · cases h
    obtain ⟨hc, hs⟩ := Value.canonical_ofRat _ (clampPrecision p)
    exact ⟨hc, hs.trans (Nat.min_le_right p maxPrecision)⟩

/-- **Results can be typed back.**  An integer is worth itself as it is shown, at every precision; a decimal is worth
itself as the quotient of its mantissa by its power of ten, at every precision that is at least its scale. -/
theorem evaluate_typed_back {text : String} {p : Nat} {v : Value} (h : evaluate text p = .ok v) :
    (∀ n, v = .integer n → ∀ q, evaluate v.text q = .ok v) ∧
      ∀ m s, v = .decimal m s → ∀ q, s ≤ q →
        evaluate (toString m ++ "/1" ++ String.ofList (List.replicate s '0')) q = .ok v := by
  obtain ⟨hc, hs⟩ := canonical_of_evaluate_eq_ok h
  constructor
  · rintro n rfl q
    have hv : (Expr.typed n .nil).value = some (Value.integer n).toRat := Expr.value_typed n
    refine evaluate_typed (Expr.wellFormed_typed n) ?_ hv hc (Nat.zero_le _)
    rw [Expr.write_typed]
    exact (List.append_nil _).symm
  · rintro m s rfl q hq
    have hpos := tenPow_pos s
    refine evaluate_typed (Expr.wellFormed_typed_dividing m hpos) ?_ ?_ hc (Nat.le_min.2 ⟨hq, hs⟩)
    · rw [Expr.write_typed, Links.write_dividing, toDigits_tenPow]
      simp
    · rw [Expr.value_typed_dividing m hpos, Value.toRat_decimal, cast_tenPow]

theorem evaluate_typed_back_negative :
    (evaluate "(1-3)4" 30 = .ok (.integer (-8)) ∧ evaluate (Value.integer (-8)).text 0 = .ok (.integer (-8))) ∧
      evaluate "-5/(2*4)" 30 = .ok (.decimal (-625) 3) ∧ 3 ≤ 7 ∧
      evaluate (toString (-625 : Int) ++ "/1" ++ String.ofList (List.replicate 3 '0')) 7 = .ok (.decimal (-625) 3) := by
  have hi : evaluate "(1-3)4" 30 = .ok (.integer (-8)) := by decide +kernel
  have hd : evaluate "-5/(2*4)" 30 = .ok (.decimal (-625) 3) := by decide +kernel
  have hback := (evaluate_typed_back hd).2 (-625) 3 rfl 7 (by decide)
  exact ⟨⟨hi, (evaluate_typed_back hi).1 (-8) rfl 0⟩, hd, by decide, hback⟩

end ExactCalc
