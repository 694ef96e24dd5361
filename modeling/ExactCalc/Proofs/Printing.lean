import ExactCalc.Proofs.Faithful
import ExactCalc.Proofs.Spacing
import ExactCalc.Proofs.Unplaced
/-!
# Tokens survive printing

The tokens of an accepted text, printed with spaces between them, are read back into the same tokens and the same spans
(`ofString_tokensText`).  The proof prints the expression rather than its tokens: `Expr.printed` writes every `*` that
was implied and every number without leading zeros.  It keeps the rules of the grammar, and it is written with the
characters of the tokens.
-/
namespace ExactCalc

/-! ## Numbers -/

/-- The digit that a character is read as, at position 0. -/
def digitOf? (c : Char) : Option (Fin 10 × Nat) :=
  match Symbol.ofChar? c with
  | some (.digit d) => some (d, 0)
  | _               => none

theorem digitOf?_char (d : Fin 10) : digitOf? (Symbol.digit d).char = some (d, 0) := by
  rw [digitOf?, Symbol.ofChar?_char]

/-- The digits of `n` in the decimal system, all at position 0. -/
def decimalDigits (n : Nat) : List (Fin 10 × Nat) :=
  (Nat.toDigits 10 n).filterMap digitOf?

theorem map_fst_digitRun_decimalDigits (n : Nat) : (digitRun (decimalDigits n)).map Prod.fst = Nat.toDigits 10 n := by
  have hread : ∀ c ∈ Nat.toDigits 10 n, (digitOf? c).map (fun d => (Symbol.digit d.1).char) = some c := fun c hc => by
    have h : (Symbol.digit (Fin.ofNat 10 (c.toNat - '0'.toNat))).char = c :=
      digitChar_of_isDigit (isDigit_of_mem_toDigits hc)
    rw [← h, digitOf?_char, Option.map_some]
  rw [digitRun, decimalDigits, List.map_map, List.map_filterMap]
  exact (List.filterMap_congr hread).trans (List.filterMap_some)

theorem numeral_decimalDigits (n : Nat) : numeral (decimalDigits n) = n := by
  rw [numeral_eq_ofDigitChars, map_fst_digitRun_decimalDigits, Nat.ofDigitChars_ten_toDigits]

theorem decimalDigits_ne_nil (n : Nat) : decimalDigits n ≠ [] := by
  intro h
  have hd := map_fst_digitRun_decimalDigits n
  rw [h] at hd
  exact Nat.toDigits_ne_nil hd.symm

/-- Only 0 is printed with a `0` in front. -/
theorem startsWithZero_decimalDigits {n : Nat} (h : 0 < n) :
    (Operand.number (decimalDigits n)).startsWithZero = false := by
  have hd := map_fst_digitRun_decimalDigits n
  match hds : decimalDigits n with
  | []           => rfl
  | (d, i) :: ds =>
    refine beq_false_of_ne fun hz => head?_toDigits_ne_zero h ?_
    rw [← hd, hds]
    exact congrArg (some ∘ Nat.digitChar) hz

theorem le_foldl_digits : ∀ (ds : List (Fin 10 × Nat)) (n : Nat), n ≤ ds.foldl (fun n d => 10 * n + d.1.val) n
  | [],      n => Nat.le_refl n
  | d :: ds, n => by
    have h := le_foldl_digits ds (10 * n + d.1.val)
    rw [List.foldl_cons]
    omega

theorem numeral_pos {ds : List (Fin 10 × Nat)} (hd : ds ≠ []) (h : (Operand.number ds).startsWithZero = false) :
    0 < numeral ds := by
  match ds, hd, h with
  | (d, i) :: ds, _, h =>
    have hz : d.val ≠ 0 := ne_of_beq_false h
    exact Nat.lt_of_lt_of_le (by omega) (le_foldl_digits ds (10 * 0 + d.val))

/-! ## The expression as it is printed -/

def Sign.printed (s : Sign) : Sign :=
  ⟨s.negative, 0⟩

mutual
def Operand.printed : Operand → Operand
  | .number ds   => .number (decimalDigits (numeral ds))
  | .group _ e _ => .group 0 e.printed 0

/-- An expression with every joint written and every number without leading zeros; all its positions are 0. -/
def Expr.printed : Expr → Expr
  | .mk sign first rest => .mk (sign.map Sign.printed) first.printed rest.printed

def Links.printed : Links → Links
  | .nil         => .nil
  | .cons j o ls => .cons (.written j.op 0) o.printed ls.printed
end

/-! ### It keeps the rules -/

theorem Operand.startsWithZero_printed : ∀ {o : Operand}, o.WellFormed → o.startsWithZero = false →
    o.printed.startsWithZero = false
  | .number _,    hw, h => startsWithZero_decimalDigits (numeral_pos hw h)
  | .group _ _ _, _,  _ => rfl

theorem Joint.joins_printed {j : Joint} {before o : Operand} (h : j.Joins before o) (ho : o.WellFormed) :
    (Joint.written j.op 0).Joins before.printed o.printed := by
  intro hd
  cases j with
  | written x i => exact Operand.startsWithZero_printed ho (h hd)
  | implied     => cases hd

mutual
theorem Operand.wellFormed_printed : ∀ {o : Operand}, o.WellFormed → o.printed.WellFormed
  | .number ds,   _  => decimalDigits_ne_nil (numeral ds)
  | .group _ e _, hw => e.wellFormed_printed hw

theorem Expr.wellFormed_printed : ∀ e : Expr, e.WellFormed → e.printed.WellFormed
  | .mk _ _ _, hw => ⟨Operand.wellFormed_printed hw.1, Links.wellFormed_printed hw.2⟩

theorem Links.wellFormed_printed : ∀ {ls : Links} {before : Operand}, ls.WellFormed before →
    ls.printed.WellFormed before.printed
  | .nil,        _, _            => trivial
  | .cons _ _ _, _, ⟨hj, ho, hs⟩ => ⟨Joint.joins_printed hj ho, Operand.wellFormed_printed ho, Links.wellFormed_printed hs⟩
end

/-! ### It has the same tokens and the same spans -/

theorem Sign.tokens_printed (s : Option Sign) :
    (Sign.lexemes (s.map Sign.printed)).map Lexeme.token = (Sign.lexemes s).map Lexeme.token := by
  cases s <;> rfl

mutual
theorem Operand.tokens_printed : ∀ o : Operand, o.printed.lexemes.map Lexeme.token = o.lexemes.map Lexeme.token
  | .number ds   => by simp [Operand.printed, Operand.lexemes, numeral_decimalDigits]
  | .group i e j => by simp [Operand.printed, Operand.lexemes, e.tokens_printed]

theorem Expr.tokens_printed : ∀ e : Expr, e.printed.lexemes.map Lexeme.token = e.lexemes.map Lexeme.token
  | .mk sign first rest => by
    simp [Expr.printed, Expr.lexemes, Sign.tokens_printed, first.tokens_printed, rest.tokens_printed]

theorem Links.tokens_printed : ∀ ls : Links, ls.printed.lexemes.map Lexeme.token = ls.lexemes.map Lexeme.token
  | .nil         => rfl
  | .cons j o ls => by
    simp [Links.printed, Links.lexemes, Joint.token_lexeme, Joint.op, o.tokens_printed, ls.tokens_printed]
end

theorem Operand.length_lexemes_printed (o : Operand) : o.printed.lexemes.length = o.lexemes.length := by
  simpa using congrArg List.length o.tokens_printed

theorem Expr.span_printed (depth slot : Nat) (e : Expr) : e.printed.span depth slot = e.span depth slot := by
  have h : e.printed.lexemes.length = e.lexemes.length := by simpa using congrArg List.length e.tokens_printed
  rw [Expr.span, Expr.span, h]

mutual
theorem Operand.spans_printed (depth slot : Nat) : ∀ o : Operand,
    (o.printed.blocks depth slot).map Prod.fst = (o.blocks depth slot).map Prod.fst
  | .number _    => rfl
  | .group _ e _ => by
    simp [Operand.printed, Operand.blocks, e.spans_printed, e.span_printed]

theorem Expr.spans_printed (depth slot : Nat) : ∀ e : Expr,
    (e.printed.inner depth slot).map Prod.fst = (e.inner depth slot).map Prod.fst
  | .mk sign first rest => by
    have hs : (Sign.lexemes (sign.map Sign.printed)).length = (Sign.lexemes sign).length := by cases sign <;> rfl
    simp [Expr.printed, Expr.inner, hs, first.spans_printed, first.length_lexemes_printed, rest.spans_printed]

theorem Links.spans_printed (depth slot : Nat) : ∀ ls : Links,
    (ls.printed.blocks depth slot).map Prod.fst = (ls.blocks depth slot).map Prod.fst
  | .nil         => rfl
  | .cons _ o ls => by
    simp [Links.printed, Links.blocks, o.spans_printed, o.length_lexemes_printed, ls.spans_printed]
end

theorem Expr.tokens_reading_printed (e : Expr) : e.printed.reading.tokens = e.reading.tokens :=
  e.tokens_printed

theorem Expr.spans_reading_printed (e : Expr) : e.printed.reading.spans = e.reading.spans := by
  simp [Expr.reading, Expr.blocks, e.spans_printed, e.span_printed]

/-! ### It is written with the characters of its tokens -/

theorem Token.toList_text_num (n : Nat) : (Token.num (n : Rat)).text.toList = Nat.toDigits 10 n :=
  Nat.toList_repr

mutual
theorem Operand.write_printed : ∀ o : Operand,
    o.printed.write.map Prod.fst = (o.lexemes.map Lexeme.token).flatMap fun t => t.text.toList
  | .number ds   => by
    have h : (Operand.number ds).printed.write = digitRun (decimalDigits (numeral ds)) := rfl
    rw [h, map_fst_digitRun_decimalDigits, Operand.lexemes, List.map_singleton, List.flatMap_singleton,
      Token.toList_text_num]
  | .group i e j => by
    simp [Operand.printed, Operand.write, Operand.lexemes, e.write_printed, Token.text]

theorem Expr.write_printed : ∀ e : Expr,
    e.printed.write.map Prod.fst = (e.lexemes.map Lexeme.token).flatMap fun t => t.text.toList
  | .mk none first rest     => by
    simp [Expr.printed, Expr.write, Expr.lexemes, Sign.lexemes, first.write_printed, rest.write_printed]
  | .mk (some s) first rest => by
    have hs : s.printed.char = s.op.symbol := s.symbol_op.symm
    simp [Expr.printed, Expr.write, Expr.lexemes, Sign.lexemes, Sign.write, Token.text, hs, first.write_printed,
      rest.write_printed]

theorem Links.write_printed : ∀ ls : Links,
    ls.printed.write.map Prod.fst = (ls.lexemes.map Lexeme.token).flatMap fun t => t.text.toList
  | .nil         => rfl
  | .cons j o ls => by
    simp [Links.printed, Links.write, Links.lexemes, Joint.write, Joint.token_lexeme, Token.text, o.write_printed,
      ls.write_printed]
end

/-! ## The printed tokens -/

theorem visible_intercalate : ∀ css : List (List Char), visible ([' '].intercalate css) = visible css.flatten
  | []               => rfl
  | [cs]             => by simp
  | cs :: cs' :: css => by
    have hs : visible [' '] = [] := rfl
    rw [List.intercalate_cons_cons, visible_append, visible_append, visible_intercalate (cs' :: css), hs,
      List.append_nil, ← visible_append]
    rfl

theorem visible_tokensText (ts : List Token) :
    visible (tokensText ts).toList = visible (ts.flatMap fun t => t.text.toList) := by
  have hs : " ".toList = [' '] := rfl
  rw [tokensText, cellsText, String.toList_intercalate, hs, visible_intercalate, List.flatMap]
  simp [Function.comp_def]

theorem Expr.visible_write {e : Expr} (he : e.WellFormed) :
    visible (e.write.map Prod.fst) = e.write.map Prod.fst := by
  obtain ⟨_, _, -, hr⟩ := Draft.read_expr [] e he
  refine List.filter_eq_self.2 fun c hc => ?_
  obtain ⟨p, hp, rfl⟩ := List.mem_map.1 hc
  rw [Draft.not_isBlank_of_read hr p hp, Bool.not_false]

/-- The printed tokens of an expression are the expression as it is printed, blanks apart. -/
theorem Expr.visible_tokensText {e : Expr} (he : e.WellFormed) :
    visible (tokensText e.reading.tokens).toList = e.printed.write.map Prod.fst := by
  have h : e.printed.write.map Prod.fst = e.reading.tokens.flatMap fun t => t.text.toList := e.write_printed
  rw [ExactCalc.visible_tokensText, ← h, Expr.visible_write (e.wellFormed_printed he)]

/-- A text that has the characters of an expression, blanks apart, is read into the tokens and the spans of the
expression. -/
theorem Expr.ofString_of_visible {e : Expr} (he : e.WellFormed) {text : String}
    (h : visible text.toList = e.write.map Prod.fst) :
    ∃ r, Reading.ofString text = .ok r ∧ r.tokens = e.reading.tokens ∧ r.spans = e.reading.spans := by
  have hw : Reading.ofPlaced e.write = .ok e.reading := Reading.ofPlaced_eq_ok_iff.2 (Draft.feed_write he)
  obtain ⟨r, hr, ht, hs⟩ := Reading.ofPlaced_of_map_fst (h.symm.trans (map_fst_placed text.toList).symm) hw
  exact ⟨r, ofChars_eq_ok_iff.2 (Reading.ofPlaced_eq_ok_iff.1 hr), ht, hs⟩

/-- **Tokens survive printing.**  The printed tokens of an accepted text are read into the same tokens and spans, and
they are worth what the text is worth: neither writing the implied `*` nor leaving out leading zeros changes a value, or
whether there is one. -/
theorem ofString_tokensText {text : String} {r : Reading} (h : Reading.ofString text = .ok r) :
    ∃ r', Reading.ofString (tokensText r.tokens) = .ok r' ∧ r'.tokens = r.tokens ∧ r'.spans = r.spans ∧
      ∀ precision,
        (∀ v, evaluate (tokensText r.tokens) precision = .ok v ↔ evaluate text precision = .ok v) ∧
        ((∃ i, evaluate (tokensText r.tokens) precision = .error (.divisionByZero i)) ↔
          ∃ i, evaluate text precision = .error (.divisionByZero i)) := by
  obtain ⟨e, ⟨hw, -⟩, rfl⟩ := ofChars_eq_ok_iff_spells.1 h
  obtain ⟨r', h', ht, hs⟩ := Expr.ofString_of_visible (e.wellFormed_printed hw) (Expr.visible_tokensText hw)
  rw [e.tokens_reading_printed] at ht
  rw [e.spans_reading_printed] at hs
  refine ⟨r', h', ht, hs, fun precision => ?_⟩
  have hu := evaluate_unplaced h h' ht hs precision
  constructor
  · intro v
    rw [← mapError_unplaced_eq_ok_iff, hu, mapError_unplaced_eq_ok_iff]
  · rw [← mapError_unplaced_eq_divisionByZero_iff, hu, mapError_unplaced_eq_divisionByZero_iff]

theorem ofString_tokensText_implied :
    ∃ r, Reading.ofString "2(03)/ 5" = .ok r ∧ tokensText r.tokens = "2 * ( 3 ) / 5" ∧
      ∃ r', Reading.ofString (tokensText r.tokens) = .ok r' ∧ r'.tokens = r.tokens ∧ r'.spans = r.spans ∧
        ∀ precision,
          (∀ v, evaluate (tokensText r.tokens) precision = .ok v ↔ evaluate "2(03)/ 5" precision = .ok v) ∧
          ((∃ i, evaluate (tokensText r.tokens) precision = .error (.divisionByZero i)) ↔
            ∃ i, evaluate "2(03)/ 5" precision = .error (.divisionByZero i)) :=
  ⟨_, rfl, by cbv, ofString_tokensText rfl⟩

end ExactCalc
