import ExactCalc.Calculator.Basic
import ExactCalc.Proofs.Evaluation
import ExactCalc.Proofs.Nesting
import ExactCalc.Proofs.Reach
import ExactCalc.Proofs.ScanStep
/-!
# Problems are where they say

The position of a problem is that of a character which accounts for it (`Problem.Located`), whatever the text: for a
parenthesis by the pairs that match in the text, for the others by the visible character before it.  A division by zero
is at a `/` that is written, also when it is noticed only in folding.
-/
namespace ExactCalc

def bracketOf (c : Char) : Bracket :=
  if c = '(' then .opening else if c = ')' then .closing else .plain

def previous (cs : List Char) (i : Nat) : Option Char :=
  (visible (cs.take i)).getLast?

def Matched (cs : List Char) (a b : Nat) : Prop :=
  Bracket.Matching (cs.map bracketOf) a b

/-- **A text accounts for a problem** at the position that the problem names. -/
def Problem.Located (cs : List Char) : Problem → Prop
  | unmatchedParenthesis i =>
    (cs[i]? = some ')' ∧ ∀ a < i, cs[a]? = some '(' → ∃ b < i, Matched cs a b) ∨
      (cs[i]? = some '(' ∧ (∀ b, ¬Matched cs i b) ∧ ∀ a, i < a → cs[a]? = some '(' → ∃ b, Matched cs a b)
  | emptyParentheses i => cs[i]? = some ')' ∧ previous cs i = some '('
  | leadingMultiplicative i =>
    (cs[i]? = some '*' ∨ cs[i]? = some '/') ∧ (previous cs i = some '(' ∨ previous cs i = none)
  | adjacentOperators i => (∃ o : Op, cs[i]? = some o.symbol) ∧ ∃ o : Op, previous cs i = some o.symbol
  | trailingOperator i =>
    (∃ o : Op, cs[i]? = some o.symbol ∧ ∀ c ∈ cs.drop (i + 1), isBlank c = true) ∨
      (cs[i]? = some ')' ∧ ∃ o : Op, previous cs i = some o.symbol)
  | invalidCharacter i c =>
    cs[i]? = some c ∧ isBlank c = false ∧ c.isDigit = false ∧ (∀ o : Op, c ≠ o.symbol) ∧ c ≠ '(' ∧ c ≠ ')'
  | emptyExpression => ∀ c ∈ cs, isBlank c = true
  | divisionByZero i => cs[i]? = some '/'
  | inconsistent _ _ => False

/-! ## The lexeme that the scan looks at -/

/-- The character of a token that is read from a single one. -/
def Token.char? : Token → Option Char
  | num _   => none
  | op o    => some o.symbol
  | opening => some '('
  | closing => some ')'

/-- The last lexeme of a draft, unless it is a number, is its last character. -/
theorem Draft.last_lexeme {d : Draft} (hd : d.WellFormed) :
    (d.scan.lexemes = [] ∧ d.write = []) ∨
      ∃ t p ls, d.scan.lexemes = ⟨t, p⟩ :: ls ∧ ∀ c, t.char? = some c → d.write.getLast? = some (c, p) := by
  obtain ⟨fs, l, last⟩ := d
  obtain ⟨-, hl⟩ := hd
  match last with
  | none =>
    match l, hl, fs with
    | .first none, _, [] => exact .inl ⟨rfl, rfl⟩
    | .first none, _, (l, i) :: fs =>
      refine .inr ⟨_, _, _, lexemes_opened l i fs, ?_⟩
      rintro c ⟨⟩
      simp [write, outerWrite, Lead.write]
    | .first (some s), _, fs =>
      refine .inr ⟨_, _, _, lexemes_signed fs s, ?_⟩
      rintro c ⟨⟩
      simp [write, Lead.write, Sign.write, s.symbol_op]
    | .after l x (.written o q), _, fs =>
      refine .inr ⟨_, _, _, lexemes_joined fs l x o q, ?_⟩
      rintro c ⟨⟩
      simp [write, Lead.write, Joint.write]
  | some (.number ds) =>
    refine .inr ⟨_, _, _, lexemes_number fs l ds, ?_⟩
    rintro c ⟨⟩
  | some (.group a e b) =>
    refine .inr ⟨_, _, _, lexemes_group fs l a b e, ?_⟩
    rintro c ⟨⟩
    have hw : write ⟨fs, l, some (.group a e b)⟩ = outerWrite fs ++ l.write ++ ('(', a) :: e.write ++ [(')', b)] := by
      simp [write, Operand.write]
    rw [hw, List.getLast?_concat]

theorem getLast?_visible (cs : List Char) : (visible cs).getLast? = (placed cs).getLast?.map Prod.fst := by
  rw [← map_fst_placed, List.getLast?_map]

theorem getElem?_of_mem_placed_take {cs : List Char} {i p : Nat} {c : Char} (h : (c, p) ∈ placed (cs.take i)) :
    cs[p]? = some c := by
  have h := (mem_placed_iff.1 h).1
  rw [List.getElem?_take] at h
  split at h
  · exact h
  · cases h

theorem le_of_mem_placedFrom {i : Nat} {cs : List Char} {p : Char × Nat} (h : p ∈ placedFrom i cs) : i ≤ p.2 :=
  List.le_snd_of_mem_zipIdx (List.mem_filter.1 h).1

theorem isBlank_of_placedFrom_eq_nil : ∀ {cs : List Char} {i : Nat}, placedFrom i cs = [] → ∀ c ∈ cs, isBlank c = true
  | d :: cs, i, h, c, hc => by
    rw [placedFrom_cons] at h
    split at h
    · rcases List.mem_cons.1 hc with rfl | hc
      · assumption
      · exact isBlank_of_placedFrom_eq_nil h c hc
    · cases h

theorem placedFrom_eq_nil : ∀ {cs : List Char} (i : Nat), (∀ c ∈ cs, isBlank c = true) → placedFrom i cs = []
  | [],      _, _ => rfl
  | c :: cs, i, h => by
    rw [placedFrom_cons, if_pos (h c List.mem_cons_self)]
    exact placedFrom_eq_nil (i + 1) fun d hd => h d (List.mem_cons_of_mem c hd)

theorem isBlank_after_last {cs : List Char} {c : Char} {p : Nat} (h : (placed cs).getLast? = some (c, p)) :
    ∀ d ∈ cs.drop (p + 1), isBlank d = true := by
  have hp : p < cs.length := by
    have hm := (mem_placed_iff.1 (List.mem_of_getLast? h)).1
    exact (List.getElem?_eq_some_iff.1 hm).1
  rw [← List.take_append_drop (p + 1) cs, placed_append, List.length_take_of_le hp, List.getLast?_append] at h
  cases hl : (placedFrom (p + 1) (cs.drop (p + 1))).getLast? with
  | none => exact isBlank_of_placedFrom_eq_nil (List.getLast?_eq_none_iff.1 hl)
  | some x =>
    rw [hl, Option.some_or] at h
    cases h
    exact absurd (le_of_mem_placedFrom (List.mem_of_getLast? hl)) (Nat.not_succ_le_self p)

namespace Scan

/-- The visible character before a reached state is the one that its last lexeme was read from. -/
theorem Reaches.previous_eq {cs : List Char} {i : Nat} {s : Scan} (h : Reaches cs i s) {t : Token} {p : Nat}
    {ls : List Lexeme} (hs : s.lexemes = ⟨t, p⟩ :: ls) {c : Char} (hc : t.char? = some c) :
    previous cs i = some c ∧ (placed (cs.take i)).getLast? = some (c, p) := by
  obtain ⟨d, hd, rfl, hw⟩ := h.exists_draft
  rcases d.last_lexeme hd with ⟨hn, -⟩ | ⟨t', p', ls', hl, hlast⟩
  · rw [hn] at hs
    cases hs
  · rw [hl] at hs
    cases hs
    have hlast := hlast c hc
    rw [hw] at hlast
    exact ⟨by rw [previous, getLast?_visible, hlast, Option.map_some], hlast⟩

theorem Reaches.placed_eq_nil {cs : List Char} {i : Nat} {s : Scan} (h : Reaches cs i s) (hs : s.lexemes = []) :
    placed (cs.take i) = [] := by
  obtain ⟨d, hd, rfl, hw⟩ := h.exists_draft
  rcases d.last_lexeme hd with ⟨-, hn⟩ | ⟨t', p', ls', hl, -⟩
  · rw [← hw, hn]
  · rw [hl] at hs
    cases hs

/-! ## The parentheses of the text -/

theorem bracketOf_of_isBlank {c : Char} (h : isBlank c = true) : bracketOf c = .plain := by
  unfold bracketOf
  rw [if_neg, if_neg]
  · rintro rfl
    exact absurd h (by decide)
  · rintro rfl
    exact absurd h (by decide)

theorem bracketOf_char : ∀ x : Symbol, bracketOf x.char = match x with
    | .opening => .opening
    | .closing => .closing
    | _        => .plain
  | .digit d => by revert d; decide
  | .op o    => by cases o <;> rfl
  | .opening => rfl
  | .closing => rfl

/-- **The scan walks over the parentheses of the text**, and its stack holds those that are open. -/
theorem Reaches.walk {cs : List Char} {i : Nat} {s : Scan} (h : Reaches cs i s) :
    ∃ qs, Bracket.Walk ((cs.take i).map bracketOf) (s.pending.map Opening.pos) qs := by
  induction h with
  | start => exact ⟨[], .nil⟩
  | @step i s s' c h hc hs ih =>
    obtain ⟨qs, hw⟩ := ih
    have hs := step_ok_of_final hs
    have hi : ((cs.take i).map bracketOf).length = i := by
      rw [List.length_map, List.length_take_of_le (Nat.le_of_lt (List.getElem?_eq_some_iff.1 hc).1)]
    have ht : (cs.take (i + 1)).map bracketOf = (cs.take i).map bracketOf ++ [bracketOf c] := by
      rw [List.take_add_one, hc, List.map_append]
      rfl
    rw [ht]
    by_cases hb : isBlank c = true
    · rw [step_of_isBlank hb] at hs
      cases hs
      rw [bracketOf_of_isBlank hb]
      exact ⟨qs, hw.plain⟩
    · cases hx : Symbol.ofChar? c with
      | none => simp [Scan.step, hb, hx] at hs
      | some x =>
        obtain rfl := Symbol.ofChar?_eq_some_iff.1 hx
        rw [step_char] at hs
        rw [bracketOf_char]
        cases x with
        | digit d =>
          rw [pending_digit hs]
          exact ⟨qs, hw.plain⟩
        | op o =>
          rw [pending_operator hs]
          exact ⟨qs, hw.plain⟩
        | opening =>
          cases hs
          obtain ⟨o, ho, hp⟩ := s.pending_opening i
          have hw := hw.opening
          rw [hi] at hw
          rw [hp, List.map_cons, ho]
          exact ⟨qs, hw⟩
        | closing =>
          obtain ⟨o, hp⟩ := pending_closing hs
          rw [hp, List.map_cons] at hw
          exact ⟨_, hw.closing⟩

theorem eq_of_bracketOf_opening {c : Char} (h : bracketOf c = .opening) : c = '(' := by
  unfold bracketOf at h
  split at h
  · assumption
  · split at h <;> cases h

/-- What the stack holds are opening parentheses of the text. -/
theorem Reaches.getElem?_pending {cs : List Char} {i : Nat} {s : Scan} (h : Reaches cs i s) {o : Opening}
    (ho : o ∈ s.pending) : cs[o.pos]? = some '(' := by
  obtain ⟨qs, hw⟩ := h.walk
  obtain ⟨d, hopen⟩ := hw.stack.exists_open o.pos (List.mem_map_of_mem ho)
  have hb := hopen.opens
  rw [List.getElem?_map, Option.map_eq_some_iff] at hb
  obtain ⟨c, hc, hb⟩ := hb
  rw [eq_of_bracketOf_opening hb, List.getElem?_take] at hc
  split at hc
  · exact hc
  · cases hc

/-! ## The problems of a scan -/

section
variable {cs : List Char} {i : Nat} {s : Scan}

/-- A closing parenthesis that finds the stack empty comes after pairs alone. -/
theorem Reaches.located_unmatched_closing (h : Reaches cs i s) (hc : cs[i]? = some ')') (hp : s.pending = []) :
    (Problem.unmatchedParenthesis i).Located cs := by
  refine .inl ⟨hc, fun a ha hca => ?_⟩
  obtain ⟨qs, hw⟩ := h.walk
  rw [hp] at hw
  have hb : ((cs.take i).map bracketOf)[a]? = some .opening := by
    rw [List.getElem?_map, List.getElem?_take, if_pos ha, hca]
    rfl
  rcases hw.open_or_closed hb with hm | ⟨q, hq, rfl⟩
  · cases hm
  · have hm := (hw.matching q hq).1
    have hlt := (List.getElem?_eq_some_iff.1 hm.closes).1
    rw [List.length_map] at hlt
    refine ⟨q.right, Nat.lt_of_lt_of_le hlt (List.length_take_le i cs), ?_⟩
    have hm := hm.append ((cs.drop i).map bracketOf)
    rwa [← List.map_append, List.take_append_drop] at hm

/-- At the end of a text, the innermost parenthesis on the stack is the last one that is never closed. -/
theorem Reaches.located_unmatched_opening (h : Reaches cs cs.length s) {o : Opening} {os : List Opening}
    (hp : s.pending = o :: os) : (Problem.unmatchedParenthesis o.pos).Located cs := by
  obtain ⟨qs, hw⟩ := h.walk
  rw [hp, List.map_cons, List.take_length] at hw
  obtain ⟨-, hlt, -⟩ := hw.stack
  have ho : o ∈ s.pending := by
    rw [hp]
    exact List.mem_cons_self
  refine .inr ⟨h.getElem?_pending ho, hw.not_matching_of_mem List.mem_cons_self, fun a ha hca => ?_⟩
  have hb : (cs.map bracketOf)[a]? = some .opening := by
    rw [List.getElem?_map, hca]
    rfl
  rcases hw.open_or_closed hb with hm | ⟨q, hq, rfl⟩
  · rcases List.mem_cons.1 hm with rfl | hm
    · exact absurd ha (Nat.lt_irrefl _)
    · exact absurd (hlt a hm) (Nat.lt_asymm ha)
  · exact ⟨q.right, (hw.matching q hq).1⟩

theorem Reaches.located_step (h : Reaches cs i s) {c : Char} {p : Problem} (hc : cs[i]? = some c)
    (hs : s.step i c (decide (i + 1 = cs.length)) = .error p) : p.Located cs := by
  by_cases hb : isBlank c = true
  · rw [step_of_isBlank hb] at hs
    cases hs
  cases hx : Symbol.ofChar? c with
  | none =>
    simp only [Scan.step, hb, hx, Bool.false_eq_true, ↓reduceIte] at hs
    cases hs
    have hne (x : Symbol) : c ≠ x.char := fun e => by
      rw [e, Symbol.ofChar?_char] at hx
      cases hx
    refine ⟨hc, by simpa using hb, ?_, fun o => hne (.op o), hne .opening, hne .closing⟩
    cases hd : c.isDigit with
    | false => rfl
    | true  => exact absurd (digitChar_of_isDigit hd).symm (hne (.digit _))
  | some x =>
    obtain rfl := Symbol.ofChar?_eq_some_iff.1 hx
    rw [step_char] at hs
    cases x with
    | digit d =>
      obtain ⟨q, ls, hl, -, rfl⟩ := digit_eq_error hs
      exact getElem?_of_mem_placed_take (List.mem_of_getLast? (h.previous_eq hl rfl).2)
    | opening => cases hs
    | op o =>
      rcases operator_eq_error hs with ⟨x, q, ls, hl, rfl⟩ | ⟨ho, hl, rfl⟩ | ⟨hf, rfl⟩
      · exact ⟨⟨o, hc⟩, x, (h.previous_eq hl rfl).1⟩
      · refine ⟨?_, ?_⟩
        · cases o with
          | add | sub => cases ho
          | mul       => exact .inl hc
          | div       => exact .inr hc
        · rcases hl with hl | ⟨q, ls, hl⟩
          · right
            rw [previous, getLast?_visible, h.placed_eq_nil hl]
            rfl
          · exact .inl (h.previous_eq hl rfl).1
      · refine .inl ⟨o, hc, ?_⟩
        rw [of_decide_eq_true hf, List.drop_length]
        exact fun _ h => (List.not_mem_nil h).elim
    | closing =>
      rcases closing_eq_error hs with ⟨hp, rfl⟩ | ⟨q, ls, hl, rfl⟩ | ⟨x, q, ls, hl, rfl⟩
      · exact h.located_unmatched_closing hc hp
      · exact ⟨hc, (h.previous_eq hl rfl).1⟩
      · exact .inr ⟨hc, x, (h.previous_eq hl rfl).1⟩

theorem Reaches.located_finish (h : Reaches cs cs.length s) {p : Problem} (hs : s.finish = .error p) :
    p.Located cs := by
  rcases finish_eq_error hs with ⟨hl, rfl⟩ | ⟨o, os, hp, rfl⟩ | ⟨x, q, ls, hl, rfl⟩
  · have hn := h.placed_eq_nil hl
    rw [List.take_length] at hn
    exact isBlank_of_placedFrom_eq_nil (i := 0) hn
  · exact h.located_unmatched_opening hp
  · have hlast := (h.previous_eq hl rfl).2
    rw [List.take_length] at hlast
    exact .inl ⟨x, (mem_placed_iff.1 (List.mem_of_getLast? hlast)).1, isBlank_after_last hlast⟩

end

end Scan

theorem located_of_ofChars {cs : List Char} {p : Problem} (h : Reading.ofChars cs = .error p) : p.Located cs := by
  rcases Scan.exists_reaches_of_error h with ⟨i, s, c, hr, hc, hs⟩ | ⟨s, hr, hs⟩
  · exact hr.located_step hc hs
  · exact hr.located_finish hs

/-! ## Every problem of an evaluation -/

theorem evaluate_eq_error_iff {text : String} {precision : Nat} {p : Problem} :
    evaluate text precision = .error p ↔
      Reading.ofChars text.toList = .error p ∨
        ∃ e : Expr, e.Spells text.toList ∧ ∃ i, e.zeroDivision? = some i ∧ p = .divisionByZero i := by
  unfold evaluate exactValue Reading.ofString
  cases hr : Reading.ofChars text.toList with
  | error q =>
    have hn : ¬∃ e : Expr, e.Spells text.toList ∧ ∃ i, e.zeroDivision? = some i ∧ p = .divisionByZero i := by
      rintro ⟨e, he, -⟩
      rw [ofChars_eq_ok_iff_spells.2 ⟨e, he, rfl⟩] at hr
      cases hr
    simp [hn]
  | ok r =>
    obtain ⟨e, he, rfl⟩ := ofChars_eq_ok_iff_spells.1 hr
    simp only [reduceCtorEq, false_or]
    obtain ⟨-, ⟨i, hz, ha⟩ | ⟨v, hz, -, ha⟩⟩ := e.fold_reading
    · rw [ha]
      constructor
      · intro h
        cases h
        exact ⟨e, he, i, hz, rfl⟩
      · rintro ⟨e', he', k, hk, rfl⟩
        rw [he'.unique he, hz] at hk
        cases hk
        rfl
    · rw [ha]
      constructor
      · intro h
        cases h
      · rintro ⟨e', he', k, hk, -⟩
        rw [he'.unique he, hz] at hk
        cases hk

theorem Problem.Located.lt_length {cs : List Char} {p : Problem} (h : p.Located cs) :
    ∀ i, p.position? = some i → i < cs.length := by
  have hlt {i : Nat} {c : Char} (h : cs[i]? = some c) : i < cs.length := (List.getElem?_eq_some_iff.1 h).1
  intro i hi
  cases p with
  | unmatchedParenthesis k =>
    cases hi
    exact h.elim (fun h => hlt h.1) fun h => hlt h.1
  | emptyParentheses k =>
    cases hi
    exact hlt h.1
  | leadingMultiplicative k =>
    cases hi
    exact h.1.elim hlt hlt
  | adjacentOperators k =>
    cases hi
    obtain ⟨⟨o, ho⟩, -⟩ := h
    exact hlt ho
  | trailingOperator k =>
    cases hi
    rcases h with ⟨o, ho, -⟩ | ⟨hc, -⟩
    · exact hlt ho
    · exact hlt hc
  | invalidCharacter k c =>
    cases hi
    exact hlt h.1
  | emptyExpression => cases hi
  | divisionByZero k =>
    cases hi
    exact hlt h
  | inconsistent k cause => exact h.elim

theorem ofChars_of_blank {cs : List Char} (h : ∀ c ∈ cs, isBlank c = true) :
    Reading.ofChars cs = .error .emptyExpression := by
  have hp : placedFrom 0 cs = [] := placedFrom_eq_nil 0 h
  unfold Reading.ofChars
  rcases Scan.run_eq_feed cs {} 0 with e | ⟨bs, o, s, -, e, hl, -⟩
  · rw [e, hp]
    rfl
  · rw [hp] at e
    cases e
    cases hl

/-- **Every problem of an evaluation is where it says**: its position is one of the text, the text accounts for it, and
the window puts its caret there.  The expression is empty exactly if no character is visible. -/
theorem evaluate_error_located (text : String) (precision : Nat) :
    (∀ p, evaluate text precision = .error p →
      p.Located text.toList ∧ (∀ i, p.position? = some i → i < text.length) ∧
        ∀ c : Calculator, c.entry.text = text → c.precision = precision →
          c.evaluateEntry.error = Calculator.problemText c.entry p) ∧
      (evaluate text precision = .error .emptyExpression ↔ ∀ c ∈ text.toList, isBlank c = true) := by
  have hloc {p : Problem} (h : evaluate text precision = .error p) : p.Located text.toList := by
    rcases evaluate_eq_error_iff.1 h with h | ⟨e, he, i, hz, rfl⟩
    · exact located_of_ofChars h
    · have hw := Expr.mem_write_of_zeroDivision hz
      rw [he.2] at hw
      exact (mem_placed_iff.1 hw).1
  refine ⟨fun p h => ⟨hloc h, ?_, ?_⟩, fun h => hloc h, fun hb => evaluate_eq_error_iff.2 (.inl (ofChars_of_blank hb))⟩
  · rw [← String.length_toList]
    exact (hloc h).lt_length
  · rintro c rfl rfl
    rw [evaluate_eq_explain] at h
    unfold Calculator.evaluateEntry
    cases hx : explain c.entry.text c.precision with
    | error q =>
      rw [hx] at h
      cases h
      rfl
    | ok v =>
      rw [hx] at h
      cases h

theorem evaluate_nested_zero_located :
    evaluate "1 + 2/(3-3)" 30 = .error (.divisionByZero 5) ∧
      (Problem.divisionByZero 5).Located "1 + 2/(3-3)".toList ∧
      ∀ i, (Problem.divisionByZero 5).position? = some i → i < "1 + 2/(3-3)".length := by
  have h : evaluate "1 + 2/(3-3)" 30 = .error (.divisionByZero 5) := by cbv
  obtain ⟨h₁, h₂, -⟩ := (evaluate_error_located "1 + 2/(3-3)" 30).1 _ h
  exact ⟨h, h₁, h₂⟩

end ExactCalc
