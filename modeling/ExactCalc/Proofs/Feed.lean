import ExactCalc.Reading
import ExactCalc.Proofs.Numeral
/-!
# The scan of the visible characters

Blanks do not change the state of a scan, and only the last character of a text is told apart from the others.  So a
scan is `feed`, which reads the visible characters with their positions and takes none of them for the last, up to one
difference: an operator at the very end stops `run` and not `feed` (`run_eq_feed`).  Both end without a reading there,
so reading a text is feeding its visible characters (`ofChars_eq_ok_iff`).
-/
namespace ExactCalc

/-! ## Characters and symbols -/

theorem Symbol.isBlank_char : ∀ s : Symbol, isBlank s.char = false
  | digit d => by revert d; decide
  | op o    => by cases o <;> rfl
  | opening => rfl
  | closing => rfl

theorem Symbol.ofChar?_eq_some_iff {c : Char} {s : Symbol} : ofChar? c = some s ↔ c = s.char := by
  constructor
  · intro h
    unfold ofChar? at h
    split at h
    · rename_i hd
      cases h
      exact (digitChar_of_isDigit hd).symm
    · split at h <;> cases h <;> rfl
  · rintro rfl
    exact ofChar?_char s

/-! ## Visible characters with their positions -/

/-- The visible characters of a text whose first position is `i`. -/
def placedFrom (i : Nat) (cs : List Char) : List (Char × Nat) :=
  (cs.zipIdx i).filter fun p => !isBlank p.1

theorem placedFrom_zero (cs : List Char) : placedFrom 0 cs = placed cs := rfl

@[simp] theorem placedFrom_nil (i : Nat) : placedFrom i [] = [] := rfl

theorem placedFrom_cons (i : Nat) (c : Char) (cs : List Char) :
    placedFrom i (c :: cs) = if isBlank c then placedFrom (i + 1) cs else (c, i) :: placedFrom (i + 1) cs := by
  unfold placedFrom
  rw [List.zipIdx_cons, List.filter_cons]
  cases isBlank c <;> rfl

theorem placedFrom_append (i : Nat) (xs ys : List Char) :
    placedFrom i (xs ++ ys) = placedFrom i xs ++ placedFrom (i + xs.length) ys := by
  unfold placedFrom
  rw [List.zipIdx_append, List.filter_append]

theorem placed_append (xs ys : List Char) : placed (xs ++ ys) = placed xs ++ placedFrom xs.length ys := by
  rw [← placedFrom_zero, placedFrom_append, Nat.zero_add, placedFrom_zero]

theorem not_isBlank_of_mem_placed {cs : List Char} {p : Char × Nat} (h : p ∈ placed cs) : isBlank p.1 = false := by
  simpa using (List.mem_filter.1 h).2

theorem mem_placed_iff {cs : List Char} {c : Char} {i : Nat} :
    (c, i) ∈ placed cs ↔ cs[i]? = some c ∧ isBlank c = false := by
  simp [placed, List.mem_zipIdx_iff_getElem?]

namespace Scan

/-! ## Feeding visible characters -/

/-- Reads characters at the given positions, none of them as the last of a text. -/
def feed (s : Scan) : List (Char × Nat) → Except Problem Scan
  | []           => .ok s
  | (c, i) :: xs =>
    match s.step i c false with
    | .error p => .error p
    | .ok s'   => s'.feed xs

theorem feed_append (s : Scan) : ∀ (xs ys : List (Char × Nat)),
    s.feed (xs ++ ys) = match s.feed xs with
      | .error p => .error p
      | .ok s'   => s'.feed ys
  | [],           _  => rfl
  | (c, i) :: xs, ys => by
    rw [List.cons_append, feed, feed]
    cases s.step i c false with
    | error p => rfl
    | ok s'   => exact feed_append s' xs ys

theorem step_of_isBlank {c : Char} (h : isBlank c = true) (s : Scan) (i : Nat) (final : Bool) :
    s.step i c final = .ok s := by
  unfold step
  rw [if_pos h]

theorem step_char (s : Scan) (i : Nat) (final : Bool) (x : Symbol) :
    s.step i x.char final = match x with
      | .digit d => s.digit i d
      | .op o    => s.operator i o final
      | .opening => .ok (s.opening i)
      | .closing => s.closing i := by
  unfold step
  rw [x.isBlank_char, Symbol.ofChar?_char]
  cases x <;> rfl

/-- The last character of a text is read as any other, unless it is an operator that could be read: then it is
refused. -/
theorem step_final (s : Scan) (i : Nat) (c : Char) :
    s.step i c true = s.step i c false ∨
      ∃ o : Op, c = o.symbol ∧ s.step i c false = .ok (s.push (.op o) i) ∧
        s.step i c true = .error (.trailingOperator i) := by
  unfold step
  split
  · exact .inl rfl
  · split
    · exact .inl rfl
    · rename_i o hc
      unfold operator
      split
      · exact .inl rfl
      · exact .inl rfl
      · exact .inl rfl
      · exact .inr ⟨o, Symbol.ofChar?_eq_some_iff.1 hc, rfl, rfl⟩
    · exact .inl rfl
    · exact .inl rfl
    · exact .inl rfl

theorem step_ok_of_final {s s' : Scan} {i : Nat} {c : Char} {final : Bool} (h : s.step i c final = .ok s') :
    s.step i c false = .ok s' := by
  cases final with
  | false => exact h
  | true =>
    rcases s.step_final i c with e | ⟨o, -, -, e⟩
    · rw [← e, h]
    · rw [e] at h
      cases h

/-- **A run is a feed of the visible characters**, unless the text ends in an operator that the feed accepts: the run
refuses it. -/
theorem run_eq_feed : ∀ (cs : List Char) (s : Scan) (i : Nat),
    s.run i cs = s.feed (placedFrom i cs) ∨
      ∃ bs o s', cs = bs ++ [Op.symbol o] ∧ s.feed (placedFrom i cs) = .ok s' ∧
        s'.lexemes.head? = some ⟨.op o, i + bs.length⟩ ∧ s.run i cs = .error (.trailingOperator (i + bs.length))
  | [], _, _ => .inl rfl
  | c :: cs, s, i => by
    -- the rest of the text, from the state after `c`
    have later (s₁ : Scan) (h₁ : s.run i (c :: cs) = s₁.run (i + 1) cs)
        (h₂ : s.feed (placedFrom i (c :: cs)) = s₁.feed (placedFrom (i + 1) cs)) :
        s.run i (c :: cs) = s.feed (placedFrom i (c :: cs)) ∨
          ∃ bs o s', c :: cs = bs ++ [Op.symbol o] ∧ s.feed (placedFrom i (c :: cs)) = .ok s' ∧
            s'.lexemes.head? = some ⟨.op o, i + bs.length⟩ ∧
            s.run i (c :: cs) = .error (.trailingOperator (i + bs.length)) := by
      rw [h₁, h₂]
      rcases run_eq_feed cs s₁ (i + 1) with e | ⟨bs, o, s', rfl, hf, hl, hr⟩
      · exact .inl e
      · rw [Nat.add_right_comm] at hl hr
        exact .inr ⟨c :: bs, o, s', rfl, hf, hl, hr⟩
    by_cases hb : isBlank c = true
    · refine later s ?_ ?_
      · rw [run, step_of_isBlank hb]
      · rw [placedFrom_cons, if_pos hb]
    · have hp : placedFrom i (c :: cs) = (c, i) :: placedFrom (i + 1) cs := by rw [placedFrom_cons, if_neg hb]
      by_cases he : s.step i c cs.isEmpty = s.step i c false
      · cases hs : s.step i c false with
        | error p =>
          left
          rw [run, he, hp, feed, hs]
        | ok s₁ =>
          refine later s₁ ?_ ?_
          · rw [run, he, hs]
          · rw [hp, feed, hs]
      · cases cs with
        | cons c' cs => exact absurd rfl he
        | nil =>
          obtain ⟨o, rfl, h₁, h₂⟩ := (s.step_final i c).resolve_left he
          refine .inr ⟨[], o, s.push (.op o) i, rfl, ?_, rfl, ?_⟩
          · rw [hp, feed, h₁]
            rfl
          · rw [run, List.isEmpty_nil, h₂]
            rfl

theorem finish_of_operator {s : Scan} {o : Op} {p : Nat} (h : s.lexemes.head? = some ⟨.op o, p⟩) (r : Reading) :
    s.finish ≠ .ok r := by
  obtain ⟨ls, hls⟩ := List.head?_eq_some_iff.1 h
  unfold finish
  rw [hls]
  cases s.pending <;> simp

end Scan

/-- **Reading a text is feeding its visible characters** and finishing. -/
theorem ofChars_eq_ok_iff {cs : List Char} {r : Reading} :
    Reading.ofChars cs = .ok r ↔ ∃ s, Scan.feed {} (placed cs) = .ok s ∧ s.finish = .ok r := by
  unfold Reading.ofChars
  rw [← placedFrom_zero]
  rcases Scan.run_eq_feed cs {} 0 with e | ⟨bs, o, s, -, e₁, e₂, e₃⟩
  · rw [e]
    cases Scan.feed {} (placedFrom 0 cs) <;> simp
  · rw [e₁, e₃]
    simp only [reduceCtorEq, Except.ok.injEq, exists_eq_left', false_iff]
    exact Scan.finish_of_operator e₂ r

end ExactCalc
