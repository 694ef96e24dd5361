import Mathlib
import ExactCalc.Reading
/-!
# What a step of the scan can do

For each kind of symbol, what becomes of the stack of open parentheses, and the problems that can come up, each with the
state that leads to it.
-/
namespace ExactCalc
namespace Scan

/-! ## The stack -/

theorem pending_digit {s s' : Scan} {i : Nat} {d : Fin 10} (h : s.digit i d = .ok s') : s'.pending = s.pending := by
  unfold digit at h
  split at h
  · cases h
    rfl
  · split at h
    · cases h
    · cases h
      rfl
  · cases h
    rfl
  · cases h
    rfl

theorem pending_operator {s s' : Scan} {i : Nat} {o : Op} {final : Bool} (h : s.operator i o final = .ok s') :
    s'.pending = s.pending := by
  unfold operator at h
  split at h
  · cases h
  · cases h
  · cases h
  · split at h
    · cases h
    · cases h
      rfl

theorem pending_opening (s : Scan) (i : Nat) : ∃ o, o.pos = i ∧ (s.opening i).pending = o :: s.pending := by
  unfold opening
  split <;> exact ⟨_, rfl, rfl⟩

theorem pending_closing {s s' : Scan} {i : Nat} (h : s.closing i = .ok s') : ∃ o, s.pending = o :: s'.pending := by
  unfold closing at h
  split at h
  · cases h
  · cases h
  · cases h
  · rename_i hp _ _
    cases h
    exact ⟨_, hp⟩

/-! ## The problems -/

theorem digit_eq_error {s : Scan} {i : Nat} {d : Fin 10} {p : Problem} (h : s.digit i d = .error p) :
    ∃ q ls, s.lexemes = ⟨.op .div, q⟩ :: ls ∧ d.val = 0 ∧ p = .divisionByZero q := by
  unfold digit at h
  split at h
  · cases h
  · rename_i q ls hl
    split at h
    · rename_i hd
      cases h
      exact ⟨q, ls, hl, hd, rfl⟩
    · cases h
  · cases h
  · cases h

theorem operator_eq_error {s : Scan} {i : Nat} {o : Op} {final : Bool} {p : Problem}
    (h : s.operator i o final = .error p) :
    (∃ x q ls, s.lexemes = ⟨.op x, q⟩ :: ls ∧ p = .adjacentOperators i) ∨
      (o.isMultiplicative = true ∧ (s.lexemes = [] ∨ ∃ q ls, s.lexemes = ⟨.opening, q⟩ :: ls) ∧
        p = .leadingMultiplicative i) ∨
      (final = true ∧ p = .trailingOperator i) := by
  unfold operator at h
  split at h
  · rename_i x q ls hl
    cases h
    exact .inl ⟨x, q, ls, hl, rfl⟩
  · rename_i hl ho
    cases h
    exact .inr (.inl ⟨ho, .inl hl, rfl⟩)
  · rename_i q ls hl ho
    cases h
    exact .inr (.inl ⟨ho, .inr ⟨q, ls, hl⟩, rfl⟩)
  · split at h
    · rename_i hf
      cases h
      exact .inr (.inr ⟨hf, rfl⟩)
    · cases h

theorem closing_eq_error {s : Scan} {i : Nat} {p : Problem} (h : s.closing i = .error p) :
    (s.pending = [] ∧ p = .unmatchedParenthesis i) ∨
      (∃ q ls, s.lexemes = ⟨.opening, q⟩ :: ls ∧ p = .emptyParentheses i) ∨
      ∃ x q ls, s.lexemes = ⟨.op x, q⟩ :: ls ∧ p = .trailingOperator i := by
  unfold closing at h
  split at h
  · rename_i hp
    cases h
    exact .inl ⟨hp, rfl⟩
  · rename_i q ls _ hl
    cases h
    exact .inr (.inl ⟨q, ls, hl, rfl⟩)
  · rename_i x q ls _ hl
    cases h
    exact .inr (.inr ⟨x, q, ls, hl, rfl⟩)
  · cases h

theorem finish_eq_error {s : Scan} {p : Problem} (h : s.finish = .error p) :
    (s.lexemes = [] ∧ p = .emptyExpression) ∨ (∃ o os, s.pending = o :: os ∧ p = .unmatchedParenthesis o.pos) ∨
      ∃ x q ls, s.lexemes = ⟨.op x, q⟩ :: ls ∧ p = .trailingOperator q := by
  unfold finish at h
  split at h
  · rename_i hl
    cases h
    exact .inl ⟨hl, rfl⟩
  · rename_i o os _ hp
    cases h
    exact .inr (.inl ⟨o, os, hp, rfl⟩)
  · rename_i x q ls hl _
    cases h
    exact .inr (.inr ⟨x, q, ls, hl, rfl⟩)
  · cases h

end Scan

end ExactCalc
