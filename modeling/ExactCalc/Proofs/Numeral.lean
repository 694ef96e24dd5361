import Mathlib
import ExactCalc.Rounding
/-!
# Decimal numerals

What the numeral of a number looks like as characters: digits only, and no zero in front but in the numeral of zero
(`head?_toDigits_ne_zero`).
-/
namespace ExactCalc

theorem digitChar_of_isDigit {c : Char} (h : c.isDigit = true) :
    Nat.digitChar (Fin.ofNat 10 (c.toNat - '0'.toNat)) = c := by
  simp only [Char.isDigit, ge_iff_le, Bool.and_eq_true, decide_eq_true_eq, UInt32.le_iff_toNat_le] at h
  have h₁ : 48 ≤ c.toNat := h.1
  have h₂ : c.toNat ≤ 57 := h.2
  have h₃ : '0'.toNat = 48 := rfl
  have hv : (Fin.ofNat 10 (c.toNat - '0'.toNat)).val = c.toNat - 48 := by
    rw [h₃]
    exact Nat.mod_eq_of_lt (by omega)
  rw [hv]
  apply Char.toNat_inj.1
  rw [Nat.toNat_digitChar_of_lt_ten (by omega)]
  omega

theorem ne_of_isDigit {c d : Char} (hc : c.isDigit = true) (hd : d.isDigit = false) : c ≠ d := by
  rintro rfl
  rw [hc] at hd
  cases hd

theorem isDigit_of_mem_toDigits {n : Nat} {c : Char} (h : c ∈ Nat.toDigits 10 n) : c.isDigit = true :=
  Nat.isDigit_of_mem_toDigits (by decide) (by decide) h

/-- **Only zero has a zero in front.** -/
theorem head?_toDigits_ne_zero {n : Nat} (h : 0 < n) : (Nat.toDigits 10 n).head? ≠ some '0' := by
  induction n using Nat.strongRecOn with
  | ind n ih =>
    -- the first digit of `n` is that of `n / 10`, unless `n` is a single digit
    rw [Nat.toDigits_eq_if (by decide)]
    split
    · rw [List.head?_cons, ne_eq, Option.some.injEq, Nat.digitChar_eq_zero]
      exact h.ne'
    · rw [List.head?_append_of_ne_nil _ Nat.toDigits_ne_nil]
      exact ih (n / 10) (by omega) (by omega)

theorem toDigits_tenPow : ∀ s : Nat, Nat.toDigits 10 (tenPow s) = '1' :: List.replicate s '0'
  | 0     => rfl
  | s + 1 => by
    have hpos := tenPow_pos s
    have hdiv : tenPow s * 10 / 10 = tenPow s := Nat.mul_div_cancel _ (by decide)
    rw [tenPow_succ, Nat.toDigits_of_base_le (by decide) (by omega), Nat.mul_mod_left, hdiv, toDigits_tenPow s,
      List.replicate_succ']
    rfl

theorem toList_toString_int : ∀ m : Int, (toString m).toList = (if m < 0 then ['-'] else []) ++ Nat.toDigits 10 m.natAbs
  | .ofNat n   => Nat.toList_repr
  | .negSucc n => by
    rw [if_pos (Int.negSucc_lt_zero n), Int.toString_eq_repr, Int.repr, String.toList_append, Nat.toList_repr]
    rfl

theorem notMem_toString_int {c : Char} (hd : c.isDigit = false) (hs : c ≠ '-') (m : Int) : c ∉ (toString m).toList := by
  have hdigits : c ∉ Nat.toDigits 10 m.natAbs := fun hc => ne_of_isDigit (isDigit_of_mem_toDigits hc) hd rfl
  rw [toList_toString_int, List.mem_append, not_or]
  exact ⟨by split <;> simp [hs], hdigits⟩

end ExactCalc
