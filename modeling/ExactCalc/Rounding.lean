/-!
# Rounding to a decimal grid

Two general rules on natural numbers: the integer nearest to a quotient, and a decimal fraction without its trailing
zeros.
-/
namespace ExactCalc

/-- The power of ten with exponent `n`.  A machine keeps the exponent in 32 bits, so `n` is taken to be below `2 ^ 32`,
where that changes nothing; the precisions of an evaluation are far below it (`clampPrecision`). -/
def tenPow (n : Nat) : Nat :=
  Nat.pow 10 n

/-- The integer nearest to `num / den`; a tie goes up. -/
def roundQuotient (num den : Nat) : Nat :=
  if den ≤ 2 * (num % den) then num / den + 1 else num / den

/-- The decimal fraction `m` over ten to the power `scale`, without trailing zeros after the point: its mantissa and
its scale. -/
def stripZeros : Nat → Nat → Nat × Nat
  | m, 0         => (m, 0)
  | m, scale + 1 => if m % 10 = 0 then stripZeros (m / 10) scale else (m, scale + 1)

@[simp] theorem tenPow_zero : tenPow 0 = 1 := rfl

theorem tenPow_succ (n : Nat) : tenPow (n + 1) = tenPow n * 10 := rfl

theorem tenPow_pos : ∀ n, 0 < tenPow n
  | 0     => Nat.one_pos
  | n + 1 => Nat.mul_pos (tenPow_pos n) (by decide)

/-- **Stripping keeps the fraction.** -/
theorem stripZeros_value : ∀ m scale,
    (stripZeros m scale).1 * tenPow scale = m * tenPow (stripZeros m scale).2
  | m, 0         => rfl
  | m, scale + 1 => by
    unfold stripZeros
    split
    · rename_i h
      rw [tenPow_succ, ← Nat.mul_assoc, stripZeros_value (m / 10) scale, Nat.mul_right_comm,
        Nat.div_mul_cancel (Nat.dvd_of_mod_eq_zero h)]
    · rfl

theorem stripZeros_scale_le : ∀ m scale, (stripZeros m scale).2 ≤ scale
  | _, 0         => Nat.le_refl 0
  | m, scale + 1 => by
    unfold stripZeros
    split
    · exact Nat.le_succ_of_le (stripZeros_scale_le (m / 10) scale)
    · exact Nat.le_refl _

end ExactCalc
