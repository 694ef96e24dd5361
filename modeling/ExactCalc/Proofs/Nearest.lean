import Mathlib
import ExactCalc.Value
/-!
# Rounding to the nearest

A rounded number stands for the point of the decimal grid that is nearest to the number (`Value.abs_toRat_ofRat_sub_le`),
and for the one farther from zero if two are equally near (`Value.abs_lt_abs_toRat_ofRat`).  The sign is put back after
the absolute value is rounded, so all that is shown of absolute values first (`Value.units_near`).  No other point of the
grid is as near (`Value.toRat_ofRat_of_grid`).
-/
namespace ExactCalc

theorem cast_tenPow (p : Nat) : (tenPow p : Rat) = 10 ^ p := by
  simp [tenPow]

/-- A rounded quotient is off by at most half, and by less than half if it is too small. -/
theorem roundQuotient_near (n : Nat) {d : Nat} (hd : 0 < d) :
    2 * (d * roundQuotient n d) ≤ 2 * n + d ∧ 2 * n < 2 * (d * roundQuotient n d) + d := by
  have hn := Nat.div_add_mod n d
  have hm := Nat.mod_lt n hd
  unfold roundQuotient
  split
  · rw [Nat.mul_succ]
    constructor <;> omega
  · constructor <;> omega

theorem roundQuotient_one (n : Nat) : roundQuotient n 1 = n := by
  have h := roundQuotient_near n Nat.one_pos
  omega

namespace Value

/-- The absolute value of a number, as a whole number of units of the last digit. -/
def units (r : Rat) (precision : Nat) : Nat :=
  roundQuotient (r.num.natAbs * tenPow precision) r.den

/-! ## The sign -/

theorem withSignOf_mul (r : Rat) (n u : Nat) : withSignOf r (n * u) = withSignOf r n * u := by
  unfold withSignOf
  split <;> simp

theorem natAbs_withSignOf (r : Rat) (n : Nat) : (withSignOf r n).natAbs = n := by
  unfold withSignOf
  split <;> simp

theorem withSignOf_natAbs (r : Rat) : withSignOf r r.num.natAbs = r.num := by
  unfold withSignOf
  split <;> omega

theorem abs_withSignOf (r : Rat) (n : Nat) : |(withSignOf r n : Rat)| = n := by
  rw [← Int.cast_abs, ← Int.natCast_natAbs, natAbs_withSignOf, Int.cast_natCast]

/-- With the sign of a number, two quantities are as far apart as without it. -/
theorem abs_withSignOf_div_sub (r : Rat) (n a : Nat) (u d : Rat) :
    |withSignOf r n / u - withSignOf r a / d| = |(n : Rat) / u - a / d| := by
  unfold withSignOf
  split
  · rw [Int.cast_neg, Int.cast_neg, neg_div, neg_div, neg_sub_neg, abs_sub_comm, Int.cast_natCast, Int.cast_natCast]
  · rw [Int.cast_natCast, Int.cast_natCast]

theorem eq_withSignOf_div (r : Rat) : (withSignOf r r.num.natAbs : Rat) / r.den = r := by
  rw [withSignOf_natAbs, Rat.num_div_den]

theorem natAbs_div_den (r : Rat) : (r.num.natAbs : Rat) / r.den = |r| := by
  conv => rhs; rw [← eq_withSignOf_div r]
  rw [abs_div, abs_withSignOf, Nat.abs_cast]

/-! ## What a rounded number stands for -/

theorem toRat_decimal (m : Int) (s : Nat) : (decimal m s).toRat = m / 10 ^ s := by
  rw [toRat, Rat.mkRat_eq_div, cast_tenPow]

/-- However a rounded number is written, it stands for its units of the last digit. -/
theorem toRat_ofRat (r : Rat) (p : Nat) : (ofRat r p).toRat = withSignOf r (units r p) / 10 ^ p := by
  have hu : (10 : Rat) ^ p ≠ 0 := by positivity
  unfold ofRat
  split
  · rename_i hd
    have hr := eq_withSignOf_div r
    rw [hd, Nat.cast_one, div_one] at hr
    rw [units, hd, roundQuotient_one, withSignOf_mul, Int.cast_mul, Int.cast_natCast, cast_tenPow,
      mul_div_cancel_right₀ _ hu, withSignOf_natAbs]
    rfl
  · dsimp only
    rw [← units]
    split
    · rename_i hz
      have hdvd := Nat.div_mul_cancel (Nat.dvd_of_mod_eq_zero hz)
      conv => rhs; rw [← hdvd]
      rw [withSignOf_mul, Int.cast_mul, Int.cast_natCast, cast_tenPow, mul_div_cancel_right₀ _ hu]
      rfl
    · have hs := stripZeros_value (units r p) p
      generalize stripZeros (units r p) p = x at hs
      rw [toRat_decimal, div_eq_div_iff (by positivity) hu]
      have h := congrArg (withSignOf r) hs
      rw [withSignOf_mul, withSignOf_mul] at h
      rw [← cast_tenPow, ← cast_tenPow]
      exact_mod_cast h

theorem abs_toRat_ofRat (r : Rat) (p : Nat) : |(ofRat r p).toRat| = units r p / 10 ^ p := by
  have hu : |(10 : Rat) ^ p| = 10 ^ p := abs_of_pos (by positivity)
  rw [toRat_ofRat, abs_div, abs_withSignOf, hu]

theorem abs_toRat_ofRat_sub (r : Rat) (p : Nat) : |(ofRat r p).toRat - r| = |(units r p : Rat) / 10 ^ p - (|r|)| := by
  calc |(ofRat r p).toRat - r|
      = |(withSignOf r (units r p) : Rat) / 10 ^ p - withSignOf r r.num.natAbs / r.den| := by
        rw [toRat_ofRat, eq_withSignOf_div]
    _ = |(units r p : Rat) / 10 ^ p - r.num.natAbs / r.den| := abs_withSignOf_div_sub r _ _ _ _
    _ = |(units r p : Rat) / 10 ^ p - (|r|)| := by rw [natAbs_div_den]

/-! ## The nearest point -/

/-- Of absolute values: rounding is off by at most half a unit of the last digit, and by less if it goes down. -/
theorem units_near (r : Rat) (p : Nat) :
    (units r p : Rat) / 10 ^ p - |r| ≤ 1 / (2 * 10 ^ p) ∧ |r| - units r p / 10 ^ p < 1 / (2 * 10 ^ p) := by
  have hd : (0 : Rat) < r.den := by exact_mod_cast r.den_pos
  have hu : (0 : Rat) < 10 ^ p := by positivity
  obtain ⟨hle, hlt⟩ := roundQuotient_near (r.num.natAbs * tenPow p) r.den_pos
  rw [← units] at hle hlt
  have hle : 2 * (r.den * (units r p : Rat)) ≤ 2 * (r.num.natAbs * 10 ^ p) + r.den := by
    rw [← cast_tenPow]
    exact_mod_cast hle
  have hlt : 2 * (r.num.natAbs * (10 : Rat) ^ p) < 2 * (r.den * units r p) + r.den := by
    rw [← cast_tenPow]
    exact_mod_cast hlt
  rw [← natAbs_div_den]
  constructor
  · rw [div_sub_div _ _ hu.ne' hd.ne', div_le_div_iff₀ (by positivity) (by positivity)]
    nlinarith
  · rw [div_sub_div _ _ hd.ne' hu.ne', div_lt_div_iff₀ (by positivity) (by positivity)]
    nlinarith

/-- **A rounded number is off by at most half a unit of the last digit.** -/
theorem abs_toRat_ofRat_sub_le (r : Rat) (p : Nat) : |(ofRat r p).toRat - r| ≤ 1 / (2 * 10 ^ p) := by
  obtain ⟨hle, hlt⟩ := units_near r p
  rw [abs_toRat_ofRat_sub, abs_le]
  constructor <;> linarith

/-- **A tie goes away from zero.** -/
theorem abs_lt_abs_toRat_ofRat {r : Rat} {p : Nat} (h : |(ofRat r p).toRat - r| = 1 / (2 * 10 ^ p)) :
    |r| < |(ofRat r p).toRat| := by
  have hpos : (0 : Rat) < 1 / (2 * 10 ^ p) := by positivity
  obtain ⟨-, hlt⟩ := units_near r p
  rw [abs_toRat_ofRat_sub] at h
  rw [abs_toRat_ofRat]
  rcases abs_cases ((units r p : Rat) / 10 ^ p - |r|) with ⟨he, -⟩ | ⟨he, -⟩ <;> linarith

theorem exists_toRat_ofRat_mul (r : Rat) (p : Nat) : ∃ k : Int, (ofRat r p).toRat * 10 ^ p = k :=
  ⟨withSignOf r (units r p), by rw [toRat_ofRat, div_mul_cancel₀ _ (by positivity)]⟩

/-- Two points of a grid are at least one unit of the last digit apart. -/
theorem unit_le_sub_of_grid {x y : Rat} {p : Nat} {k l : Int} (hx : x * 10 ^ p = k) (hy : y * 10 ^ p = l) (h : x < y) :
    1 / 10 ^ p ≤ y - x := by
  have hu : (0 : Rat) < 10 ^ p := by positivity
  have hlt : (k : Rat) < l := by
    rw [← hx, ← hy]
    exact mul_lt_mul_of_pos_right h hu
  have hle : (k : Rat) + 1 ≤ l := by exact_mod_cast Int.add_one_le_iff.2 (Int.cast_lt.1 hlt)
  rw [div_le_iff₀ hu, sub_mul, hx, hy]
  linarith

theorem unit_eq_add_halves (p : Nat) : (1 : Rat) / 10 ^ p = 1 / (2 * 10 ^ p) + 1 / (2 * 10 ^ p) := by
  field_simp
  norm_num

/-- **A number on the grid is rounded to itself**: no other point of the grid is within half a unit. -/
theorem toRat_ofRat_of_grid {r : Rat} {p : Nat} {k : Int} (h : r * 10 ^ p = k) : (ofRat r p).toRat = r := by
  have hhalf : (0 : Rat) < 1 / (2 * 10 ^ p) := by positivity
  have hunit := unit_eq_add_halves p
  obtain ⟨k', hk'⟩ := exists_toRat_ofRat_mul r p
  obtain ⟨hge, hle⟩ := abs_le.1 (abs_toRat_ofRat_sub_le r p)
  refine le_antisymm ?_ ?_ <;> by_contra hlt
  · have hgap := unit_le_sub_of_grid h hk' (not_le.1 hlt)
    linarith
  · have hgap := unit_le_sub_of_grid hk' h (not_le.1 hlt)
    linarith

end Value

end ExactCalc
