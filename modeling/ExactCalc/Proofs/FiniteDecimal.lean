import ExactCalc.Proofs.Canonical
/-!
# Finite decimals

A fraction in lowest terms is a finite decimal exactly if its denominator has no prime factor but 2 and 5, and it then has
as many digits after the point as the greater of the two exponents says.  Such a fraction is shown exactly wherever so
many digits are allowed, and always in the same form; any other is changed by rounding (`Value.toRat_ofRat_eq_iff`).
-/
namespace ExactCalc

/-! ## Divisors of a power of ten -/

theorem ten_pow_eq (p : Nat) : 10 ^ p = 2 ^ p * 5 ^ p :=
  Nat.mul_pow 2 5 p

theorem dvd_ten_pow_iff_max_le {a b p : Nat} : 2 ^ a * 5 ^ b ∣ 10 ^ p ↔ max a b ≤ p := by
  have hcoprime : ∀ m n, Nat.Coprime (2 ^ m) (5 ^ n) := fun m n => Nat.Coprime.pow m n (by decide)
  rw [ten_pow_eq]
  constructor
  · intro h
    have ha : 2 ^ a ∣ 2 ^ p := (hcoprime a p).dvd_of_dvd_mul_right ((Nat.dvd_mul_right _ _).trans h)
    have hb : 5 ^ b ∣ 5 ^ p := (hcoprime p b).symm.dvd_of_dvd_mul_left ((Nat.dvd_mul_left _ _).trans h)
    exact max_le ((Nat.pow_dvd_pow_iff_le_right (by decide)).1 ha) ((Nat.pow_dvd_pow_iff_le_right (by decide)).1 hb)
  · intro h
    exact Nat.mul_dvd_mul (pow_dvd_pow 2 (le_of_max_le_left h)) (pow_dvd_pow 5 (le_of_max_le_right h))

theorem dvd_ten_pow_iff {d p : Nat} : d ∣ 10 ^ p ↔ ∃ a b, d = 2 ^ a * 5 ^ b ∧ max a b ≤ p := by
  constructor
  · intro h
    rw [ten_pow_eq] at h
    obtain ⟨x, y, hx, hy, rfl⟩ := Nat.dvd_mul.1 h
    obtain ⟨a, ha, rfl⟩ := (Nat.dvd_prime_pow Nat.prime_two).1 hx
    obtain ⟨b, hb, rfl⟩ := (Nat.dvd_prime_pow Nat.prime_five).1 hy
    exact ⟨a, b, rfl, max_le ha hb⟩
  · rintro ⟨a, b, rfl, h⟩
    exact dvd_ten_pow_iff_max_le.2 h

namespace Value

/-! ## Numbers on a decimal grid -/

/-- A number is on the grid of `p` digits after the point if its denominator divides their unit. -/
theorem exists_mul_pow_iff {r : Rat} {p : Nat} : (∃ k : Int, r * 10 ^ p = k) ↔ r.den ∣ 10 ^ p := by
  have hden : (r.den : Rat) ≠ 0 := by exact_mod_cast r.den_ne_zero
  constructor
  · rintro ⟨k, hk⟩
    rw [← Rat.num_div_den r, div_mul_eq_mul_div, div_eq_iff hden] at hk
    have hk : r.num * 10 ^ p = k * r.den := by exact_mod_cast hk
    have hdvd : r.den ∣ r.num.natAbs * 10 ^ p := by
      have h := Int.natAbs_dvd_natAbs.2 (Dvd.intro_left k hk.symm)
      rwa [Int.natAbs_mul, Int.natAbs_pow] at h
    exact r.reduced.symm.dvd_of_dvd_mul_left hdvd
  · rintro ⟨c, hc⟩
    refine ⟨r.num * c, ?_⟩
    have hc : (10 : Rat) ^ p = r.den * c := by exact_mod_cast hc
    rw [hc, ← mul_assoc, Rat.mul_den_eq_num, Int.cast_mul, Int.cast_natCast]

theorem toRat_ofRat_eq_iff_dvd {r : Rat} {p : Nat} : (ofRat r p).toRat = r ↔ r.den ∣ 10 ^ p := by
  rw [← exists_mul_pow_iff]
  constructor
  · intro h
    have hgrid := exists_toRat_ofRat_mul r p
    rwa [h] at hgrid
  · rintro ⟨k, hk⟩
    exact toRat_ofRat_of_grid hk

/-- On a grid, and not on the next coarser one: the last digit is not a zero. -/
theorem canonical_of_not_coarser {r : Rat} {m : Int} {s : Nat} (hr : r * 10 ^ (s + 1) = m) (h : ¬r.den ∣ 10 ^ s) :
    (decimal m (s + 1)).Canonical := by
  refine ⟨Nat.succ_pos s, ?_⟩
  rintro ⟨k, rfl⟩
  refine h (exists_mul_pow_iff.1 ⟨k, ?_⟩)
  rw [pow_succ, ← mul_assoc, Int.cast_mul, mul_comm ((10 : Int) : Rat)] at hr
  exact mul_right_cancel₀ (by norm_num) hr

/-- The coarsest grid that a number is on gives its form, at every precision that reaches it. -/
theorem ofRat_eq_of_not_coarser {r : Rat} {m : Int} {s p : Nat} (hr : r * 10 ^ (s + 1) = m) (h : ¬r.den ∣ 10 ^ s)
    (hp : s + 1 ≤ p) : ofRat r p = decimal m (s + 1) := by
  have hdvd : r.den ∣ 10 ^ (s + 1) := exists_mul_pow_iff.1 ⟨m, hr⟩
  refine (canonical_ofRat r p).1.ext (canonical_of_not_coarser hr h) ?_
  rw [toRat_ofRat_eq_iff_dvd.2 (hdvd.trans (pow_dvd_pow 10 hp)), toRat_decimal, ← hr,
    mul_div_cancel_right₀ _ (by positivity)]

theorem mul_pow_eq_ediv {r : Rat} {p : Nat} (h : r.den ∣ 10 ^ p) :
    (r.den : Int) ∣ r.num * 10 ^ p ∧ r * 10 ^ p = ((r.num * 10 ^ p / r.den : Int) : Rat) := by
  have hdvd : (r.den : Int) ∣ r.num * 10 ^ p := Dvd.dvd.mul_left (by exact_mod_cast h) _
  refine ⟨hdvd, ?_⟩
  rw [Int.cast_div hdvd (by exact_mod_cast r.den_ne_zero)]
  push_cast
  rw [mul_div_right_comm, Rat.num_div_den]

theorem ofRat_of_den {r : Rat} {p a b : Nat} (hd : 1 < r.den) (h : r.den = 2 ^ a * 5 ^ b) (hp : max a b ≤ p) :
    (r.den : Int) ∣ r.num * 10 ^ max a b ∧ ofRat r p = decimal (r.num * 10 ^ max a b / r.den) (max a b) := by
  obtain ⟨hdvd, hm⟩ := mul_pow_eq_ediv (h ▸ dvd_ten_pow_iff_max_le.2 le_rfl : r.den ∣ 10 ^ max a b)
  refine ⟨hdvd, ?_⟩
  have hpos : max a b ≠ 0 := by
    intro hz
    obtain ⟨rfl, rfl⟩ : a = 0 ∧ b = 0 := by omega
    exact hd.ne' h
  obtain ⟨s, hs⟩ := Nat.exists_eq_add_one_of_ne_zero hpos
  have hcoarser : ¬r.den ∣ 10 ^ s := by
    rw [h, dvd_ten_pow_iff_max_le]
    omega
  rw [hs] at hm hp ⊢
  exact ofRat_eq_of_not_coarser hm hcoarser hp

/-- **Finite decimals are shown exactly, and no other fraction is.**  A fraction in lowest terms that is not an integer is
shown exactly just if its denominator is `2 ^ a * 5 ^ b` and the precision is at least both exponents.  Its form is then the
decimal with as many digits after the point as the greater exponent says, whatever the precision. -/
theorem toRat_ofRat_eq_iff {r : Rat} (hd : 1 < r.den) (p : Nat) :
    ((ofRat r p).toRat = r ↔ ∃ a b, r.den = 2 ^ a * 5 ^ b ∧ max a b ≤ p) ∧
      ∀ a b, r.den = 2 ^ a * 5 ^ b → max a b ≤ p →
        (r.den : Int) ∣ r.num * 10 ^ max a b ∧ ofRat r p = decimal (r.num * 10 ^ max a b / r.den) (max a b) := by
  refine ⟨?_, fun a b h hp => ofRat_of_den hd h hp⟩
  rw [toRat_ofRat_eq_iff_dvd, dvd_ten_pow_iff]

theorem toRat_ofRat_fortieths :
    let r : Rat := -7 / 40
    1 < r.den ∧ r.den = 2 ^ 3 * 5 ^ 1 ∧ max 3 1 ≤ 7 ∧ (ofRat r 7).toRat = r ∧ ofRat r 7 = decimal (-175) 3 := by
  intro r
  have hd : 1 < r.den := by decide +kernel
  have hden : r.den = 2 ^ 3 * 5 ^ 1 := by decide +kernel
  have hm : r.num * 10 ^ max 3 1 / r.den = -175 := by decide +kernel
  obtain ⟨hexact, hform⟩ := toRat_ofRat_eq_iff hd 7
  refine ⟨hd, hden, by decide, hexact.2 ⟨3, 1, hden, by decide⟩, ?_⟩
  rw [(hform 3 1 hden (by decide)).2, hm]
  rfl

end Value

end ExactCalc
