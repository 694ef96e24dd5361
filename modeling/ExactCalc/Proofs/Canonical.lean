import ExactCalc.Proofs.Nearest
/-!
# The canonical form of a rounded number

A rounded number has one written form: an integer where it can be one, and else a mantissa that does not end in a zero
(`Value.Canonical.ext`).  The loop that strips the zeros ends by itself, while the scale is still positive
(`stripRuns_stripZeros`).  So rounding is right in value and in form (`Value.rounds_ofRat`), and what has been rounded
once is not changed by rounding it again (`Value.ofRat_toRat`).
-/
namespace ExactCalc

/-! ## Stripping zeros -/

/-- The runs of the loop that strips zeros, with nothing to bound its rounds.  While the mantissa ends in a zero, the zero
is dropped and the scale falls by one; `none` stands for a scale that would fall below 0. -/
inductive StripRuns : Nat → Nat → Option (Nat × Nat) → Prop
  | exit {m s : Nat} : m % 10 ≠ 0 → StripRuns m s (some (m, s))
  | next {m s : Nat} {out : Option (Nat × Nat)} : m % 10 = 0 → StripRuns (m / 10) s out → StripRuns m (s + 1) out
  | underflow {m : Nat} : m % 10 = 0 → StripRuns m 0 none

namespace StripRuns
variable {m s : Nat} {out out' : Option (Nat × Nat)}

theorem unique (h : StripRuns m s out) (h' : StripRuns m s out') : out = out' := by
  induction h with
  | exit hm =>
    cases h' with
    | exit         => rfl
    | next hz _    => exact absurd hz hm
    | underflow hz => exact absurd hz hm
  | next hm _ ih =>
    cases h' with
    | exit hz   => exact absurd hm hz
    | next _ h' => exact ih h'
  | underflow hm =>
    cases h' with
    | exit hz     => exact absurd hm hz
    | underflow _ => rfl

theorem mod_ne_zero (h : StripRuns m s out) : ∀ x ∈ out, x.1 % 10 ≠ 0 := by
  induction h with
  | exit hm =>
    rintro x ⟨⟩
    exact hm
  | next _ _ ih => exact ih
  | underflow _ => rintro x ⟨⟩

end StripRuns

/-- **The loop ends before the scale is spent**, if the fraction is not an integer. -/
theorem stripRuns_stripZeros : ∀ {m s : Nat}, m % tenPow s ≠ 0 → StripRuns m s (some (stripZeros m s))
  | m, 0,     h => absurd (Nat.mod_one m) h
  | m, s + 1, h => by
    unfold stripZeros
    split
    · rename_i hm
      have hdiv : m / 10 % tenPow s ≠ 0 := by
        intro hz
        apply h
        rw [tenPow_succ, ← Nat.div_mul_cancel (Nat.dvd_of_mod_eq_zero hm), Nat.mul_mod_mul_right, hz, Nat.zero_mul]
      exact .next hm (stripRuns_stripZeros hdiv)
    · rename_i hm
      exact .exit hm

theorem stripZeros_scale_pos {m s : Nat} (h : m % tenPow s ≠ 0) : 0 < (stripZeros m s).2 := by
  rw [Nat.pos_iff_ne_zero]
  intro hz
  have hv := stripZeros_value m s
  rw [hz, tenPow_zero, Nat.mul_one] at hv
  exact h (hv ▸ Nat.mul_mod_left _ _)

namespace Value

/-! ## Canonical values -/

/-- The number of digits after the point. -/
def scale : Value → Nat
  | integer _   => 0
  | decimal _ s => s

/-- A value in its canonical form: a decimal has digits after the point, and the last of them is not a zero. -/
def Canonical : Value → Prop
  | integer _   => True
  | decimal m s => 0 < s ∧ ¬(10 : Int) ∣ m

theorem dvd_of_dvd_withSignOf {r : Rat} {n : Nat} (h : (10 : Int) ∣ withSignOf r n) : n % 10 = 0 := by
  have h := Int.natAbs_dvd_natAbs.2 h
  rw [natAbs_withSignOf] at h
  exact Nat.mod_eq_zero_of_dvd h

/-- The form of a rounded number that is not an integer. -/
theorem ofRat_eq_decimal {r : Rat} {p : Nat} (hd : r.den ≠ 1) (hz : units r p % tenPow p ≠ 0) :
    ofRat r p = decimal (withSignOf r (stripZeros (units r p) p).1) (stripZeros (units r p) p).2 := by
  rw [ofRat, if_neg hd]
  exact if_neg hz

theorem canonical_ofRat (r : Rat) (p : Nat) : (ofRat r p).Canonical ∧ (ofRat r p).scale ≤ p := by
  by_cases hd : r.den = 1
  · rw [ofRat, if_pos hd]
    exact ⟨trivial, Nat.zero_le p⟩
  · by_cases hz : units r p % tenPow p = 0
    · have hi : ofRat r p = integer (withSignOf r (units r p / tenPow p)) := by
        rw [ofRat, if_neg hd]
        exact if_pos hz
      rw [hi]
      exact ⟨trivial, Nat.zero_le p⟩
    · rw [ofRat_eq_decimal hd hz]
      have hm := (stripRuns_stripZeros hz).mod_ne_zero _ rfl
      exact ⟨⟨stripZeros_scale_pos hz, fun h => hm (dvd_of_dvd_withSignOf h)⟩, stripZeros_scale_le _ _⟩

/-- Ten to a positive power divides no mantissa that does not end in a zero. -/
theorem ne_mul_pow {m k : Int} {s : Nat} (hs : 0 < s) (h : ¬(10 : Int) ∣ m) : m ≠ k * 10 ^ s := by
  rintro rfl
  exact h (Dvd.dvd.mul_left (dvd_pow_self 10 hs.ne') k)

theorem Canonical.toRat_ne_int {m : Int} {s : Nat} (h : (decimal m s).Canonical) (n : Int) :
    (decimal m s).toRat ≠ n := by
  rw [toRat_decimal, ne_eq, div_eq_iff (by positivity)]
  intro he
  exact ne_mul_pow h.1 h.2 (by exact_mod_cast he : m = n * 10 ^ s)

/-- Of two decimals for one number, the one with fewer digits is not canonical unless the other has as many. -/
theorem Canonical.le_of_toRat_eq {m m' : Int} {s s' : Nat} (h : (decimal m s).Canonical)
    (he : (decimal m s).toRat = (decimal m' s').toRat) : s ≤ s' := by
  by_contra hlt
  obtain ⟨d, rfl⟩ := Nat.exists_eq_add_of_lt (Nat.not_le.1 hlt)
  rw [toRat_decimal, toRat_decimal, div_eq_div_iff (by positivity) (by positivity), add_assoc, pow_add,
    mul_comm (10 ^ s'), ← mul_assoc] at he
  have hm := mul_right_cancel₀ (by positivity) he
  exact ne_mul_pow (Nat.succ_pos d) h.2 (by exact_mod_cast hm : m = m' * 10 ^ (d + 1))

/-- **A number has one canonical form.** -/
theorem Canonical.ext {v w : Value} (hv : v.Canonical) (hw : w.Canonical) (h : v.toRat = w.toRat) : v = w := by
  match v, w with
  | integer n,   integer n'    => exact congrArg integer (Rat.intCast_inj.1 h)
  | integer n,   decimal m s   => exact absurd h.symm (hw.toRat_ne_int n)
  | decimal m s, integer n     => exact absurd h (hv.toRat_ne_int n)
  | decimal m s, decimal m' s' =>
    obtain rfl := Nat.le_antisymm (hv.le_of_toRat_eq h) (hw.le_of_toRat_eq h.symm)
    rw [toRat_decimal, toRat_decimal, div_left_inj' (by positivity)] at h
    rw [Rat.intCast_inj.1 h]

/-- A value is on the grid of its own scale, and of every finer one. -/
theorem exists_toRat_mul {v : Value} {q : Nat} (h : v.scale ≤ q) : ∃ k : Int, v.toRat * 10 ^ q = k := by
  match v, h with
  | integer n,   _ => exact ⟨n * 10 ^ q, by push_cast; rfl⟩
  | decimal m s, h =>
    obtain ⟨d, rfl⟩ := Nat.exists_eq_add_of_le (show s ≤ q from h)
    refine ⟨m * 10 ^ d, ?_⟩
    rw [toRat_decimal, pow_add, ← mul_assoc, div_mul_cancel₀ _ (by positivity)]
    push_cast
    rfl

/-- **What has been rounded is not changed by rounding it again**, with as many digits or more. -/
theorem ofRat_toRat {v : Value} {q : Nat} (hv : v.Canonical) (hq : v.scale ≤ q) : ofRat v.toRat q = v := by
  obtain ⟨k, hk⟩ := exists_toRat_mul hq
  exact (canonical_ofRat _ q).1.ext hv (toRat_ofRat_of_grid hk)

/-! ## Rounding -/

/-- What a number `r`, rounded to `p` digits after the point, has to be. -/
structure Rounds (r : Rat) (p : Nat) (v : Value) : Prop where
  onGrid     : ∃ k : Int, v.toRat * 10 ^ p = k
  near       : |v.toRat - r| ≤ 1 / (2 * 10 ^ p)
  tie        : |v.toRat - r| = 1 / (2 * 10 ^ p) → |r| < |v.toRat|
  isInteger  : (∃ n, v = integer n) ↔ ∃ n : Int, v.toRat = n
  zero       : v.toRat = 0 → v = integer 0
  digits     : ∀ m s, v = decimal m s → 1 ≤ s ∧ s ≤ p ∧ ¬(10 : Int) ∣ m

theorem Canonical.isInteger_iff {v : Value} (h : v.Canonical) : (∃ n, v = integer n) ↔ ∃ n : Int, v.toRat = n := by
  constructor
  · rintro ⟨n, rfl⟩
    exact ⟨n, rfl⟩
  · rintro ⟨n, hn⟩
    exact ⟨n, h.ext trivial hn⟩

/-- **Rounding gives the nearest decimal of so many digits, in its canonical form**; a tie goes away from zero.  Where
the form is a decimal, the loop that strips its zeros ends, and with no round too many: the scale never falls below 0. -/
theorem rounds_ofRat (r : Rat) (p : Nat) :
    Rounds r p (ofRat r p) ∧
      (r.den ≠ 1 → units r p % tenPow p ≠ 0 →
        (∃ m s, StripRuns (units r p) p (some (m, s)) ∧ ofRat r p = decimal (withSignOf r m) s) ∧
          ¬StripRuns (units r p) p none) := by
  obtain ⟨hc, hs⟩ := canonical_ofRat r p
  constructor
  · refine ⟨exists_toRat_ofRat_mul r p, abs_toRat_ofRat_sub_le r p, abs_lt_abs_toRat_ofRat, hc.isInteger_iff, ?_, ?_⟩
    · exact fun hz => hc.ext trivial (hz.trans Int.cast_zero.symm)
    · intro m s h
      rw [h] at hc hs
      exact ⟨hc.1, hs, hc.2⟩
  · intro hd hz
    have hrun := stripRuns_stripZeros hz
    exact ⟨⟨_, _, hrun, ofRat_eq_decimal hd hz⟩, fun h => by cases hrun.unique h⟩

/-- A tie that carries into digits which are then stripped. -/
theorem rounds_ofRat_tie_stripped :
    let r : Rat := -399 / 2000
    ofRat r 3 = decimal (-2) 1 ∧ |(ofRat r 3).toRat - r| = 1 / (2 * 10 ^ 3) ∧ |r| < |(ofRat r 3).toRat| ∧
      r.den ≠ 1 ∧ units r 3 % tenPow 3 ≠ 0 ∧
      (∃ m s, StripRuns (units r 3) 3 (some (m, s)) ∧ ofRat r 3 = decimal (withSignOf r m) s) ∧
      ¬StripRuns (units r 3) 3 none := by
  intro r
  have hv : ofRat r 3 = decimal (-2) 1 := by decide +kernel
  have hd : r.den ≠ 1 := by decide +kernel
  have hz : units r 3 % tenPow 3 ≠ 0 := by decide +kernel
  have htie : |(ofRat r 3).toRat - r| = 1 / (2 * 10 ^ 3) := by
    rw [hv, toRat_decimal, abs_of_neg] <;> norm_num [r]
  obtain ⟨hr, hs⟩ := rounds_ofRat r 3
  exact ⟨hv, htie, hr.tie htie, hd, hz, hs hd hz⟩

end Value

end ExactCalc
