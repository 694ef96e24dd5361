import ExactCalc.Proofs.Canonical
/-!
# Order, sign and stability of rounding

Rounding keeps the order of numbers, turns the sign with them, and does not change what it has rounded
(`Value.ofRat_monotone_odd_stable`).  The order needs nothing of how ties go: were a number rounded above a greater one,
the two would lie at the midpoint of their roundings, so they would be the same number.
-/
namespace ExactCalc
namespace Value

/-! ## The sign -/

/-- The value of the opposite sign, of the same kind and with as many digits after the point. -/
def neg : Value → Value
  | integer n   => integer (-n)
  | decimal m s => decimal (-m) s

instance : Neg Value :=
  ⟨neg⟩

@[simp] theorem kind_neg (v : Value) : (-v).kind = v.kind := by
  cases v <;> rfl

@[simp] theorem scale_neg (v : Value) : (-v).scale = v.scale := by
  cases v <;> rfl

theorem toRat_neg : ∀ v : Value, (-v).toRat = -v.toRat
  | integer n   => Int.cast_neg n
  | decimal m s => by
    have h : (decimal (-m) s).toRat = -(decimal m s).toRat := by
      rw [toRat_decimal, toRat_decimal, Int.cast_neg, neg_div]
    exact h

theorem Canonical.neg : ∀ {v : Value}, v.Canonical → (-v).Canonical
  | integer _,   _ => trivial
  | decimal _ _, h => ⟨h.1, fun hd => h.2 (Int.dvd_neg.1 hd)⟩

theorem withSignOf_neg {r : Rat} (h : r ≠ 0) (n : Nat) : withSignOf (-r) n = -withSignOf r n := by
  have hn : r.num ≠ 0 := Rat.num_ne_zero.2 h
  simp only [withSignOf, Rat.neg_num]
  split <;> split <;> omega

theorem units_neg (r : Rat) (p : Nat) : units (-r) p = units r p := by
  rw [units, units, Rat.neg_num, Rat.neg_den, Int.natAbs_neg]

theorem toRat_ofRat_neg (r : Rat) (p : Nat) : (ofRat (-r) p).toRat = -(ofRat r p).toRat := by
  by_cases h : r = 0
  · subst h
    rfl
  · rw [toRat_ofRat, toRat_ofRat, units_neg, withSignOf_neg h, Int.cast_neg, neg_div]

theorem ofRat_neg (r : Rat) (p : Nat) : ofRat (-r) p = -ofRat r p :=
  (canonical_ofRat (-r) p).1.ext (canonical_ofRat r p).1.neg ((toRat_ofRat_neg r p).trans (toRat_neg _).symm)

/-! ## The order -/

theorem monotone_toRat_ofRat (p : Nat) : Monotone fun r => (ofRat r p).toRat := by
  intro r r' h
  by_contra hlt
  obtain ⟨k, hk⟩ := exists_toRat_ofRat_mul r p
  obtain ⟨k', hk'⟩ := exists_toRat_ofRat_mul r' p
  have hgap := unit_le_sub_of_grid hk' hk (not_le.1 hlt)
  have hunit := unit_eq_add_halves p
  have hle := (abs_le.1 (abs_toRat_ofRat_sub_le r p)).2
  have hge := (abs_le.1 (abs_toRat_ofRat_sub_le r' p)).1
  obtain rfl : r = r' := le_antisymm h (by linarith)
  exact hlt le_rfl

/-! ## The laws -/

/-- **Order, sign and stability of rounding.**  A greater number is not rounded to a smaller one.  The opposite number is
rounded to the opposite value, of the same kind and with as many digits.  A rounded number is not changed by rounding it
again with room for its digits. -/
theorem ofRat_monotone_odd_stable (p : Nat) :
    (∀ r r' : Rat, r ≤ r' → (ofRat r p).toRat ≤ (ofRat r' p).toRat) ∧
      (∀ r, ofRat (-r) p = -ofRat r p ∧ (ofRat (-r) p).kind = (ofRat r p).kind ∧
        (ofRat (-r) p).scale = (ofRat r p).scale) ∧
      ∀ r q, (ofRat r p).scale ≤ q → ofRat (ofRat r p).toRat q = ofRat r p := by
  refine ⟨fun r r' h => monotone_toRat_ofRat p h, fun r => ?_, fun r q h => ofRat_toRat (canonical_ofRat r p).1 h⟩
  rw [ofRat_neg]
  exact ⟨rfl, kind_neg _, scale_neg _⟩

/-- A tie, and a number that is rounded to an integer. -/
theorem ofRat_monotone_odd_stable_tie :
    let r : Rat := -1 / 8
    let r' : Rat := -1 / 300
    ofRat r 2 = decimal (-13) 2 ∧ ofRat r' 2 = integer 0 ∧ r ≤ r' ∧ (ofRat r 2).toRat ≤ (ofRat r' 2).toRat ∧
      (ofRat r 2).scale ≤ 7 ∧ ofRat (ofRat r 2).toRat 7 = ofRat r 2 := by
  intro r r'
  have h : r ≤ r' := by norm_num [r, r']
  have hs : (ofRat r 2).scale ≤ 7 := by decide +kernel
  obtain ⟨hmono, -, hstable⟩ := ofRat_monotone_odd_stable 2
  exact ⟨by decide +kernel, by decide +kernel, h, hmono r r' h, hs, hstable r 7 hs⟩

end Value

end ExactCalc
