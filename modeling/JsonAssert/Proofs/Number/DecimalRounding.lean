import JsonAssert.Number.Numeral
import JsonAssert.Proofs.Number.Rounding

/-! Rounding of decimals: the float of a decimal is the float of its exact value, however the value
is written, and it is infinite exactly when the value is too large. -/
namespace JsonAssert

namespace Decimal

def value (d : Decimal) : ℚ := d.digits * 10 ^ d.exponent

def numerator (d : Decimal) : ℕ := d.digits * 10 ^ d.exponent.toNat

def denominator (d : Decimal) : ℕ := 10 ^ (-d.exponent).toNat

theorem denominator_pos (d : Decimal) : 0 < d.denominator := Nat.pow_pos (by decide)

theorem value_eq_div (d : Decimal) : d.value = d.numerator / d.denominator := by
  rcases le_total 0 d.exponent with h | h
  · obtain ⟨e, he⟩ := Int.eq_ofNat_of_zero_le h
    simp [value, numerator, denominator, he]
  · obtain ⟨e, he⟩ := Int.eq_ofNat_of_zero_le (Int.neg_nonneg_of_nonpos h)
    have hexponent : d.exponent = -(e : ℤ) := by omega
    simp [value, numerator, denominator, hexponent, div_eq_mul_inv]

theorem cross_mul_of_value_eq {a b : Decimal} (h : a.value = b.value) :
    a.numerator * b.denominator = b.numerator * a.denominator := by
  have ha : (a.denominator : ℚ) ≠ 0 := by exact_mod_cast a.denominator_pos.ne'
  have hb : (b.denominator : ℚ) ≠ 0 := by exact_mod_cast b.denominator_pos.ne'
  rw [value_eq_div, value_eq_div, div_eq_div_iff ha hb] at h
  exact_mod_cast h

end Decimal

namespace Binary64

/-- Powers of ten outgrow the range of the floats before the exponent 400. -/
theorem overflow_le_of_exponent {d : Decimal} (hdigits : d.digits ≠ 0) (h : 400 < d.exponent) :
    overflow * d.denominator ≤ d.numerator := by
  have hdenominator : d.denominator = 1 := by
    rw [Decimal.denominator, Int.toNat_of_nonpos (by omega), pow_zero]
  have hexponent : 400 ≤ d.exponent.toNat := by omega
  have hpow : 10 ^ 400 ≤ 10 ^ d.exponent.toNat := pow_le_pow_right₀ (by decide) hexponent
  have hoverflow : overflow ≤ 10 ^ 400 := by decide +kernel
  rw [hdenominator, mul_one]
  exact (hoverflow.trans hpow).trans (Nat.le_mul_of_pos_left _ (Nat.pos_of_ne_zero hdigits))

theorem underflow_of_exponent {d : Decimal} (h : d.exponent + d.digits.log2 + 1 < -400) :
    2 * (d.numerator * unitsPerOne) < d.denominator := by
  have hnumerator : d.numerator = d.digits := by
    rw [Decimal.numerator, Int.toNat_of_nonpos (by omega), pow_zero, mul_one]
  have hdigits : d.digits < 10 ^ (d.digits.log2 + 1) :=
    Nat.lt_log2_self.trans_le (Nat.pow_le_pow_left (by decide) _)
  have hexponent : d.digits.log2 + 1 + 400 ≤ (-d.exponent).toNat := by omega
  have hunits : 2 * unitsPerOne ≤ 10 ^ 400 := by decide +kernel
  calc 2 * (d.numerator * unitsPerOne) = d.digits * (2 * unitsPerOne) := by
        rw [hnumerator, mul_left_comm]
    _ ≤ d.digits * 10 ^ 400 := Nat.mul_le_mul_left _ hunits
    _ < 10 ^ (d.digits.log2 + 1) * 10 ^ 400 :=
        Nat.mul_lt_mul_of_pos_right hdigits (Nat.pow_pos (by decide))
    _ = 10 ^ (d.digits.log2 + 1 + 400) := (pow_add 10 _ _).symm
    _ ≤ d.denominator := pow_le_pow_right₀ (by decide) hexponent

/-- The shortcuts far outside the range agree with the rounding of the exact value. -/
theorem ofDecimal_eq_ofRatio (negative : Bool) (d : Decimal) :
    ofDecimal negative d = ofRatio negative d.numerator d.denominator := by
  unfold ofDecimal
  split_ifs with hzero hlarge hsmall
  · have hnumerator : d.numerator = 0 := by simp [Decimal.numerator, hzero]
    exact (ofRatio_eq_zero negative (by simpa [hnumerator] using d.denominator_pos)).symm
  · exact ((ofRatio_eq_infinite_iff negative _ d.denominator_pos).mpr
      (overflow_le_of_exponent hzero hlarge)).symm
  · exact (ofRatio_eq_zero negative (underflow_of_exponent hsmall)).symm
  · rfl

/-- Only the value of a decimal counts. -/
theorem ofDecimal_congr (negative : Bool) {a b : Decimal} (h : a.value = b.value) :
    ofDecimal negative a = ofDecimal negative b := by
  rw [ofDecimal_eq_ofRatio, ofDecimal_eq_ofRatio]
  exact ofRatio_congr negative a.denominator_pos b.denominator_pos
    (Decimal.cross_mul_of_value_eq h)

theorem ofDecimal_eq_infinite_iff (negative : Bool) (d : Decimal) :
    ofDecimal negative d = .infinite negative ↔ (overflow : ℚ) ≤ d.value := by
  have hpos : (0 : ℚ) < d.denominator := by exact_mod_cast d.denominator_pos
  rw [ofDecimal_eq_ofRatio, ofRatio_eq_infinite_iff negative _ d.denominator_pos,
    Decimal.value_eq_div, le_div_iff₀ hpos]
  exact_mod_cast Iff.rfl

end Binary64

end JsonAssert
