import JsonAssert.Number.Shortest
import JsonAssert.Proofs.Number.DecimalRounding

/-! The search for the shortest decimal keeps to decimals that read back as the float. -/
namespace JsonAssert

namespace Binary64

/-- The sign plays no part in rounding. -/
theorem ofDecimal_of_negative {b : Bool} {d : Decimal} {significand scale : ℕ}
    {h : Canonical significand scale} (negative : Bool)
    (hread : ofDecimal b d = .finite b significand scale h) :
    ofDecimal negative d = .finite negative significand scale h := by
  rw [ofDecimal_eq_ofRatio, ofRatio_eq] at hread ⊢
  split_ifs at hread ⊢ with hcarry
  · obtain ⟨-, hm, he⟩ := pack_eq_finite_iff.mp hread
    exact pack_eq_finite_iff.mpr ⟨rfl, hm, he⟩
  · obtain ⟨-, hm, he⟩ := pack_eq_finite_iff.mp hread
    exact pack_eq_finite_iff.mpr ⟨rfl, hm, he⟩

theorem ofDecimal_zero (negative : Bool) (exponent : ℤ) :
    ofDecimal negative ⟨0, exponent⟩ = zero negative := by
  rw [ofDecimal, if_pos rfl]

end Binary64

namespace Shortest
open Binary64

/-- The exact decimal of a float is read back as this float. -/
theorem ofDecimal_exact (negative : Bool) {significand scale : ℕ}
    (h : Canonical significand scale) :
    ofDecimal negative (exact significand scale) = .finite negative significand scale h := by
  have hunits : unitsPerOne = 2 ^ unitBits := rfl
  have hnumerator : (exact significand scale).numerator =
      significand * 2 ^ scale * 5 ^ unitBits := by
    simp [Decimal.numerator, exact]
  have hdenominator : (exact significand scale).denominator = 5 ^ unitBits * 2 ^ unitBits := by
    rw [← Nat.mul_pow]
    simp [Decimal.denominator, exact]
  rw [ofDecimal_eq_ofRatio]
  apply ofRatio_exact negative (Decimal.denominator_pos _) h
  rw [hnumerator, hdenominator, hunits, mul_assoc]

theorem readsBack_search {readsBack : Decimal → Bool} {d : Decimal} (h : readsBack d = true)
    (dropped : ℕ) : readsBack (search readsBack d dropped) = true := by
  induction dropped with
  | zero => exact h
  | succ dropped ih =>
    rw [search]
    split_ifs
    · exact ih
    · split
      · next shorter hfind => exact List.find?_some hfind
      · exact ih

/-- The test by which the search is led. -/
def readsAs (significand scale : ℕ) (d : Decimal) : Bool :=
  ofDecimal false d == pack false significand scale

theorem ofDecimal_decimal (negative : Bool) {significand scale : ℕ}
    (h : Canonical significand scale) :
    ofDecimal negative (decimal significand scale) = .finite negative significand scale h := by
  have hexact : readsAs significand scale (exact significand scale) = true := by
    rw [readsAs, ofDecimal_exact false h, pack_of_canonical false h]
    exact beq_self_eq_true _
  have hread : readsAs significand scale (decimal significand scale) = true :=
    readsBack_search hexact ((exact significand scale).digits.log2 / 3)
  rw [readsAs, pack_of_canonical false h] at hread
  exact ofDecimal_of_negative negative (eq_of_beq hread)

theorem digits_decimal_ne_zero {significand scale : ℕ} (h : Canonical significand scale)
    (hpos : significand ≠ 0) : (decimal significand scale).digits ≠ 0 := by
  intro hzero
  have hread := ofDecimal_decimal false h
  rw [ofDecimal, if_pos hzero, zero] at hread
  have hsignificand : 0 = significand := by
    injection hread
  exact hpos hsignificand.symm

end Shortest

end JsonAssert
