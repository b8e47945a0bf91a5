import JsonAssert.Proofs.Json.NumeralWriting

/-! How many digits a decimal has, zeros in front and at the end not counted: as many as are needed to
write its value. -/
namespace JsonAssert
open Grammar Numeral

namespace Binary64

theorem toDigits_bounds {n : ℕ} (hn : 0 < n) :
    10 ^ ((Nat.toDigits 10 n).length - 1) ≤ n ∧ n < 10 ^ (Nat.toDigits 10 n).length := by
  have hpos : 0 < (Nat.toDigits 10 n).length := List.length_pos_iff.mpr Nat.toDigits_ne_nil
  refine ⟨?_, (Nat.length_toDigits_le_iff (by decide) hpos).mp le_rfl⟩
  rcases Nat.eq_zero_or_pos ((Nat.toDigits 10 n).length - 1) with hone | hmore
  · rw [hone]
    exact hn
  · rw [← not_lt, ← Nat.length_toDigits_le_iff (by decide) hmore]
    omega

theorem significantDigits_bounds {n : ℕ} (hn : 0 < n) :
    10 ^ ((significantDigits n).length - 1) ≤ natural (significantDigits n) ∧
      natural (significantDigits n) < 10 ^ (significantDigits n).length := by
  obtain ⟨k, hvalue, hlength⟩ := natural_significantDigits n
  have hsize : 0 < (significantDigits n).length :=
    List.length_pos_iff.mpr (isSignificant_significantDigits hn).ne_nil
  have hshift : (significantDigits n).length + k - 1 = (significantDigits n).length - 1 + k := by
    omega
  obtain ⟨hlow, hhigh⟩ := toDigits_bounds hn
  rw [hlength, hshift, pow_add] at hlow
  rw [hlength, pow_add] at hhigh
  exact ⟨Nat.le_of_mul_le_mul_right (hlow.trans_eq hvalue) (by positivity),
    Nat.lt_of_mul_lt_mul_right (hvalue.symm.trans_lt hhigh)⟩

theorem not_dvd_significantDigits {n : ℕ} (hn : 0 < n) :
    ¬ 10 ∣ natural (significantDigits n) := by
  have h := isSignificant_significantDigits hn
  have hlast := List.head?_dropWhile_not (· == '0') (Nat.toDigits 10 n).reverse
  rcases hrest : (Nat.toDigits 10 n).reverse.dropWhile (· == '0') with _ | ⟨c, front⟩
  · exact absurd (by rw [significantDigits, hrest]; rfl) h.ne_nil
  · have hsplit : significantDigits n = front.reverse ++ [c] := by
      rw [significantDigits, hrest, List.reverse_cons]
    obtain ⟨hlow, hhigh⟩ : IsDigit c := h.isDigit c (by simp [hsplit])
    have hc : c.toNat ≠ 48 := by
      intro hzero
      rw [hrest] at hlast
      have : c = '0' := Char.toNat_inj.mp hzero
      simp [this] at hlast
    have hvalue : natural [c] = 10 * 0 + (c.toNat - 48) := rfl
    have hle : 48 ≤ c.toNat ∧ c.toNat ≤ 57 := ⟨hlow, hhigh⟩
    rw [hsplit, natural_append, hvalue, List.length_singleton]
    omega

end Binary64

namespace Decimal
open Binary64

/-- The number of digits of a decimal from its first to its last that is not a zero. -/
def size (d : Decimal) : ℕ := (significantDigits d.digits).length

/-- The value can be written with at most so many digits, zeros at their end not counted. -/
def HasDigits (p : ℕ) (q : ℚ) : Prop := ∃ (k : ℕ) (e : ℤ), k < 10 ^ p ∧ q = value ⟨k, e⟩

/-- The digits that stand before a lower exponent. -/
theorem digits_eq_of_value_eq {a b : ℕ} {x e : ℤ} (h : value ⟨a, x⟩ = value ⟨b, e⟩) (hle : e ≤ x) :
    b = a * 10 ^ (x - e).toNat := by
  have hshift : value ⟨a * 10 ^ (x - e).toNat, e⟩ = a * 10 ^ x := value_of_shift rfl (by omega)
  have hcancel : (b : ℚ) * 10 ^ e = (a * 10 ^ (x - e).toNat : ℕ) * 10 ^ e := h.symm.trans hshift.symm
  exact_mod_cast mul_right_cancel₀ (zpow_ne_zero e (by norm_num)) hcancel

theorem hasDigits_value (d : Decimal) : HasDigits d.size d.value := by
  rcases d.digits.eq_zero_or_pos with hzero | hpos
  · refine ⟨0, 0, Nat.pow_pos (by decide), ?_⟩
    rw [value, value, hzero, Nat.cast_zero, zero_mul, zero_mul]
  · obtain ⟨k, hdigits, -⟩ := natural_significantDigits d.digits
    exact ⟨_, d.exponent + k, (significantDigits_bounds hpos).2, value_of_shift hdigits rfl⟩

/-- A value is written with no fewer digits than its decimal has. -/
theorem size_le_iff (d : Decimal) (p : ℕ) : d.size ≤ p ↔ HasDigits p d.value := by
  constructor
  · intro hle
    obtain ⟨k, e, hk, hvalue⟩ := hasDigits_value d
    exact ⟨k, e, hk.trans_le (Nat.pow_le_pow_right (by decide) hle), hvalue⟩
  · rintro ⟨k, e, hk, hvalue⟩
    rcases d.digits.eq_zero_or_pos with hzero | hpos
    · rw [size, hzero]
      exact Nat.zero_le p
    · obtain ⟨j, hdigits, -⟩ := natural_significantDigits d.digits
      have hlow := (significantDigits_bounds hpos).1
      have hten := not_dvd_significantDigits hpos
      have hshift : value ⟨natural (significantDigits d.digits), d.exponent + j⟩ = value ⟨k, e⟩ :=
        (value_of_shift hdigits rfl).symm.trans hvalue
      rcases le_or_gt e (d.exponent + j) with hle | hgt
      · have hk' := digits_eq_of_value_eq hshift hle
        have hle : 10 ^ (d.size - 1) ≤ k :=
          hlow.trans (hk'.symm ▸ Nat.le_mul_of_pos_right _ (by positivity))
        have := (Nat.pow_lt_pow_iff_right (by decide)).mp (hle.trans_lt hk)
        omega
      · -- The digits would end with a zero.
        have hs := digits_eq_of_value_eq hshift.symm hgt.le
        refine absurd ?_ hten
        rw [hs]
        exact (dvd_pow_self 10 (by omega)).mul_left k

/-- A power of ten has one digit. -/
theorem size_le_of_le_pow {d : Decimal} {p : ℕ} (hp : 0 < p) (h : d.digits ≤ 10 ^ p) :
    d.size ≤ p := by
  rw [size_le_iff]
  rcases h.lt_or_eq with hlt | heq
  · exact ⟨d.digits, d.exponent, hlt, rfl⟩
  · exact ⟨1, d.exponent + p, Nat.one_lt_pow hp.ne' (by decide),
      value_of_shift (heq.trans (one_mul _).symm) rfl⟩

theorem HasDigits.pos {p : ℕ} {q : ℚ} (h : HasDigits p q) (hq : 0 < q) : 0 < p := by
  obtain ⟨k, e, hk, rfl⟩ := h
  rcases p.eq_zero_or_pos with rfl | hp
  · obtain rfl : k = 0 := by omega
    simp [value] at hq
  · exact hp

theorem size_congr {a b : Decimal} (h : a.value = b.value) : a.size = b.size :=
  le_antisymm (by rw [size_le_iff, h]; exact hasDigits_value b)
    (by rw [size_le_iff, ← h]; exact hasDigits_value a)

end Decimal

end JsonAssert
