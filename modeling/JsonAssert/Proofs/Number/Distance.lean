import JsonAssert.Proofs.Number.Rounding

/-! How far floats are from a ratio, in whole numbers. The scale of a float is not bounded here: a
ratio is rounded to a significand at some scale, and is a float unless this scale is out of range. -/
namespace JsonAssert.Binary64

/-! Distances to a ratio, in whole numbers -/

/-- How far a whole number is from a ratio, counted in the denominator of the ratio. -/
def distance (n d k : ℕ) : ℕ := ((k * d : ℕ) - n : ℤ).natAbs

theorem distance_mul_two_pow (n d k e : ℕ) :
    distance n (d * 2 ^ e) k = distance n d (k * 2 ^ e) := by
  rw [distance, distance, mul_comm d, mul_assoc]

theorem distance_cases (n : ℕ) {d : ℕ} (hd : 0 < d) (k : ℕ) :
    k = n / d ∧ distance n d k = n % d ∨ k = n / d + 1 ∧ distance n d k = d - n % d ∨
      (k ≠ n / d ∧ k ≠ n / d + 1) ∧ d ≤ distance n d k := by
  have hdiv : n / d * d + n % d = n := Nat.div_add_mod' n d
  have hmod := Nat.mod_lt n hd
  rw [distance]
  rcases lt_trichotomy k (n / d) with hlt | rfl | hgt
  · have hmul := Nat.mul_le_mul_right d (Nat.succ_le_of_lt hlt)
    rw [Nat.succ_mul] at hmul
    exact .inr (.inr ⟨by omega, by omega⟩)
  · exact .inl ⟨rfl, by omega⟩
  · rcases Nat.lt_or_ge (n / d + 1) k with hfar | hnear
    · have hmul := Nat.mul_le_mul_right d (Nat.succ_le_of_lt hfar)
      rw [Nat.succ_mul, Nat.succ_mul] at hmul
      exact .inr (.inr ⟨by omega, by omega⟩)
    · obtain rfl : k = n / d + 1 := by omega
      rw [Nat.succ_mul]
      exact .inr (.inl ⟨rfl, by omega⟩)

/-- No whole number is nearer than the rounded one, and one that is as near is odd. -/
theorem distance_roundHalfEven (n : ℕ) {d : ℕ} (hd : 0 < d) (k : ℕ) :
    distance n d (roundHalfEven n d) ≤ distance n d k ∧
      (k ≠ roundHalfEven n d → distance n d (roundHalfEven n d) = distance n d k →
        roundHalfEven n d % 2 = 0 ∧ k % 2 = 1) := by
  have hmod := Nat.mod_lt n hd
  have hround : 2 * distance n d (roundHalfEven n d) ≤ d ∧
      (2 * distance n d (roundHalfEven n d) = d → roundHalfEven n d % 2 = 0) := by
    have hcases := distance_cases n hd (roundHalfEven n d)
    unfold roundHalfEven at hcases ⊢
    dsimp only at hcases ⊢
    split_ifs at hcases ⊢ <;> omega
  have hk := distance_cases n hd k
  have hr := distance_cases n hd (roundHalfEven n d)
  omega

/-- At a scale where the ratio has all the bits of a significand, no float is nearer than the
rounded one, be its scale coarser or finer. -/
theorem distance_scaled {n d m e scale : ℕ} (hd : 0 < d) (hm : m < 2 ^ precision)
    (hlow : scale ≠ 0 → d * 2 ^ (scale + (precision - 1)) ≤ n) :
    distance n d (roundHalfEven n (d * 2 ^ scale) * 2 ^ scale) ≤ distance n d (m * 2 ^ e) ∧
      (m * 2 ^ e ≠ roundHalfEven n (d * 2 ^ scale) * 2 ^ scale →
        distance n d (roundHalfEven n (d * 2 ^ scale) * 2 ^ scale) = distance n d (m * 2 ^ e) →
        roundHalfEven n (d * 2 ^ scale) % 2 = 0 ∧ m % 2 = 1) := by
  have hround := distance_roundHalfEven n (d := d * 2 ^ scale) (by positivity)
  generalize roundHalfEven n (d * 2 ^ scale) = r at hround ⊢
  rw [← distance_mul_two_pow]
  rcases Nat.lt_or_ge e scale with hfine | hcoarse
  · -- A finer float stays below the least full significand at the scale, which the ratio reaches.
    have hfloat : m * 2 ^ e * d < 2 ^ (precision - 1) * (d * 2 ^ scale) := by
      have hexponent : precision + e ≤ precision - 1 + scale := by
        simp only [precision]
        omega
      calc m * 2 ^ e * d < 2 ^ precision * 2 ^ e * d :=
            Nat.mul_lt_mul_of_pos_right (Nat.mul_lt_mul_of_pos_right hm (by positivity)) hd
        _ = 2 ^ (precision + e) * d := by rw [pow_add]
        _ ≤ 2 ^ (precision - 1 + scale) * d :=
            Nat.mul_le_mul_right d (Nat.pow_le_pow_right (by decide) hexponent)
        _ = 2 ^ (precision - 1) * (d * 2 ^ scale) := by
            rw [pow_add, mul_right_comm, mul_assoc, mul_comm d]
    have hratio : 2 ^ (precision - 1) * (d * 2 ^ scale) ≤ n := by
      rw [mul_left_comm, ← pow_add, add_comm (precision - 1)]
      exact hlow (by omega)
    have hfar : distance n (d * 2 ^ scale) (2 ^ (precision - 1)) < distance n d (m * 2 ^ e) := by
      rw [distance, distance]
      omega
    have hless := (hround (2 ^ (precision - 1))).1.trans_lt hfar
    exact ⟨hless.le, fun _ htie => absurd htie hless.ne⟩
  · obtain ⟨k, rfl⟩ := Nat.exists_eq_add_of_le hcoarse
    have hsplit : m * 2 ^ (scale + k) = m * 2 ^ k * 2 ^ scale := by
      rw [add_comm, pow_add, mul_assoc]
    obtain ⟨hle, htie⟩ := hround (m * 2 ^ k)
    rw [hsplit, ← distance_mul_two_pow]
    refine ⟨hle, fun hne heq => ?_⟩
    obtain ⟨hr, hk⟩ := htie (fun heq => hne (by rw [heq])) heq
    exact ⟨hr, Nat.odd_iff.mp (Nat.odd_mul.mp (Nat.odd_iff.mpr hk)).1⟩

/-! The parts of a rounded ratio -/

/-- A significand and a scale are known from what they count. -/
theorem IsNormal.eq {m e m' e' : ℕ} (h : IsNormal m e) (h' : IsNormal m' e')
    (heq : m * 2 ^ e = m' * 2 ^ e') : m = m' ∧ e = e' := by
  have hscale : e = e' := by rw [← log2_of_isNormal h, heq, log2_of_isNormal h']
  subst hscale
  exact ⟨Nat.eq_of_mul_eq_mul_right (by positivity) heq, rfl⟩

/-- The significand and the scale of a rounded ratio, whether the scale is in range or not. -/
def ratioParts (n d : ℕ) : ℕ × ℕ :=
  if ratioSignificand n d = 2 ^ precision then (2 ^ (precision - 1), ratioScale n d + 1)
  else (ratioSignificand n d, ratioScale n d)

theorem ofRatio_eq_pack (negative : Bool) (n d : ℕ) :
    ofRatio negative n d = pack negative (ratioParts n d).1 (ratioParts n d).2 := by
  rw [ofRatio_eq, ratioParts]
  split_ifs <;> rfl

theorem isNormal_ratioParts (n : ℕ) {d : ℕ} (hd : 0 < d) :
    IsNormal (ratioParts n d).1 (ratioParts n d).2 := by
  have hle := ratioSignificand_le n hd
  rw [ratioParts]
  split_ifs with hcarry
  · exact ⟨show 2 ^ (precision - 1) < 2 ^ precision by decide, .inl le_rfl⟩
  · refine ⟨by omega, ?_⟩
    by_cases hzero : ratioScale n d = 0
    · exact .inr hzero
    · exact .inl (le_ratioSignificand hd hzero)

/-- The carry changes neither what is counted nor that the significand is even. -/
theorem ratioParts_carry (n d : ℕ) :
    (ratioParts n d).1 * 2 ^ (ratioParts n d).2 = ratioSignificand n d * 2 ^ ratioScale n d ∧
      (ratioSignificand n d % 2 = 0 → (ratioParts n d).1 % 2 = 0) := by
  rw [ratioParts]
  split_ifs with hcarry
  · refine ⟨?_, fun _ => show 2 ^ (precision - 1) % 2 = 0 by decide⟩
    have hsplit : 2 ^ precision = 2 ^ (precision - 1) * 2 := by decide
    rw [hcarry, hsplit, pow_succ 2 (ratioScale n d), mul_comm (2 ^ ratioScale n d) 2, mul_assoc]
  · exact ⟨rfl, id⟩

theorem distance_ratioParts (n : ℕ) {d m e : ℕ} (hd : 0 < d) (h : IsNormal m e) :
    distance (n * unitsPerOne) d ((ratioParts n d).1 * 2 ^ (ratioParts n d).2) ≤
        distance (n * unitsPerOne) d (m * 2 ^ e) ∧
      (m * 2 ^ e ≠ (ratioParts n d).1 * 2 ^ (ratioParts n d).2 →
        distance (n * unitsPerOne) d ((ratioParts n d).1 * 2 ^ (ratioParts n d).2) =
          distance (n * unitsPerOne) d (m * 2 ^ e) →
        (ratioParts n d).1 % 2 = 0 ∧ m % 2 = 1) := by
  obtain ⟨hvalue, heven⟩ := ratioParts_carry n d
  obtain ⟨hle, htie⟩ := distance_scaled (e := e) hd h.lt (le_ratio (n := n) hd)
  rw [hvalue, ratioSignificand]
  refine ⟨hle, fun hne heq => ?_⟩
  obtain ⟨hr, hm⟩ := htie hne heq
  exact ⟨heven hr, hm⟩

end JsonAssert.Binary64
