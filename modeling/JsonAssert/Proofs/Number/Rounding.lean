import Mathlib
import JsonAssert.Number.Decimal

/-! Rounding of a ratio to a float: it depends on the value of the ratio alone, it keeps what a
float holds exactly, and it overflows exactly from half a step above the largest float on. -/
namespace JsonAssert.Binary64

theorem roundHalfEven_cases (n d : ℕ) :
    (roundHalfEven n d = n / d ∧ 2 * (n % d) ≤ d) ∨
      (roundHalfEven n d = n / d + 1 ∧ d ≤ 2 * (n % d)) := by
  unfold roundHalfEven
  dsimp only
  split_ifs with hbelow habove
  · exact .inl ⟨rfl, hbelow.le⟩
  · exact .inr ⟨rfl, habove.le⟩
  · rcases Nat.mod_two_eq_zero_or_one (n / d) with he | ho
    · exact .inl ⟨by omega, by omega⟩
    · exact .inr ⟨by omega, by omega⟩

theorem roundHalfEven_mul_right (n d : ℕ) {c : ℕ} (hc : 0 < c) :
    roundHalfEven (n * c) (d * c) = roundHalfEven n d := by
  unfold roundHalfEven
  have hbelow : 2 * (n % d * c) < d * c ↔ 2 * (n % d) < d := by
    rw [← mul_assoc, Nat.mul_lt_mul_right hc]
  have habove : d * c < 2 * (n % d * c) ↔ d < 2 * (n % d) := by
    rw [← mul_assoc, Nat.mul_lt_mul_right hc]
  simp only [Nat.mul_div_mul_right _ _ hc, Nat.mul_mod_mul_right, hbelow, habove]

theorem roundHalfEven_mul_self (k : ℕ) {d : ℕ} (hd : 0 < d) : roundHalfEven (k * d) d = k := by
  simp [roundHalfEven, Nat.mul_div_cancel k hd, hd]

/-- A half below an even number is rounded up to it. -/
theorem le_roundHalfEven_iff {n d k : ℕ} (hd : 0 < d) (hk : k % 2 = 0) :
    k ≤ roundHalfEven n d ↔ 2 * (k * d) ≤ 2 * n + d := by
  have hdiv := Nat.div_add_mod n d
  have hmod := Nat.mod_lt n hd
  have hside : k ≤ n / d ∨ n / d + 1 = k ∨ n / d + 2 ≤ k := by omega
  rcases hside with hle | heq | hlt
  · have hmul : k * d ≤ d * (n / d) := by
      rw [mul_comm]
      exact Nat.mul_le_mul_left d hle
    rcases roundHalfEven_cases n d with ⟨he, -⟩ | ⟨he, -⟩ <;> rw [he] <;> constructor <;>
      intro _ <;> omega
  · have hmul : k * d = d * (n / d) + d := by rw [← heq, Nat.succ_mul, mul_comm]
    have hodd : n / d % 2 = 1 := by omega
    rw [roundHalfEven]
    split_ifs <;> constructor <;> intro _ <;> omega
  · have hmul : d * (n / d) + 2 * d ≤ k * d := by
      have := Nat.mul_le_mul_right d hlt
      rwa [Nat.add_mul, mul_comm (n / d)] at this
    rcases roundHalfEven_cases n d with ⟨he, -⟩ | ⟨he, -⟩ <;> rw [he] <;> constructor <;>
      intro _ <;> omega

/-- The scale at which a ratio is rounded. -/
def ratioScale (n d : ℕ) : ℕ := (n * unitsPerOne / d).log2 + 1 - precision

def ratioSignificand (n d : ℕ) : ℕ :=
  roundHalfEven (n * unitsPerOne) (d * 2 ^ ratioScale n d)

theorem ofRatio_eq (negative : Bool) (n d : ℕ) :
    ofRatio negative n d =
      if ratioSignificand n d = 2 ^ precision then
        pack negative (2 ^ (precision - 1)) (ratioScale n d + 1)
      else pack negative (ratioSignificand n d) (ratioScale n d) := rfl

/-- Only the value of a ratio counts. -/
theorem ofRatio_mul_right (negative : Bool) (n d : ℕ) {c : ℕ} (hc : 0 < c) :
    ofRatio negative (n * c) (d * c) = ofRatio negative n d := by
  have hscale : ratioScale (n * c) (d * c) = ratioScale n d := by
    rw [ratioScale, mul_right_comm, Nat.mul_div_mul_right _ _ hc, ratioScale]
  have hsignificand : ratioSignificand (n * c) (d * c) = ratioSignificand n d := by
    rw [ratioSignificand, hscale, mul_right_comm, mul_right_comm d,
      roundHalfEven_mul_right _ _ hc, ratioSignificand]
  rw [ofRatio_eq, hscale, hsignificand, ← ofRatio_eq]

theorem ofRatio_congr (negative : Bool) {n d n' d' : ℕ} (hd : 0 < d) (hd' : 0 < d')
    (h : n * d' = n' * d) : ofRatio negative n d = ofRatio negative n' d' := by
  rw [← ofRatio_mul_right negative n d hd', h, mul_comm d d', ofRatio_mul_right _ _ _ hd]

theorem pack_of_canonical (negative : Bool) {significand scale : ℕ}
    (h : Canonical significand scale) :
    pack negative significand scale = .finite negative significand scale h := by
  rw [pack, dif_pos h]

theorem pack_cases (negative : Bool) (significand scale : ℕ) :
    (∃ h, pack negative significand scale = .finite negative significand scale h) ∨
      pack negative significand scale = .infinite negative := by
  unfold pack
  split_ifs with h
  · exact .inl ⟨h, rfl⟩
  · exact .inr rfl

/-- A rounded ratio is a number, with the sign that was asked for. -/
theorem ofRatio_cases (negative : Bool) (n d : ℕ) :
    (∃ significand scale h, ofRatio negative n d = .finite negative significand scale h) ∨
      ofRatio negative n d = .infinite negative := by
  rw [ofRatio_eq]
  split_ifs
  · rcases pack_cases negative (2 ^ (precision - 1)) (ratioScale n d + 1) with ⟨h, hpack⟩ | hpack
    · exact .inl ⟨_, _, h, hpack⟩
    · exact .inr hpack
  · rcases pack_cases negative (ratioSignificand n d) (ratioScale n d) with ⟨h, hpack⟩ | hpack
    · exact .inl ⟨_, _, h, hpack⟩
    · exact .inr hpack

theorem log2_normal {significand : ℕ} (scale : ℕ) (hlow : 2 ^ (precision - 1) ≤ significand)
    (hhigh : significand < 2 ^ precision) :
    (significand * 2 ^ scale).log2 = scale + (precision - 1) := by
  have hpos : 0 < significand := lt_of_lt_of_le (by decide) hlow
  rw [Nat.log2_eq_iff (by positivity)]
  constructor
  · rw [pow_add, mul_comm]
    exact Nat.mul_le_mul_right _ hlow
  · have hexponent : scale + (precision - 1) + 1 = precision + scale := by
      simp only [precision]
      omega
    rw [hexponent, pow_add]
    exact Nat.mul_lt_mul_of_pos_right hhigh (by positivity)

/-- A significand and a scale in the one way that the format has for them, but for its largest
scale. -/
structure IsNormal (significand scale : ℕ) : Prop where
  lt : significand < 2 ^ precision
  normal : 2 ^ (precision - 1) ≤ significand ∨ scale = 0

theorem canonical_iff {significand scale : ℕ} :
    Canonical significand scale ↔ IsNormal significand scale ∧ scale ≤ maxScale :=
  ⟨fun h => ⟨⟨h.lt, h.normal⟩, h.le⟩, fun h => ⟨h.1.lt, h.1.normal, h.2⟩⟩

theorem log2_of_isNormal {significand scale : ℕ} (h : IsNormal significand scale) :
    (significand * 2 ^ scale).log2 + 1 - precision = scale := by
  rcases h.normal with hnormal | rfl
  · rw [log2_normal scale hnormal h.lt]
    simp only [precision]
    omega
  · rw [pow_zero, mul_one]
    by_cases hzero : significand = 0
    · simp [hzero, precision]
    · have hlog := (Nat.log2_lt hzero).mpr h.lt
      omega

/-- What a float holds exactly is not changed by rounding. -/
theorem ofRatio_exact (negative : Bool) {n d significand scale : ℕ} (hd : 0 < d)
    (h : Canonical significand scale) (hn : n * unitsPerOne = significand * 2 ^ scale * d) :
    ofRatio negative n d = .finite negative significand scale h := by
  have hscale : ratioScale n d = scale := by
    rw [ratioScale, hn, Nat.mul_div_cancel _ hd, log2_of_isNormal (canonical_iff.mp h).1]
  have hsignificand : ratioSignificand n d = significand := by
    rw [ratioSignificand, hscale, hn, mul_assoc, mul_comm (2 ^ scale) d,
      roundHalfEven_mul_self _ (by positivity)]
  rw [ofRatio_eq, hscale, hsignificand, if_neg h.lt.ne, pack_of_canonical]

/-- At its scale a ratio has at most the bits of a significand. -/
theorem ratio_lt (n : ℕ) {d : ℕ} (hd : 0 < d) :
    n * unitsPerOne < d * 2 ^ (ratioScale n d + precision) := by
  have hlog := Nat.lt_log2_self (n := n * unitsPerOne / d)
  have hexponent : (n * unitsPerOne / d).log2 + 1 ≤ ratioScale n d + precision := by
    simp only [ratioScale]
    omega
  rw [mul_comm d, ← Nat.div_lt_iff_lt_mul hd]
  exact hlog.trans_le (Nat.pow_le_pow_right (by decide) hexponent)

theorem le_ratio {n d : ℕ} (hd : 0 < d) (hscale : ratioScale n d ≠ 0) :
    d * 2 ^ (ratioScale n d + (precision - 1)) ≤ n * unitsPerOne := by
  have hlog : (n * unitsPerOne / d).log2 = ratioScale n d + (precision - 1) := by
    simp only [ratioScale, precision] at hscale ⊢
    omega
  have hquotient : n * unitsPerOne / d ≠ 0 := by
    intro hzero
    simp only [hzero, Nat.log2_zero, precision] at hlog
    omega
  rw [mul_comm d, ← Nat.le_div_iff_mul_le hd, ← hlog]
  exact Nat.log2_self_le hquotient

theorem ratioSignificand_le (n : ℕ) {d : ℕ} (hd : 0 < d) : ratioSignificand n d ≤ 2 ^ precision := by
  have hquotient : n * unitsPerOne / (d * 2 ^ ratioScale n d) < 2 ^ precision := by
    rw [Nat.div_lt_iff_lt_mul (by positivity), mul_comm (2 ^ precision), mul_assoc, ← pow_add]
    exact ratio_lt n hd
  unfold ratioSignificand
  rcases roundHalfEven_cases (n * unitsPerOne) (d * 2 ^ ratioScale n d) with ⟨he, -⟩ | ⟨he, -⟩ <;>
    omega

theorem le_ratioSignificand {n d : ℕ} (hd : 0 < d) (hscale : ratioScale n d ≠ 0) :
    2 ^ (precision - 1) ≤ ratioSignificand n d := by
  have hquotient : 2 ^ (precision - 1) ≤ n * unitsPerOne / (d * 2 ^ ratioScale n d) := by
    rw [Nat.le_div_iff_mul_le (by positivity), mul_comm (2 ^ (precision - 1)), mul_assoc,
      ← pow_add]
    exact le_ratio hd hscale
  unfold ratioSignificand
  rcases roundHalfEven_cases (n * unitsPerOne) (d * 2 ^ ratioScale n d) with ⟨he, -⟩ | ⟨he, -⟩ <;>
    omega

theorem pack_eq_finite_iff {negative b : Bool} {m e significand scale : ℕ}
    {h : Canonical significand scale} :
    pack negative m e = .finite b significand scale h ↔
      negative = b ∧ m = significand ∧ e = scale := by
  unfold pack
  split_ifs with hcanonical
  · simp
  · simp only [false_iff]
    rintro ⟨-, rfl, rfl⟩
    exact hcanonical h

theorem pack_eq_infinite_iff (negative : Bool) (significand scale : ℕ) :
    pack negative significand scale = .infinite negative ↔ ¬ Canonical significand scale := by
  unfold pack
  split_ifs with h <;> simp [h]

/-- A ratio overflows when its scale does, also by a carry into the next scale. -/
theorem ofRatio_eq_infinite_iff_scale (negative : Bool) (n : ℕ) {d : ℕ} (hd : 0 < d) :
    ofRatio negative n d = .infinite negative ↔
      maxScale < ratioScale n d ∨
        ratioScale n d = maxScale ∧ 2 ^ precision ≤ ratioSignificand n d := by
  have hle := ratioSignificand_le n hd
  rw [ofRatio_eq]
  split_ifs with hcarry
  · rw [pack_eq_infinite_iff]
    constructor
    · intro h
      by_contra hscale
      exact h ⟨by decide, .inl le_rfl, by omega⟩
    · intro h hcanonical
      have := hcanonical.le
      omega
  · rw [pack_eq_infinite_iff]
    constructor
    · intro h
      by_contra hscale
      refine h ⟨by omega, ?_, by omega⟩
      by_cases hzero : ratioScale n d = 0
      · exact .inr hzero
      · exact .inl (le_ratioSignificand hd hzero)
    · intro h hcanonical
      have := hcanonical.le
      omega

/-- The bits of the half step above the largest float that stand before the point. -/
def halfStepBits : ℕ := 970

/-- Half a step above the largest float, where the even neighbour is out of range. -/
def overflow : ℕ := (2 ^ (precision + 1) - 1) * 2 ^ halfStepBits

theorem overflow_mul_le_iff (n d : ℕ) :
    overflow * d ≤ n ↔
      (2 ^ (precision + 1) - 1) * (d * 2 ^ (maxScale - 1)) ≤ n * unitsPerOne := by
  have hunits : 0 < unitsPerOne := Nat.two_pow_pos _
  have hbits : maxScale - 1 = halfStepBits + unitBits := rfl
  have hpow : 2 ^ (maxScale - 1) = 2 ^ halfStepBits * unitsPerOne := by
    rw [unitsPerOne, hbits, pow_add]
  rw [← Nat.mul_le_mul_right_iff hunits, hpow, overflow, mul_assoc, mul_assoc,
    mul_left_comm d, mul_comm d]

/-- Rounding overflows exactly from half a step above the largest float on. -/
theorem ofRatio_eq_infinite_iff (negative : Bool) (n : ℕ) {d : ℕ} (hd : 0 < d) :
    ofRatio negative n d = .infinite negative ↔ overflow * d ≤ n := by
  rw [ofRatio_eq_infinite_iff_scale negative n hd, overflow_mul_le_iff]
  have hlt := ratio_lt n hd
  have hmax : 1 ≤ maxScale := by decide
  rcases lt_trichotomy (ratioScale n d) maxScale with hscale | hscale | hscale
  · have hpow : d * 2 ^ (ratioScale n d + precision) ≤
        2 ^ precision * (d * 2 ^ (maxScale - 1)) := by
      rw [mul_left_comm, ← pow_add]
      exact Nat.mul_le_mul_left d (Nat.pow_le_pow_right (by decide) (by omega))
    simp only [precision] at hpow hlt ⊢
    constructor
    · rintro (h | ⟨h, -⟩) <;> omega
    · intro h
      omega
  · have hpow : d * 2 ^ ratioScale n d = 2 * (d * 2 ^ (maxScale - 1)) := by
      rw [mul_left_comm, ← pow_succ', hscale, Nat.sub_add_cancel hmax]
    have hround := le_roundHalfEven_iff (n := n * unitsPerOne) (d := d * 2 ^ ratioScale n d)
      (k := 2 ^ precision) (by positivity) (by decide)
    rw [ratioSignificand, hround, hpow]
    simp only [precision]
    constructor
    · rintro (h | ⟨-, h⟩) <;> omega
    · intro h
      exact .inr ⟨hscale, by omega⟩
  · have hge := le_ratio (n := n) hd (by omega)
    have hpow : 2 ^ (precision + 1) * (d * 2 ^ (maxScale - 1)) ≤
        d * 2 ^ (ratioScale n d + (precision - 1)) := by
      rw [mul_left_comm, ← pow_add]
      refine Nat.mul_le_mul_left d (Nat.pow_le_pow_right (by decide) ?_)
      simp only [precision]
      omega
    simp only [precision] at hpow hge ⊢
    constructor
    · intro _
      omega
    · intro _
      exact .inl hscale

/-- What is less than half the least float is rounded to zero. -/
theorem ofRatio_eq_zero (negative : Bool) {n d : ℕ} (h : 2 * (n * unitsPerOne) < d) :
    ofRatio negative n d = zero negative := by
  have hquotient : n * unitsPerOne / d = 0 := Nat.div_eq_of_lt (by omega)
  have hscale : ratioScale n d = 0 := by simp [ratioScale, hquotient, precision]
  have hsignificand : ratioSignificand n d = 0 := by
    rw [ratioSignificand, hscale, pow_zero, mul_one, roundHalfEven, hquotient,
      Nat.mod_eq_of_lt (by omega), if_pos h]
  rw [ofRatio_eq, hscale, hsignificand, if_neg (by decide)]
  rfl

end JsonAssert.Binary64
