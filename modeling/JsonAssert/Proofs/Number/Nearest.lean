import JsonAssert.Proofs.Number.DecimalRounding
import JsonAssert.Proofs.Number.Distance

/-! Rounding gives the nearest float. Magnitudes are exact rationals: a magnitude is rounded to the
nearest of all significands at all scales, of two equally near ones to the even one, and there is one
rounding of a magnitude. -/
namespace JsonAssert.Binary64

/-! Exact magnitudes -/

theorem unitsPerOne_pos : (0 : ℚ) < unitsPerOne := by
  exact_mod_cast show 0 < unitsPerOne from Nat.two_pow_pos _

/-- What a significand counts at a scale. -/
def magnitude (significand scale : ℕ) : ℚ := (significand * 2 ^ scale : ℕ) / unitsPerOne

theorem magnitude_nonneg (significand scale : ℕ) : 0 ≤ magnitude significand scale :=
  div_nonneg (Nat.cast_nonneg _) unitsPerOne_pos.le

theorem magnitude_zero (scale : ℕ) : magnitude 0 scale = 0 := by
  rw [magnitude, zero_mul, Nat.cast_zero, zero_div]

theorem magnitude_inj {m e m' e' : ℕ} :
    magnitude m e = magnitude m' e' ↔ m * 2 ^ e = m' * 2 ^ e' := by
  rw [magnitude, magnitude, div_left_inj' unitsPerOne_pos.ne', Nat.cast_inj]

/-- The significand at its scale is the nearest of all to a magnitude, and even where another is as
near. -/
structure IsRounding (q : ℚ) (significand scale : ℕ) : Prop where
  normal : IsNormal significand scale
  nearest {m e : ℕ} : IsNormal m e → |magnitude significand scale - q| ≤ |magnitude m e - q|
  even {m e : ℕ} : IsNormal m e → magnitude m e ≠ magnitude significand scale →
    |magnitude m e - q| = |magnitude significand scale - q| → significand % 2 = 0

theorem abs_magnitude_sub (m e n : ℕ) {d : ℕ} (hd : 0 < d) :
    |magnitude m e - (n : ℚ) / d| =
      distance (n * unitsPerOne) d (m * 2 ^ e) / ((unitsPerOne : ℚ) * d) := by
  have hunits := unitsPerOne_pos
  have hd' : (0 : ℚ) < d := by exact_mod_cast hd
  rw [magnitude, distance]
  generalize m * 2 ^ e = k at *
  generalize unitsPerOne = u at *
  have hdifference : (k : ℚ) / u - (n : ℚ) / d = ((k * d : ℕ) - (n * u : ℕ) : ℤ) / ((u : ℚ) * d) := by
    rw [div_sub_div _ _ hunits.ne' hd'.ne']
    push_cast
    ring
  rw [hdifference, abs_div, abs_of_pos (mul_pos hunits hd'), Nat.cast_natAbs, Int.cast_abs]

theorem abs_magnitude_sub_le_iff {m e m' e' n d : ℕ} (hd : 0 < d) :
    |magnitude m e - (n : ℚ) / d| ≤ |magnitude m' e' - (n : ℚ) / d| ↔
      distance (n * unitsPerOne) d (m * 2 ^ e) ≤ distance (n * unitsPerOne) d (m' * 2 ^ e') := by
  have hpos : (0 : ℚ) < unitsPerOne * d := mul_pos unitsPerOne_pos (by exact_mod_cast hd)
  rw [abs_magnitude_sub _ _ _ hd, abs_magnitude_sub _ _ _ hd, div_le_div_iff_of_pos_right hpos,
    Nat.cast_le]

theorem abs_magnitude_sub_eq_iff {m e m' e' n d : ℕ} (hd : 0 < d) :
    |magnitude m e - (n : ℚ) / d| = |magnitude m' e' - (n : ℚ) / d| ↔
      distance (n * unitsPerOne) d (m * 2 ^ e) = distance (n * unitsPerOne) d (m' * 2 ^ e') := by
  rw [le_antisymm_iff, abs_magnitude_sub_le_iff hd, abs_magnitude_sub_le_iff hd, le_antisymm_iff]

theorem isRounding_ratioParts (n : ℕ) {d : ℕ} (hd : 0 < d) :
    IsRounding (n / d) (ratioParts n d).1 (ratioParts n d).2 where
  normal := isNormal_ratioParts n hd
  nearest h := (abs_magnitude_sub_le_iff hd).mpr (distance_ratioParts n hd h).1
  even h hne htie :=
    ((distance_ratioParts n hd h).2 (fun heq => hne (magnitude_inj.mpr heq))
      ((abs_magnitude_sub_eq_iff hd).mp htie.symm)).1

/-- A ratio has one rounding: of two, each would be as near as the other, and one of them odd. -/
theorem IsRounding.eq_ratioParts {n d m e : ℕ} (hd : 0 < d) (h : IsRounding (n / d) m e) :
    m = (ratioParts n d).1 ∧ e = (ratioParts n d).2 := by
  have hparts := isNormal_ratioParts n hd
  obtain ⟨hle, hodd⟩ := distance_ratioParts n hd h.normal
  have htie : distance (n * unitsPerOne) d ((ratioParts n d).1 * 2 ^ (ratioParts n d).2) =
      distance (n * unitsPerOne) d (m * 2 ^ e) :=
    le_antisymm hle ((abs_magnitude_sub_le_iff hd).mp (h.nearest hparts))
  refine h.normal.eq hparts ?_
  by_contra hne
  have hm : m % 2 = 0 :=
    h.even hparts (fun heq => hne (magnitude_inj.mp heq.symm)) ((abs_magnitude_sub_eq_iff hd).mpr htie)
  exact absurd (hm.symm.trans (hodd hne htie).2) (by decide)

theorem isRounding_iff {n d m e : ℕ} (hd : 0 < d) :
    IsRounding (n / d) m e ↔ ratioParts n d = (m, e) := by
  constructor
  · intro h
    obtain ⟨hm, he⟩ := h.eq_ratioParts hd
    exact Prod.ext hm.symm he.symm
  · intro h
    have hround := isRounding_ratioParts n hd
    rwa [h] at hround

theorem ofRatio_eq_finite_iff {negative : Bool} {n d significand scale : ℕ} (hd : 0 < d)
    (h : Canonical significand scale) :
    ofRatio negative n d = .finite negative significand scale h ↔
      IsRounding (n / d) significand scale := by
  rw [ofRatio_eq_pack, pack_eq_finite_iff, isRounding_iff hd, Prod.ext_iff]
  exact and_iff_right rfl

/-- A rounding is out of range from its scale on. -/
theorem ofRatio_eq_infinite_iff_isRounding (negative : Bool) (n : ℕ) {d : ℕ} (hd : 0 < d) :
    ofRatio negative n d = .infinite negative ↔
      ∃ significand scale, IsRounding (n / d) significand scale ∧ maxScale < scale := by
  have hround := isRounding_ratioParts n hd
  rw [ofRatio_eq_pack, pack_eq_infinite_iff, canonical_iff]
  constructor
  · intro h
    exact ⟨_, _, hround, by_contra fun hscale => h ⟨hround.normal, not_lt.mp hscale⟩⟩
  · rintro ⟨m, e, h, hscale⟩ hcanonical
    rw [isRounding_iff hd] at h
    rw [h] at hcanonical
    exact hscale.not_ge hcanonical.2

/-! Decimals -/

theorem ofDecimal_eq_finite_iff {negative : Bool} {d : Decimal} {significand scale : ℕ}
    (h : Canonical significand scale) :
    ofDecimal negative d = .finite negative significand scale h ↔
      IsRounding d.value significand scale := by
  rw [ofDecimal_eq_ofRatio, d.value_eq_div, ofRatio_eq_finite_iff d.denominator_pos]

theorem ofDecimal_eq_infinite_iff_isRounding (negative : Bool) (d : Decimal) :
    ofDecimal negative d = .infinite negative ↔
      ∃ significand scale, IsRounding d.value significand scale ∧ maxScale < scale := by
  rw [ofDecimal_eq_ofRatio, d.value_eq_div,
    ofRatio_eq_infinite_iff_isRounding negative _ d.denominator_pos]

/-! Between two values with one rounding -/

theorem abs_sub_le_iff_of_lt {v w q : ℚ} (h : v < w) : |v - q| ≤ |w - q| ↔ 2 * q ≤ v + w := by
  rw [← sq_le_sq]
  constructor <;> intro hle <;> nlinarith

theorem abs_sub_le_iff_of_gt {v w q : ℚ} (h : w < v) : |v - q| ≤ |w - q| ↔ v + w ≤ 2 * q := by
  rw [← sq_le_sq]
  constructor <;> intro hle <;> nlinarith

theorem abs_sub_eq_iff_of_ne {v w q : ℚ} (h : w ≠ v) : |w - q| = |v - q| ↔ v + w = 2 * q := by
  rcases lt_or_gt_of_ne h with hlt | hgt
  · rw [le_antisymm_iff, abs_sub_le_iff_of_lt hlt, abs_sub_le_iff_of_gt hlt, add_comm v,
      le_antisymm_iff, and_comm]
  · rw [le_antisymm_iff, abs_sub_le_iff_of_lt hgt, abs_sub_le_iff_of_gt hgt, add_comm w,
      le_antisymm_iff]

/-- What lies between two values with one rounding has this rounding. -/
theorem IsRounding.of_between {a q b : ℚ} {m e : ℕ} (ha : IsRounding a m e) (hb : IsRounding b m e)
    (hle : a ≤ q) (hge : q ≤ b) : IsRounding q m e := by
  refine ⟨ha.normal, fun {m' e'} h => ?_, fun {m' e'} h hne htie => ?_⟩
  · have hbelow := ha.nearest h
    have habove := hb.nearest h
    rcases lt_trichotomy (magnitude m e) (magnitude m' e') with hlt | heq | hgt
    · rw [abs_sub_le_iff_of_lt hlt] at habove ⊢
      linarith
    · rw [heq]
    · rw [abs_sub_le_iff_of_gt hgt] at hbelow ⊢
      linarith
  · -- A tie is an end of the values with this rounding, hence one of the two.
    have hmiddle := (abs_sub_eq_iff_of_ne hne).mp htie
    rcases lt_or_gt_of_ne hne.symm with hlt | hgt
    · have habove := (abs_sub_le_iff_of_lt hlt).mp (hb.nearest h)
      obtain rfl : q = b := by linarith
      exact hb.even h hne htie
    · have hbelow := (abs_sub_le_iff_of_gt hgt).mp (ha.nearest h)
      obtain rfl : q = a := by linarith
      exact ha.even h hne htie

/-! Floats -/

def signed (negative : Bool) (q : ℚ) : ℚ := if negative then -q else q

theorem abs_signed_sub_signed (negative : Bool) (p q : ℚ) :
    |signed negative p - signed negative q| = |p - q| := by
  cases negative
  · rfl
  · rw [signed, signed, if_pos rfl, if_pos rfl, neg_sub_neg, abs_sub_comm]

theorem signed_zero (negative : Bool) : signed negative 0 = 0 := by cases negative <;> simp [signed]

theorem signed_inj {negative : Bool} {p q : ℚ} : signed negative p = signed negative q ↔ p = q := by
  cases negative
  · rfl
  · exact neg_inj

/-- A value of the other sign is as far away as both values together. -/
theorem abs_signed_sub_signed_of_ne {b c : Bool} (hne : b ≠ c) {p q : ℚ} (hp : 0 ≤ p) (hq : 0 ≤ q) :
    |signed b p - signed c q| = p + q := by
  have hsum : 0 ≤ p + q := add_nonneg hp hq
  cases b <;> cases c
  · exact absurd rfl hne
  · rw [signed, signed, if_neg (by decide), if_pos rfl, sub_neg_eq_add, abs_of_nonneg hsum]
  · rw [signed, signed, if_pos rfl, if_neg (by decide), ← neg_add', abs_neg, abs_of_nonneg hsum]
  · exact absurd rfl hne

/-- The exact value of a finite float. -/
def value? : Binary64 → Option ℚ
  | .finite negative significand scale _ => some (signed negative (magnitude significand scale))
  | _ => none

theorem exists_finite_of_value? {x : Binary64} {r : ℚ} (h : x.value? = some r) :
    ∃ negative significand scale canonical, x = .finite negative significand scale canonical := by
  cases x with
  | finite => exact ⟨_, _, _, _, rfl⟩
  | _ => simp [value?] at h

def isNegative : Binary64 → Bool
  | .finite negative _ _ _ => negative
  | .infinite negative => negative
  | .nan => false

def HasEvenSignificand : Binary64 → Prop
  | .finite _ significand _ _ => significand % 2 = 0
  | _ => False

/-- No finite float is nearer to the value, and the float is even where another is as near. -/
structure IsNearest (v : ℚ) (x : Binary64) : Prop where
  finite : ∃ r, x.value? = some r
  nearest {y : Binary64} {r s : ℚ} : x.value? = some r → y.value? = some s → |r - v| ≤ |s - v|
  even {y : Binary64} {r s : ℚ} : x.value? = some r → y.value? = some s → s ≠ r →
    |s - v| = |r - v| → x.HasEvenSignificand

/-- The float has the sign that was asked for, and the parts of the rounded magnitude. -/
def RoundsTo (negative : Bool) (q : ℚ) (x : Binary64) : Prop :=
  ∃ significand scale h, x = .finite negative significand scale h ∧ IsRounding q significand scale

theorem roundsTo_finite_iff {b negative : Bool} {q : ℚ} {significand scale : ℕ}
    (h : Canonical significand scale) :
    RoundsTo b q (.finite negative significand scale h) ↔
      b = negative ∧ IsRounding q significand scale := by
  constructor
  · rintro ⟨m, e, _, heq, hround⟩
    injection heq with hb hm he
    exact ⟨hb.symm, hm ▸ he ▸ hround⟩
  · rintro ⟨rfl, hround⟩
    exact ⟨significand, scale, h, rfl, hround⟩

theorem isNormal_zero : IsNormal 0 0 := ⟨by decide, .inr rfl⟩

/-- Zero is one of the magnitudes that a rounding is as near as. -/
theorem IsRounding.abs_sub_le {q : ℚ} {m e : ℕ} (h : IsRounding q m e) (hq : 0 ≤ q) :
    |magnitude m e - q| ≤ q := by
  have hzero := h.nearest isNormal_zero
  rwa [magnitude_zero, zero_sub, abs_neg, abs_of_nonneg hq] at hzero

theorem IsRounding.signed_nearest {q : ℚ} {m e m' e' : ℕ} (h : IsRounding q m e) (hq : 0 ≤ q)
    (h' : IsNormal m' e') (negative b : Bool) :
    |signed negative (magnitude m e) - signed negative q| ≤
      |signed b (magnitude m' e') - signed negative q| := by
  rw [abs_signed_sub_signed]
  by_cases hb : b = negative
  · rw [hb, abs_signed_sub_signed]
    exact h.nearest h'
  · rw [abs_signed_sub_signed_of_ne hb (magnitude_nonneg _ _) hq]
    linarith [h.abs_sub_le hq, magnitude_nonneg m' e']

theorem IsRounding.signed_even {q : ℚ} {m e m' e' : ℕ} (h : IsRounding q m e) (hq : 0 ≤ q)
    (h' : IsNormal m' e') {negative b : Bool}
    (hne : signed b (magnitude m' e') ≠ signed negative (magnitude m e))
    (htie : |signed b (magnitude m' e') - signed negative q| =
      |signed negative (magnitude m e) - signed negative q|) : m % 2 = 0 := by
  rw [abs_signed_sub_signed] at htie
  by_cases hb : b = negative
  · rw [hb, abs_signed_sub_signed] at htie
    rw [hb, Ne, signed_inj] at hne
    exact h.even h' hne htie
  · -- On the other side only zero can be as near.
    rw [abs_signed_sub_signed_of_ne hb (magnitude_nonneg _ _) hq] at htie
    have hother : magnitude m' e' = 0 := by
      linarith [h.abs_sub_le hq, magnitude_nonneg m' e']
    rw [hother, signed_zero] at hne
    refine h.even h' (fun heq => hne ?_) ?_
    · rw [← heq, hother, signed_zero]
    · rw [← htie, hother, zero_sub, abs_neg, abs_of_nonneg hq, zero_add]

/-- Rounding gives the nearest of all finite floats, those of the other sign included. -/
theorem RoundsTo.isNearest {negative : Bool} {q : ℚ} {x : Binary64} (h : RoundsTo negative q x)
    (hq : 0 ≤ q) : x.IsNearest (signed negative q) := by
  obtain ⟨m, e, hcanonical, rfl, hround⟩ := h
  refine ⟨⟨_, rfl⟩, fun hr hs => ?_, fun hr hs hne htie => ?_⟩
  · obtain ⟨b, m', e', h', rfl⟩ := exists_finite_of_value? hs
    obtain ⟨rfl, rfl⟩ := And.intro (Option.some.inj hr) (Option.some.inj hs)
    exact hround.signed_nearest hq (canonical_iff.mp h').1 negative b
  · obtain ⟨b, m', e', h', rfl⟩ := exists_finite_of_value? hs
    obtain ⟨rfl, rfl⟩ := And.intro (Option.some.inj hr) (Option.some.inj hs)
    exact hround.signed_even hq (canonical_iff.mp h').1 hne htie

end JsonAssert.Binary64
