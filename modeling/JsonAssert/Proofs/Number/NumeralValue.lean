import JsonAssert.Proofs.Json.Acceptance
import JsonAssert.Proofs.Json.NumeralWriting
import JsonAssert.Proofs.Number.Nearest

/-! What a numeral is read as, by its exact value: an integer where the digits alone give one that is
in range, and the nearest float in all other cases. -/
namespace JsonAssert

namespace Numeral
open Binary64

/-- The exact value of a numeral without its sign. -/
def magnitude (n : Numeral) : ℚ :=
  (natural n.whole + natural (n.fraction.getD []) / 10 ^ (n.fraction.getD []).length) * 10 ^ n.power

theorem magnitude_eq (n : Numeral) : n.magnitude = n.decimal.value := by
  rw [magnitude, decimal, Decimal.value, natural_append, zpow_sub₀ (by norm_num), zpow_natCast]
  push_cast
  field_simp

theorem magnitude_nonneg (n : Numeral) : 0 ≤ n.magnitude := by
  rw [magnitude_eq, Decimal.value]
  positivity

def value (n : Numeral) : ℚ := signed n.negative n.magnitude

/-- The digits before the point with their sign. -/
def integer (n : Numeral) : ℤ := if n.negative then -natural n.whole else natural n.whole

/-- A numeral of digits alone for an integer that is read exactly. -/
structure IsExact (n : Numeral) : Prop where
  isInteger : n.IsInteger
  le : -2 ^ (integerBits - 1) ≤ n.integer
  lt : n.integer < 2 ^ integerBits

/-- The number that a numeral is read as. -/
inductive Reads (n : Numeral) : Number → Prop
  | int : n.IsExact → Reads n (.int n.integer)
  | float {x : Binary64} : ¬ n.IsExact → RoundsTo n.negative n.magnitude x → x.IsNearest n.value →
      Reads n (.float x)

theorem int?_of_isInteger {n : Numeral} (h : n.IsInteger) :
    n.int? = if -2 ^ (integerBits - 1) ≤ n.integer ∧ n.integer < 2 ^ integerBits then some n.integer
      else none := by
  obtain ⟨negative, whole, fraction, exponent⟩ := n
  obtain ⟨rfl, rfl⟩ : fraction = none ∧ exponent = none := h
  cases negative
  · simp only [int?, integer, integerBits, Bool.false_eq_true, if_false]
    refine if_congr ?_ rfl rfl
    omega
  · simp only [int?, integer, integerBits, if_true]
    refine if_congr ?_ rfl rfl
    omega

theorem int?_eq_some_iff {n : Numeral} {i : ℤ} : n.int? = some i ↔ n.IsExact ∧ n.integer = i := by
  by_cases hinteger : n.IsInteger
  · rw [int?_of_isInteger hinteger]
    constructor
    · intro h
      obtain ⟨⟨hle, hlt⟩, hi⟩ : _ ∧ _ := by simpa using h
      exact ⟨⟨hinteger, hle, hlt⟩, hi⟩
    · rintro ⟨⟨-, hle, hlt⟩, rfl⟩
      rw [if_pos ⟨hle, hlt⟩]
  · rw [int?_of_not_isInteger hinteger]
    constructor
    · intro h
      simp at h
    · rintro ⟨h, -⟩
      exact absurd h.isInteger hinteger

theorem roundsTo_of_float {n : Numeral} {negative : Bool} {significand scale : ℕ}
    {h : Canonical significand scale} (hfloat : n.float = .finite negative significand scale h) :
    RoundsTo n.negative n.magnitude (.finite negative significand scale h) := by
  obtain rfl : n.negative = negative := by
    rcases n.float_cases with ⟨m, e, hcanonical, heq⟩ | heq
    · exact (Binary64.finite.inj (heq.symm.trans hfloat)).1
    · simp [heq] at hfloat
  rw [roundsTo_finite_iff, magnitude_eq, ← ofDecimal_eq_finite_iff h]
  exact ⟨rfl, hfloat⟩

/-- The nearest float would have a scale that is out of range. -/
def IsOutOfRange (n : Numeral) : Prop :=
  ∃ significand scale, IsRounding n.magnitude significand scale ∧ maxScale < scale

theorem overflows_iff (n : Numeral) : n.Overflows ↔ n.IsOutOfRange := by
  rw [IsOutOfRange, magnitude_eq, ← ofDecimal_eq_infinite_iff_isRounding n.negative,
    ofDecimal_eq_infinite_iff]
  rfl

theorem number?_eq_some_iff {n : Numeral} {x : Number} : n.number? = some x ↔ n.Reads x := by
  constructor
  · intro h
    unfold number? at h
    split at h
    · next i hint =>
      obtain ⟨hexact, rfl⟩ := int?_eq_some_iff.mp hint
      obtain rfl := Option.some.inj h
      exact .int hexact
    · next hint =>
      have hexact : ¬ n.IsExact := fun hexact => by
        simp [int?_eq_some_iff.mpr ⟨hexact, rfl⟩] at hint
      rcases n.float_cases with ⟨significand, scale, hcanonical, hfloat⟩ | hfloat
      · obtain rfl : Number.float (.finite n.negative significand scale hcanonical) = x := by
          simpa [hfloat] using h
        have hround := roundsTo_of_float hfloat
        exact .float hexact hround (hround.isNearest n.magnitude_nonneg)
      · simp [hfloat] at h
  · rintro (hexact | ⟨hexact, hround, -⟩)
    · rw [number?, int?_eq_some_iff.mpr ⟨hexact, rfl⟩]
    · have hint : n.int? = none := by
        by_contra hsome
        obtain ⟨i, hi⟩ := Option.ne_none_iff_exists'.mp hsome
        exact hexact (int?_eq_some_iff.mp hi).1
      obtain ⟨significand, scale, hcanonical, rfl, hround⟩ := hround
      rw [magnitude_eq] at hround
      have hfloat : n.float = .finite n.negative significand scale hcanonical :=
        (ofDecimal_eq_finite_iff hcanonical).mpr hround
      rw [number?, hint, hfloat]

theorem exists_reads_iff (n : Numeral) : (∃ x, n.Reads x) ↔ ¬ n.IsOutOfRange := by
  simp only [← number?_eq_some_iff]
  rw [n.exists_number?_iff, n.overflows_iff]

end Numeral

end JsonAssert
