import JsonAssert.Proofs.Number.Nearest

/-! Numbers are equal when they have one value: a rational number, or one of the two infinities. -/
namespace JsonAssert.Number
open Binary64

/-- The exact value, on the line of the rational numbers with a point at each end. -/
def value? : Number → Option (WithBotTop ℚ)
  | .int n => some (n : ℚ)
  | .float (.finite negative significand scale _) =>
    some (signed negative (magnitude significand scale) : ℚ)
  | .float (.infinite negative) => some (if negative then ⊥ else ⊤)
  | .float .nan => none

theorem value?_eq_none_iff {n : Number} : n.value? = none ↔ n = .float .nan := by
  cases n with
  | int i => simp [value?]
  | float x => cases x <;> simp [value?]

/-! Units -/

def ofUnits (u : ℤ) : WithBotTop ℚ := (u / unitsPerOne : ℚ)

theorem ofUnits_inj {u u' : ℤ} : ofUnits u = ofUnits u' ↔ u = u' := by
  rw [ofUnits, ofUnits, WithBotTop.coe_injective.eq_iff, div_left_inj' unitsPerOne_pos.ne',
    Int.cast_inj]

theorem value?_of_units? {n : Number} {u : ℤ} (h : n.units? = some u) :
    n.value? = some (ofUnits u) := by
  cases n with
  | int i =>
    obtain rfl : i * (unitsPerOne : ℤ) = u := Option.some.inj h
    rw [value?, ofUnits, Int.cast_mul, Int.cast_natCast,
      mul_div_cancel_right₀ _ unitsPerOne_pos.ne']
  | float x =>
    cases x with
    | finite negative significand scale canonical =>
      rw [value?, signed, magnitude, ofUnits]
      cases negative with
      | true =>
        obtain rfl := Option.some.inj h
        rw [if_pos rfl, Int.cast_neg, neg_div, Int.cast_natCast]
      | false =>
        obtain rfl := Option.some.inj h
        rw [if_neg Bool.false_ne_true, Int.cast_natCast]
    | _ => cases h

theorem float_cases_of_units? {n : Number} (h : n.units? = none) :
    n = .float .nan ∨ ∃ negative, n = .float (.infinite negative) := by
  cases n with
  | int i => cases h
  | float x =>
    cases x with
    | finite negative _ _ _ => cases negative <;> cases h
    | infinite negative => exact .inr ⟨negative, rfl⟩
    | nan => exact .inl rfl

theorem value?_ne_ofUnits {n : Number} (h : n.units? = none) (u : ℤ) :
    n.value? ≠ some (ofUnits u) := by
  rw [ofUnits]
  generalize (u : ℚ) / unitsPerOne = q
  rcases float_cases_of_units? h with rfl | ⟨negative, rfl⟩
  · simp [value?]
  · cases negative <;> simp [value?, Ne.symm]

theorem eq_iff_of_units? {m n : Number} (hm : m.units? = none) (hn : n.units? = none) :
    m = n ∧ m ≠ .float .nan ↔ ∃ v, m.value? = some v ∧ n.value? = some v := by
  rcases float_cases_of_units? hm with rfl | ⟨b, rfl⟩
  · simp [value?]
  · rcases float_cases_of_units? hn with rfl | ⟨c, rfl⟩
    · simp [value?]
    · cases b <;> cases c <;> simp [value?]

/-- Equality of numbers is equality of their values; what has none equals nothing. -/
theorem same_iff {m n : Number} :
    m.same n = true ↔ ∃ v, m.value? = some v ∧ n.value? = some v := by
  rw [same]
  cases hm : m.units? with
  | some u =>
    rw [value?_of_units? hm]
    cases hn : n.units? with
    | some u' => simp [value?_of_units? hn, ofUnits_inj, @eq_comm ℤ u']
    | none => simp [value?_ne_ofUnits hn]
  | none =>
    cases hn : n.units? with
    | some u => simp [value?_of_units? hn, value?_ne_ofUnits hm]
    | none => simpa using eq_iff_of_units? hm hn

end JsonAssert.Number
