import JsonAssert.Proofs.Assertion.Reading
import JsonAssert.Proofs.Number.NumeralValue
import JsonAssert.Proofs.Number.ShortestSearch

/-! The literal of a float: a numeral that is rounded to the float, with as few digits as such a
numeral can have, and nearest to the float among those with as few. -/
namespace JsonAssert
open Grammar Binary64

/-! The shortest decimal -/

namespace Shortest

theorem value_exact (significand scale : ℕ) :
    (exact significand scale).value = magnitude significand scale := by
  have hunits : (unitsPerOne : ℚ) = 2 ^ unitBits := by
    rw [unitsPerOne]
    push_cast
    rfl
  have hten : (10 : ℚ) ^ unitBits = 2 ^ unitBits * 5 ^ unitBits := by
    rw [← mul_pow]
    norm_num
  rw [Decimal.value, exact, magnitude, hunits]
  generalize unitBits = k at *
  rw [zpow_neg, zpow_natCast, hten]
  push_cast
  field_simp

/-- The digits that can be dropped are no more than the search tries. -/
theorem log_le_bound {n : ℕ} (hn : n ≠ 0) : Nat.log 10 n ≤ n.log2 / 3 := by
  have hpow : 2 ^ (3 * Nat.log 10 n) < 2 ^ (n.log2 + 1) := by
    calc 2 ^ (3 * Nat.log 10 n) = 8 ^ Nat.log 10 n := by rw [pow_mul]; norm_num
      _ ≤ 10 ^ Nat.log 10 n := Nat.pow_le_pow_left (by decide) _
      _ ≤ n := Nat.pow_log_le_self 10 hn
      _ < 2 ^ (n.log2 + 1) := Nat.lt_log2_self
  have := (Nat.pow_lt_pow_iff_right (by decide)).mp hpow
  omega

variable {significand scale : ℕ}

theorem ordConnected_isRounding : {q | IsRounding q significand scale}.OrdConnected :=
  ⟨fun _ ha _ hb _ hq => IsRounding.of_between ha hb hq.1 hq.2⟩

theorem readsAs_iff (h : Canonical significand scale) (d : Decimal) :
    readsAs significand scale d = true ↔ d.value ∈ {q | IsRounding q significand scale} := by
  rw [readsAs, pack_of_canonical false h, beq_iff_eq, ofDecimal_eq_finite_iff h]
  rfl

/-- What is rounded to a float that is not zero is positive. -/
theorem pos_of_isRounding {q : ℚ} (h : IsRounding q significand scale) (hzero : significand ≠ 0) :
    0 < q := by
  have hpos : 0 < magnitude significand scale := by
    refine div_pos ?_ unitsPerOne_pos
    exact_mod_cast Nat.mul_pos (Nat.pos_of_ne_zero hzero) (by positivity)
  by_contra hneg
  have hnearest := h.nearest isNormal_zero
  rw [magnitude_zero, zero_sub, abs_neg, abs_of_nonpos (not_lt.mp hneg),
    abs_of_nonneg (by linarith)] at hnearest
  linarith

theorem decimal_shortest (h : Canonical significand scale) (hzero : significand ≠ 0) {p : ℕ} {q : ℚ}
    (hq : IsRounding q significand scale) (hp : Decimal.HasDigits p q) :
    (decimal significand scale).size ≤ p ∧ ((decimal significand scale).size = p →
      |(decimal significand scale).value - magnitude significand scale| ≤
        |q - magnitude significand scale|) := by
  have hexact : IsRounding (exact significand scale).value significand scale :=
    (ofDecimal_eq_finite_iff h).mp (ofDecimal_exact false h)
  have hdigits : (exact significand scale).digits ≠ 0 := by
    have hpos := pos_of_isRounding hexact hzero
    intro hnone
    rw [Decimal.value, hnone, Nat.cast_zero, zero_mul] at hpos
    exact hpos.false
  rw [← value_exact]
  exact search_shortest ordConnected_isRounding (fun q hq => pos_of_isRounding hq hzero)
    (readsAs_iff h) hexact (log_le_bound hdigits) hq hp

end Shortest

/-! The two notations -/

theorem not_isExponentMark_of_isDigit {c : Char} (h : IsDigit c) : ¬ IsExponentMark c := by
  rintro (rfl | rfl)
  · exact absurd h (by decide)
  · exact absurd h (by decide)

theorem not_isExponentMark_of_isSign {negative : Bool} {s : List Char} (h : IsSign negative s) :
    ∀ c ∈ s, ¬ IsExponentMark c := by
  intro c hc
  cases h with
  | none => simp at hc
  | minus =>
    obtain rfl : c = '-' := by simpa using hc
    decide

/-- Of the characters of a numeral only that before the exponent is a mark of one. -/
theorem exponent_isSome_iff {n : Numeral} {s : List Char} (h : IsNumeral n s) :
    n.exponent.isSome = true ↔ ∃ c ∈ s, IsExponentMark c := by
  obtain ⟨hsign, hwhole, hfraction, hexponent⟩ := h
  next negative whole sign fractionText exponentText fraction exponent =>
  constructor
  · intro hsome
    have hmark : ∃ c ∈ exponentText, IsExponentMark c := by
      cases hexponent with
      | none => simp at hsome
      | bare he _ => exact ⟨_, List.mem_cons_self, he⟩
      | plus he _ => exact ⟨_, List.mem_cons_self, he⟩
      | minus he _ => exact ⟨_, List.mem_cons_self, he⟩
    obtain ⟨c, hc, hmark⟩ := hmark
    exact ⟨c, List.mem_append_right _ hc, hmark⟩
  · rintro ⟨c, hc, hmark⟩
    by_contra hnone
    have hempty : exponentText = [] := by
      cases hexponent with
      | none => rfl
      | _ => simp at hnone
    have hother : c ∈ sign ∨ c ∈ whole ∨ c ∈ fractionText := by simpa [hempty] using hc
    rcases hother with hc | hc | hc
    · exact not_isExponentMark_of_isSign hsign c hc hmark
    · exact not_isExponentMark_of_isDigit (hwhole.1.2 c hc) hmark
    · cases hfraction with
      | none => simp at hc
      | some hdigits =>
        rcases List.mem_cons.mp hc with rfl | hc
        · exact absurd hmark (by decide)
        · exact not_isExponentMark_of_isDigit (hdigits.2 c hc) hmark

namespace Binary64

variable {digits : List Char}

theorem isDigit_or_point_of_mem_positional (h : ∀ c ∈ digits, IsDigit c) (e : ℤ) :
    ∀ c ∈ positional digits e, IsDigit c ∨ c = '.' := by
  have hzero : IsDigit '0' := by decide
  intro c hc
  cases e with
  | ofNat e =>
    rw [positional] at hc
    split_ifs at hc
    · have hc : c ∈ digits ∨ c ∈ zeros (e + 1 - digits.length) ∨ c = '.' ∨ c = '0' := by
        simpa [or_assoc] using hc
      rcases hc with hc | hc | rfl | rfl
      · exact .inl (h c hc)
      · exact .inl (isDigit_of_mem_zeros c hc)
      · exact .inr rfl
      · exact .inl hzero
    · rcases List.mem_append.mp hc with hc | hc
      · exact .inl (h c (List.mem_of_mem_take hc))
      · rcases List.mem_cons.mp hc with rfl | hc
        · exact .inr rfl
        · exact .inl (h c (List.mem_of_mem_drop hc))
  | negSucc e =>
    have hc : c = '0' ∨ c = '.' ∨ c ∈ zeros e ∨ c ∈ digits := by simpa [positional] using hc
    rcases hc with rfl | rfl | hc | hc
    · exact .inl hzero
    · exact .inr rfl
    · exact .inl (isDigit_of_mem_zeros c hc)
    · exact .inl (h c hc)

theorem mark_mem_scientific (e : ℤ) : 'e' ∈ scientific digits e := by
  unfold scientific
  exact List.mem_append_right _ List.mem_cons_self

/-- The exponent of the first digit of a decimal decides how it is written. -/
theorem layout_cases {d : Decimal} (hpos : 0 < d.digits) :
    ∃ e : ℤ, 10 ^ e ≤ d.value ∧ d.value < 10 ^ (e + 1) ∧
      layout d = if -4 ≤ e ∧ e < 16 then positional (significantDigits d.digits) e
        else scientific (significantDigits d.digits) e := by
  obtain ⟨hlow, hhigh⟩ := toDigits_bounds hpos
  have hlength : 0 < (Nat.toDigits 10 d.digits).length :=
    List.length_pos_iff.mpr Nat.toDigits_ne_nil
  refine ⟨d.exponent + (Nat.toDigits 10 d.digits).length - 1, ?_, ?_, rfl⟩
  · have hexponent : d.exponent + (Nat.toDigits 10 d.digits).length - 1 =
        ((Nat.toDigits 10 d.digits).length - 1 : ℕ) + d.exponent := by omega
    rw [hexponent, zpow_add₀ (by norm_num), zpow_natCast, Decimal.value]
    refine mul_le_mul_of_nonneg_right ?_ (by positivity)
    exact_mod_cast hlow
  · have hexponent : d.exponent + (Nat.toDigits 10 d.digits).length - 1 + 1 =
        (Nat.toDigits 10 d.digits).length + d.exponent := by omega
    rw [hexponent, zpow_add₀ (by norm_num), zpow_natCast, Decimal.value]
    refine mul_lt_mul_of_pos_right ?_ (by positivity)
    exact_mod_cast hhigh

/-- Digits with an exponent mark are the scientific form. -/
theorem exists_mark_layout_iff {d : Decimal} (hpos : 0 < d.digits) :
    ∃ e : ℤ, 10 ^ e ≤ d.value ∧ d.value < 10 ^ (e + 1) ∧
      ((∃ c ∈ layout d, IsExponentMark c) ↔ ¬ (-4 ≤ e ∧ e < 16)) := by
  obtain ⟨e, hlow, hhigh, hlayout⟩ := layout_cases hpos
  refine ⟨e, hlow, hhigh, ?_⟩
  rw [hlayout]
  split_ifs with hrange
  · have hdigits := (isSignificant_significantDigits hpos).isDigit
    refine iff_of_false ?_ (not_not.mpr hrange)
    rintro ⟨c, hc, hmark⟩
    rcases isDigit_or_point_of_mem_positional hdigits e c hc with hdigit | rfl
    · exact not_isExponentMark_of_isDigit hdigit hmark
    · exact absurd hmark (by decide)
  · exact iff_of_true ⟨'e', mark_mem_scientific e, .inl rfl⟩ hrange

end Binary64

/-! Literals -/

/-- No numeral for the float has fewer digits, none with as many is nearer to its value, and the
exponent of the first digit decides whether an exponent is written. -/
structure Numeral.IsShortest (n : Numeral) (x : Binary64) (v : ℚ) : Prop where
  shortest {negative : Bool} {d : Decimal} : RoundsTo negative d.value x → n.decimal.size ≤ d.size
  nearest {negative : Bool} {d : Decimal} : RoundsTo negative d.value x →
    d.size = n.decimal.size → |n.value - v| ≤ |signed negative d.value - v|
  positional : ∃ e : ℤ, 10 ^ e ≤ n.magnitude ∧ n.magnitude < 10 ^ (e + 1) ∧
    (n.exponent = none ↔ -4 ≤ e ∧ e < 16)

namespace Binary64

variable {significand scale : ℕ}

theorem isShortest_of_value (negative : Bool) (h : Canonical significand scale)
    (hzero : significand ≠ 0) {n : Numeral}
    (hn : IsNumeral n (text (.finite negative significand scale h)).toList)
    (hnegative : n.negative = negative)
    (hvalue : n.decimal.value = (Shortest.decimal significand scale).value) :
    n.IsShortest (.finite negative significand scale h)
      (signed negative (magnitude significand scale)) where
  shortest {b d} hd := by
    obtain ⟨-, hround⟩ := (roundsTo_finite_iff h).mp hd
    rw [Decimal.size_congr hvalue]
    exact (Shortest.decimal_shortest h hzero hround (Decimal.hasDigits_value d)).1
  nearest {b d} hd hsame := by
    obtain ⟨rfl, hround⟩ := (roundsTo_finite_iff h).mp hd
    rw [Decimal.size_congr hvalue] at hsame
    rw [Numeral.value, hnegative, abs_signed_sub_signed, abs_signed_sub_signed,
      Numeral.magnitude_eq, hvalue]
    exact (Shortest.decimal_shortest h hzero hround (Decimal.hasDigits_value d)).2 hsame.symm
  positional := by
    have hpos := Nat.pos_of_ne_zero (Shortest.digits_decimal_ne_zero h hzero)
    obtain ⟨e, hlow, hhigh, hmark⟩ := exists_mark_layout_iff hpos
    rw [← hvalue, ← Numeral.magnitude_eq] at hlow hhigh
    refine ⟨e, hlow, hhigh, ?_⟩
    have hsign : ¬ ∃ c ∈ (sign negative).toList, IsExponentMark c := by
      rintro ⟨c, hc, hmark⟩
      exact not_isExponentMark_of_isSign (isSign_sign negative) c hc hmark
    have hnumeral := exponent_isSome_iff hn
    rw [text, if_neg hzero, String.toList_append, String.toList_ofList] at hnumeral
    simp only [List.mem_append, or_and_right, exists_or] at hnumeral
    rw [or_iff_right hsign, hmark, ← not_iff_not, not_not, Option.not_isSome_iff_eq_none] at hnumeral
    exact hnumeral

end Binary64

theorem Json.parse_numeral {n : Numeral} {s : List Char} {x : Number} (h : IsNumeral n s)
    (hx : n.number? = some x) : parse s = .ok (.number x) := by
  have hnumber : ¬ n.Overflows := n.exists_number?_iff.mp ⟨x, hx⟩
  have htext : IsText (.numeral n) ([] ++ s ++ []) := .mk isBlank_nil (.numeral h) isBlank_nil
  rw [List.nil_append, List.append_nil] at htext
  refine (parse_eq_ok_iff s _).mpr ⟨.numeral n, htext, .numeral hnumber, ?_⟩
  rw [Phrase.data, hx, Option.getD_some]

/-- The literal of a finite float has a fraction or an exponent, is read as this float by both
readers, and no numeral for the float is shorter. -/
theorem float_literal_shortest {x : Binary64} {v : ℚ} (hx : x.value? = some v) :
    ∃ (text : String) (n : Numeral), Value.literal (.number (.float x)) = .ok text ∧
      IsNumeral n text.toList ∧ ¬ n.IsInteger ∧ n.negative = x.isNegative ∧
      RoundsTo n.negative n.magnitude x ∧ Json.parse text.toList = .ok (.number (.float x)) ∧
      Script.literal? text.toList = some (.number (.float x)) ∧ (v ≠ 0 → n.IsShortest x v) := by
  obtain ⟨negative, significand, scale, h, rfl⟩ := exists_finite_of_value? hx
  obtain rfl : signed negative (magnitude significand scale) = v := Option.some.inj hx
  obtain ⟨n, hn, hinteger, hfloat, hvalue⟩ := exists_numeral negative h
  have hround := Numeral.roundsTo_of_float hfloat
  obtain ⟨hnegative, -⟩ := (roundsTo_finite_iff h).mp hround
  have hnumber : n.number? = some (.float (.finite negative significand scale h)) := by
    rw [Numeral.number?, Numeral.int?_of_not_isInteger hinteger, hfloat]
  have hliteral : Script.IsFiniteLeaf (.number (.float (.finite negative significand scale h))) :=
    (Number.IsJson.float h).isFinite
  refine ⟨_, n, rfl, hn, hinteger, hnegative, hround, Json.parse_numeral hn hnumber,
    Script.literal?_literal hliteral, fun hne => ?_⟩
  have hzero : significand ≠ 0 := by
    rintro rfl
    rw [magnitude_zero, signed_zero] at hne
    exact hne rfl
  exact isShortest_of_value negative h hzero hn hnegative (hvalue hzero)

/-- The least float that is positive. -/
def Binary64.least : Binary64 := .finite false 1 0 ⟨by decide, .inr rfl, by decide⟩

/-- The exact decimal of the least float has 751 digits, its literal has one. -/
theorem float_literal_shortest_least :
    ∃ n : Numeral, least.value? = some (magnitude 1 0) ∧
      Value.literal (.number (.float least)) = .ok "5e-324" ∧ IsNumeral n "5e-324".toList ∧
      n.IsShortest least (magnitude 1 0) := by
  have htext : least.text = "5e-324" := by decide +kernel
  have hne : magnitude 1 0 ≠ 0 := by
    rw [← magnitude_zero 0, Ne, magnitude_inj]
    decide
  obtain ⟨text, n, hliteral, hn, -, -, -, -, -, hshortest⟩ :=
    float_literal_shortest (x := least) (v := magnitude 1 0) rfl
  obtain rfl : least.text = text := Except.ok.inj hliteral
  rw [htext] at hliteral hn
  exact ⟨n, rfl, hliteral, hn, hshortest hne⟩

end JsonAssert
