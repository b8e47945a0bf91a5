import JsonAssert.Number.Notation
import JsonAssert.Proofs.Data.Json
import JsonAssert.Proofs.Json.NumeralReading
import JsonAssert.Proofs.Number.Shortest

/-! The written form of a number is a numeral that stands for it. -/
namespace JsonAssert
open Grammar

/-! Digits -/

namespace Numeral

theorem natural_append (a b : List Char) :
    natural (a ++ b) = natural a * 10 ^ b.length + natural b := by
  rw [natural, Nat.ofDigitChars_append, Nat.ofDigitChars_eq_ofDigitChars_zero, mul_comm]
  rfl

theorem natural_zeros (n : ℕ) : natural (Binary64.zeros n) = 0 := by
  simp [natural, Binary64.zeros, Nat.ofDigitChars_replicate_zero]

theorem natural_toDigits (n : ℕ) : natural (Nat.toDigits 10 n) = n :=
  Nat.ofDigitChars_ten_toDigits

end Numeral

namespace Binary64
open Numeral

theorem isDigit_of_mem_zeros {n : ℕ} : ∀ c ∈ zeros n, IsDigit c := by
  intro c hc
  rw [List.eq_of_mem_replicate hc]
  decide

theorem length_zeros (n : ℕ) : (zeros n).length = n := List.length_replicate

theorem isDigit_of_mem_toDigits {n : ℕ} : ∀ c ∈ Nat.toDigits 10 n, IsDigit c :=
  fun c hc => (Json.isDigit_iff c).mp (Nat.isDigit_of_mem_toDigits (by decide) le_rfl hc)

theorem head_toDigits {n : ℕ} (hn : 0 < n) : (Nat.toDigits 10 n).head? ≠ some '0' := by
  induction n using Nat.strong_induction_on with
  | _ n ih =>
    rcases lt_or_ge n 10 with hsmall | hlarge
    · rw [Nat.toDigits_of_lt_base hsmall]
      simpa using hn.ne'
    · rw [Nat.toDigits_of_base_le (by decide) hlarge,
        List.head?_append_of_ne_nil _ Nat.toDigits_ne_nil]
      exact ih (n / 10) (by omega) (by omega)

theorem isWhole_toDigits (n : ℕ) : IsWhole (Nat.toDigits 10 n) := by
  refine ⟨⟨Nat.toDigits_ne_nil, isDigit_of_mem_toDigits⟩, ?_⟩
  intro hhead
  rcases n.eq_zero_or_pos with rfl | hn
  · rfl
  · exact absurd hhead (head_toDigits hn)

/-- Digits that can be moved about behind a point: some, and no zero in front. -/
structure IsSignificant (digits : List Char) : Prop where
  ne_nil : digits ≠ []
  isDigit : ∀ c ∈ digits, IsDigit c
  head : digits.head? ≠ some '0'

theorem toDigits_eq_significantDigits (n : ℕ) :
    ∃ k, Nat.toDigits 10 n = significantDigits n ++ zeros k := by
  set ds := (Nat.toDigits 10 n).reverse with hds
  have hzeros : ds.takeWhile (· == '0') = zeros (ds.takeWhile (· == '0')).length := by
    apply List.eq_replicate_of_mem
    intro c hc
    simpa using List.mem_takeWhile_imp hc
  refine ⟨(ds.takeWhile (· == '0')).length, ?_⟩
  have hsplit : ds.reverse =
      (ds.dropWhile (· == '0')).reverse ++ (ds.takeWhile (· == '0')).reverse := by
    rw [← List.reverse_append, List.takeWhile_append_dropWhile]
  rw [hzeros, zeros, List.reverse_replicate] at hsplit
  rw [← List.reverse_reverse (Nat.toDigits 10 n), ← hds, hsplit]
  rfl

theorem isSignificant_significantDigits {n : ℕ} (hn : 0 < n) :
    IsSignificant (significantDigits n) := by
  obtain ⟨k, hk⟩ := toDigits_eq_significantDigits n
  have hne : significantDigits n ≠ [] := by
    intro hnil
    have hvalue := natural_toDigits n
    rw [hk, hnil, List.nil_append, natural_zeros] at hvalue
    omega
  refine ⟨hne, fun c hc => isDigit_of_mem_toDigits (n := n) c ?_, ?_⟩
  · rw [hk]
    exact List.mem_append_left _ hc
  · have hhead : (significantDigits n ++ zeros k).head? = (significantDigits n).head? :=
      List.head?_append_of_ne_nil _ hne
    rw [← hhead, ← hk]
    exact head_toDigits hn

/-! Layouts -/

/-- The text spells, with any sign before it, a numeral with the digits and the exponent of their
first one, and with a fraction or an exponent. -/
def Spells (text digits : List Char) (exponent : ℤ) : Prop :=
  ∃ n : Numeral, (∀ negative sign, IsSign negative sign →
      IsNumeral { n with negative := negative } (sign ++ text)) ∧
    n.decimal.value = natural digits * 10 ^ (exponent + 1 - digits.length) ∧
    (n.fraction.isSome ∨ n.exponent.isSome)

variable {digits : List Char}

theorem IsSignificant.isWhole (h : IsSignificant digits) : IsWhole digits :=
  ⟨⟨h.ne_nil, h.isDigit⟩, fun hhead => absurd hhead h.head⟩

theorem isDigits_append {a b : List Char} (ha : IsDigits a) (hb : ∀ c ∈ b, IsDigit c) :
    IsDigits (a ++ b) :=
  ⟨by simp [ha.1], fun c hc => (List.mem_append.mp hc).elim (ha.2 c) (hb c)⟩

theorem spells_of_parts {whole fractionText exponentText : List Char}
    {fraction : Option (List Char)} {exponent : Option (Bool × List Char)} {e : ℤ}
    (hwhole : IsWhole whole) (hfraction : IsFraction fraction fractionText)
    (hexponent : IsExponent exponent exponentText) (hsome : fraction.isSome ∨ exponent.isSome)
    (hvalue : (⟨false, whole, fraction, exponent⟩ : Numeral).decimal.value =
      natural digits * 10 ^ (e + 1 - digits.length)) :
    Spells (whole ++ fractionText ++ exponentText) digits e := by
  refine ⟨⟨false, whole, fraction, exponent⟩, ?_, hvalue, hsome⟩
  intro negative sign hsign
  have h := IsNumeral.mk hsign hwhole hfraction hexponent
  simpa only [List.append_assoc] using h

theorem value_of_shift {a b k : ℕ} {e x : ℤ} (ha : a = b * 10 ^ k) (hx : e + k = x) :
    Decimal.value ⟨a, e⟩ = b * 10 ^ x := by
  rw [Decimal.value, ha, ← hx, zpow_add₀ (by norm_num), zpow_natCast]
  push_cast
  ring

/-- Digits that end before the point, with zeros up to it. -/
theorem spells_padded (h : IsSignificant digits) {e : ℕ} (hlong : digits.length ≤ e + 1) :
    Spells (digits ++ zeros (e + 1 - digits.length) ++ ['.', '0']) digits e := by
  have hwhole : IsWhole (digits ++ zeros (e + 1 - digits.length)) := by
    refine ⟨isDigits_append ⟨h.ne_nil, h.isDigit⟩ isDigit_of_mem_zeros, ?_⟩
    intro hhead
    rw [List.head?_append_of_ne_nil _ h.ne_nil] at hhead
    exact absurd hhead h.head
  have hfraction : IsFraction (some ['0']) ['.', '0'] := .some (isWhole_toDigits 0).1
  have hvalue : (⟨false, digits ++ zeros (e + 1 - digits.length), some ['0'], none⟩ :
      Numeral).decimal.value = natural digits * 10 ^ ((e : ℤ) + 1 - digits.length) := by
    apply value_of_shift (k := e + 1 - digits.length + 1)
    · rw [natural_append, natural_append, natural_zeros, length_zeros, pow_succ, ← mul_assoc]
      rfl
    · simp only [power, Option.getD_some, List.length_cons, List.length_nil]
      omega
  have hspells := spells_of_parts hwhole hfraction .none (.inl rfl) hvalue
  rwa [List.append_nil] at hspells

/-- Digits on both sides of the point. -/
theorem spells_pointed (h : IsSignificant digits) {e : ℕ} (hshort : e + 1 < digits.length) :
    Spells (digits.take (e + 1) ++ '.' :: digits.drop (e + 1)) digits e := by
  have hwhole : IsWhole (digits.take (e + 1)) := by
    refine IsSignificant.isWhole ⟨?_, fun c hc => h.isDigit c (List.mem_of_mem_take hc), ?_⟩
    · simp [h.ne_nil]
    · rw [List.head?_take]
      simpa using h.head
  have hdrop : digits.drop (e + 1) ≠ [] := by
    simp only [ne_eq, List.drop_eq_nil_iff]
    omega
  have hfraction : IsFraction (some (digits.drop (e + 1))) ('.' :: digits.drop (e + 1)) :=
    .some ⟨hdrop, fun c hc => h.isDigit c (List.mem_of_mem_drop hc)⟩
  have hvalue : (⟨false, digits.take (e + 1), some (digits.drop (e + 1)), none⟩ :
      Numeral).decimal.value = natural digits * 10 ^ ((e : ℤ) + 1 - digits.length) := by
    apply value_of_shift (k := 0)
    · rw [pow_zero, mul_one, Option.getD_some, List.take_append_drop]
    · simp only [power, Option.getD_some, List.length_drop]
      omega
  have hspells := spells_of_parts hwhole hfraction .none (.inl rfl) hvalue
  rwa [List.append_nil] at hspells

/-- Digits behind the point, and zeros before them. -/
theorem spells_small (h : IsSignificant digits) (e : ℕ) :
    Spells (['0'] ++ '.' :: (zeros e ++ digits)) digits (Int.negSucc e) := by
  have hfraction : IsFraction (some (zeros e ++ digits)) ('.' :: (zeros e ++ digits)) := by
    refine .some ⟨by simp [h.ne_nil], ?_⟩
    intro c hc
    rcases List.mem_append.mp hc with hc | hc
    · exact isDigit_of_mem_zeros c hc
    · exact h.isDigit c hc
  have hvalue : (⟨false, ['0'], some (zeros e ++ digits), none⟩ : Numeral).decimal.value =
      natural digits * 10 ^ (Int.negSucc e + 1 - digits.length) := by
    apply value_of_shift (k := 0)
    · have hzero : natural ['0'] = 0 := natural_toDigits 0
      rw [pow_zero, mul_one, Option.getD_some, natural_append, natural_append, natural_zeros,
        hzero, zero_mul, zero_mul, zero_add, zero_add]
    · simp only [power, Option.getD_some, List.length_append, length_zeros]
      omega
  have hspells := spells_of_parts (isWhole_toDigits 0) hfraction .none (.inl rfl) hvalue
  rwa [List.append_nil] at hspells

theorem spells_positional (h : IsSignificant digits) (e : ℤ) :
    Spells (positional digits e) digits e := by
  cases e with
  | ofNat e =>
    rw [positional]
    split_ifs with hlong
    · exact spells_padded h (by omega)
    · exact spells_pointed h (by omega)
  | negSucc e => exact spells_small h e

/-- The digits of an exponent, two of them at least. -/
def exponentDigits (e : ℤ) : List Char :=
  zeros (2 - (Nat.toDigits 10 e.natAbs).length) ++ Nat.toDigits 10 e.natAbs

theorem isExponent_exponentDigits (e : ℤ) :
    IsExponent (some (decide (e < 0), exponentDigits e))
      ('e' :: (if e < 0 then '-' else '+') :: exponentDigits e) := by
  have hdigits : IsDigits (exponentDigits e) :=
    ⟨by simp [exponentDigits], fun c hc =>
      (List.mem_append.mp hc).elim (isDigit_of_mem_zeros c) (isDigit_of_mem_toDigits c)⟩
  split_ifs with hneg
  · rw [decide_eq_true hneg]
    exact .minus (.inl rfl) hdigits
  · rw [decide_eq_false hneg]
    exact .plus (.inl rfl) hdigits

theorem power_exponentDigits (negative : Bool) (whole : List Char)
    (fraction : Option (List Char)) (e : ℤ) :
    (⟨negative, whole, fraction, some (decide (e < 0), exponentDigits e)⟩ : Numeral).power = e := by
  have hnatural : natural (exponentDigits e) = e.natAbs := by
    rw [exponentDigits, natural_append, natural_zeros, natural_toDigits, zero_mul, zero_add]
  by_cases hneg : e < 0
  · simp only [power, decide_eq_true hneg, hnatural]
    omega
  · simp only [power, decide_eq_false hneg, hnatural]
    omega

theorem spells_scientific (h : IsSignificant digits) (e : ℤ) :
    Spells (scientific digits e) digits e := by
  have hexponent := isExponent_exponentDigits e
  rcases digits with _ | ⟨first, _ | ⟨second, more⟩⟩
  · exact absurd rfl h.ne_nil
  · have hvalue : (⟨false, [first], none, some (decide (e < 0), exponentDigits e)⟩ :
        Numeral).decimal.value = natural [first] * 10 ^ (e + 1 - [first].length) := by
      apply value_of_shift (k := 0)
      · simp
      · simp [power_exponentDigits]
    exact spells_of_parts h.isWhole .none hexponent (.inr rfl) hvalue
  · have hwhole : IsWhole [first] :=
      IsSignificant.isWhole ⟨by simp, fun c hc => h.isDigit c (by simp_all), h.head⟩
    have hfraction : IsFraction (some (second :: more)) ('.' :: second :: more) :=
      .some ⟨by simp, fun c hc => h.isDigit c (List.mem_cons_of_mem first hc)⟩
    have hvalue : (⟨false, [first], some (second :: more), some (decide (e < 0),
        exponentDigits e)⟩ : Numeral).decimal.value =
          natural (first :: second :: more) * 10 ^ (e + 1 - (first :: second :: more).length) := by
      apply value_of_shift (k := 0)
      · simp
      · simp [power_exponentDigits]
    exact spells_of_parts hwhole hfraction hexponent (.inr rfl) hvalue

theorem natural_significantDigits (n : ℕ) :
    ∃ k, n = natural (significantDigits n) * 10 ^ k ∧
      (Nat.toDigits 10 n).length = (significantDigits n).length + k := by
  obtain ⟨k, hk⟩ := toDigits_eq_significantDigits n
  have hnatural := natural_toDigits n
  rw [hk, natural_append, natural_zeros, length_zeros, add_zero] at hnatural
  exact ⟨k, hnatural.symm, by rw [hk, List.length_append, length_zeros]⟩

theorem spells_layout {d : Decimal} (hpos : 0 < d.digits) :
    ∃ e, Spells (layout d) (significantDigits d.digits) e ∧
      d.value = natural (significantDigits d.digits) *
        10 ^ (e + 1 - (significantDigits d.digits).length) := by
  have h := isSignificant_significantDigits hpos
  obtain ⟨k, hvalue, hlength⟩ := natural_significantDigits d.digits
  refine ⟨d.exponent + (Nat.toDigits 10 d.digits).length - 1, ?_, value_of_shift hvalue ?_⟩
  · rw [layout]
    split_ifs
    · exact spells_positional h _
    · exact spells_scientific h _
  · rw [hlength]
    push_cast
    ring

end Binary64

/-! Numbers -/

namespace Numeral

/-- A numeral of digits alone, which stands for an integer. -/
def IsInteger (n : Numeral) : Prop := n.fraction = none ∧ n.exponent = none

theorem int?_of_not_isInteger {n : Numeral} (h : ¬ n.IsInteger) : n.int? = none := by
  unfold int?
  split
  · next hfraction hexponent => exact absurd ⟨hfraction, hexponent⟩ h
  · rfl

end Numeral

theorem Binary64.isSign_sign (negative : Bool) : IsSign negative (sign negative).toList := by
  cases negative with
  | false => exact .none
  | true => exact .minus

/-- The written form of a float is read back as this float; it is the shortest decimal where there is
one. -/
theorem Binary64.exists_numeral (negative : Bool) {significand scale : ℕ}
    (h : Canonical significand scale) :
    ∃ n : Numeral, IsNumeral n (text (.finite negative significand scale h)).toList ∧
      ¬ n.IsInteger ∧ n.float = .finite negative significand scale h ∧
      (significand ≠ 0 → n.decimal.value = (Shortest.decimal significand scale).value) := by
  have hsign := isSign_sign negative
  by_cases hzero : significand = 0
  · subst hzero
    obtain rfl : scale = 0 := by simpa using h.normal
    refine ⟨⟨negative, ['0'], some ['0'], none⟩, ?_, by simp [Numeral.IsInteger], ?_,
      absurd rfl⟩
    · have hn := IsNumeral.mk hsign (isWhole_toDigits 0) (.some (isWhole_toDigits 0).1) .none
      rw [List.append_nil, List.append_assoc] at hn
      rw [text, String.toList_append]
      exact hn
    · exact ofDecimal_zero negative (0 - 1)
  · have hpos := Nat.pos_of_ne_zero (Shortest.digits_decimal_ne_zero h hzero)
    obtain ⟨e, ⟨n, hspells, hvalue, hsome⟩, hlayout⟩ := spells_layout hpos
    refine ⟨{ n with negative := negative }, ?_, ?_, ?_, fun _ => hvalue.trans hlayout.symm⟩
    · rw [text, if_neg hzero, String.toList_append, String.toList_ofList]
      exact hspells negative _ hsign
    · rintro ⟨hfraction, hexponent⟩
      simp_all
    · rw [Numeral.float, ← Shortest.ofDecimal_decimal negative h]
      exact ofDecimal_congr negative (hvalue.trans hlayout.symm)

theorem exists_numeral_of_int (i : ℤ) :
    ∃ n : Numeral, IsNumeral n (toString i).toList ∧ n.IsInteger ∧ n.negative = decide (i < 0) ∧
      Numeral.natural n.whole = i.natAbs := by
  cases i with
  | ofNat n =>
    refine ⟨⟨false, Nat.toDigits 10 n, none, none⟩, ?_, ⟨rfl, rfl⟩, by simp,
      Numeral.natural_toDigits n⟩
    have h := IsNumeral.mk .none (Binary64.isWhole_toDigits n) .none .none
    rw [List.append_nil, List.append_nil, List.nil_append] at h
    have htext : (toString (Int.ofNat n)).toList = Nat.toDigits 10 n := Nat.toList_repr
    rwa [htext]
  | negSucc n =>
    refine ⟨⟨true, Nat.toDigits 10 (n + 1), none, none⟩, ?_, ⟨rfl, rfl⟩, by simp,
      Numeral.natural_toDigits (n + 1)⟩
    have h := IsNumeral.mk .minus (Binary64.isWhole_toDigits (n + 1)) .none .none
    rw [List.append_nil, List.append_nil] at h
    have htext : (toString (Int.negSucc n)).toList = ['-'] ++ Nat.toDigits 10 (n + 1) := by
      have hneg : toString (Int.negSucc n) = "-" ++ (n + 1).repr := rfl
      rw [hneg, String.toList_append, Nat.toList_repr]
      rfl
    rwa [htext]

namespace Number

/-- The written form of a number is read back as this number. -/
theorem IsJson.exists_numeral {x : Number} (hx : x.IsJson) :
    ∃ n : Numeral, IsNumeral n x.text.toList ∧ n.number? = some x := by
  cases hx with
  | @int i hlow hhigh =>
    obtain ⟨n, hn, ⟨hfraction, hexponent⟩, hnegative, hwhole⟩ := exists_numeral_of_int i
    refine ⟨n, hn, ?_⟩
    have hint : n.int? = some i := by
      simp only [Numeral.int?, hfraction, hexponent, hnegative, hwhole]
      split_ifs with h1 h2 h3 <;> simp only [decide_eq_true_eq, Numeral.integerBits] at * <;>
        first | omega | (simp only [Option.some.injEq]; omega)
    rw [Numeral.number?, hint]
  | float h =>
    obtain ⟨n, hn, hinteger, hfloat, -⟩ := Binary64.exists_numeral _ h
    refine ⟨n, hn, ?_⟩
    rw [Numeral.number?, Numeral.int?_of_not_isInteger hinteger, hfloat]

end Number

end JsonAssert
