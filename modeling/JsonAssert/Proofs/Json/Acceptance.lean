import JsonAssert.Decoding
import JsonAssert.Proofs.Json.Soundness
import JsonAssert.Proofs.Number.DecimalRounding

/-! Which texts are accepted: those that the grammar derives, with nesting, surrogates and numerals
within their limits. -/
namespace JsonAssert
open Grammar

/-! Numerals that have a number -/

namespace Numeral

/-- The numeral is so large that the nearest float is infinite. -/
def Overflows (n : Numeral) : Prop := (Binary64.overflow : ℚ) ≤ n.decimal.value

theorem lt_of_int? {n : Numeral} {i : ℤ} (h : n.int? = some i) :
    n.decimal = ⟨natural n.whole, 0⟩ ∧ natural n.whole < 2 ^ integerBits := by
  unfold int? at h
  split at h
  · next hfraction hexponent =>
    have hbits : 2 ^ (integerBits - 1) < 2 ^ integerBits := by decide
    refine ⟨by simp [decimal, power, hfraction, hexponent], ?_⟩
    dsimp only at h
    split_ifs at h <;> omega
  · simp at h

theorem not_overflows_of_int? {n : Numeral} {i : ℤ} (h : n.int? = some i) : ¬ n.Overflows := by
  obtain ⟨hdecimal, hlt⟩ := lt_of_int? h
  have hoverflow : 2 ^ integerBits ≤ Binary64.overflow := by decide +kernel
  have hvalue : n.decimal.value < Binary64.overflow := by
    rw [hdecimal, Decimal.value, zpow_zero, mul_one]
    exact_mod_cast hlt.trans_le hoverflow
  exact hvalue.not_ge

theorem float_cases (n : Numeral) :
    (∃ significand scale h, n.float = .finite n.negative significand scale h) ∨
      n.float = .infinite n.negative := by
  rw [float, Binary64.ofDecimal_eq_ofRatio]
  exact Binary64.ofRatio_cases _ _ _

theorem exists_number?_iff (n : Numeral) : (∃ x, n.number? = some x) ↔ ¬ n.Overflows := by
  have hinfinite : n.float = .infinite n.negative ↔ n.Overflows :=
    Binary64.ofDecimal_eq_infinite_iff n.negative n.decimal
  unfold number?
  split
  · next i hint => simpa using not_overflows_of_int? hint
  · rw [← hinfinite]
    rcases n.float_cases with ⟨significand, scale, h, hfloat⟩ | hfloat <;> simp [hfloat]

end Numeral

namespace Json

/-- The text is derivable, and within the limits on nesting, surrogates and numerals. -/
def IsAcceptable (s : List Char) : Prop :=
  ∃ t : Phrase, IsText t s ∧ t.Fits IsPaired (¬ ·.Overflows) maxDepth

theorem hasNumber_eq : HasNumber = (¬ ·.Overflows) :=
  funext fun n => propext n.exists_number?_iff

/-! Whole texts -/

/-- Reading a text as one value with nothing but blanks around it. -/
def ReadsAs (rounds : ℕ) (s : List Char) (d : Data) : Prop :=
  ∃ rest, value rounds maxDepth (skipBlanks s) = .ok (d, rest) ∧ skipBlanks rest = []

/-- The text is derivable, within the limits, and stands for the data. -/
def StandsFor (s : List Char) (d : Data) : Prop :=
  ∃ t : Phrase, IsText t s ∧ t.Fits IsPaired (¬ ·.Overflows) maxDepth ∧ t.data = d

theorem isBlank_of_skipBlanks {s : List Char} (h : skipBlanks s = []) : IsBlank s := by
  obtain ⟨b, hb, hblank⟩ := exists_blanks s
  rw [h, List.append_nil] at hb
  rwa [hb]

/-- The same with another bound on the depth. -/
def StandsForWithin (depth : ℕ) (s : List Char) (d : Data) : Prop :=
  ∃ t : Phrase, IsText t s ∧ t.Fits IsPaired (¬ ·.Overflows) depth ∧ t.data = d

theorem standsForWithin_of_value {rounds depth : ℕ} {s rest : List Char} {d : Data}
    (hread : value rounds depth (skipBlanks s) = .ok (d, rest)) (hrest : skipBlanks rest = []) :
    StandsForWithin depth s d := by
  obtain ⟨t, front, hfront, ht, hfits, rfl⟩ := value_takesOnly rounds depth hread
  obtain ⟨b, hb, hblank⟩ := exists_blanks s
  rw [hasNumber_eq] at hfits
  refine ⟨t, ?_, hfits, rfl⟩
  rw [hb, hfront, ← List.append_assoc]
  exact .mk hblank ht (isBlank_of_skipBlanks hrest)

theorem standsFor_of_readsAs {rounds : ℕ} {s : List Char} {d : Data} (h : ReadsAs rounds s d) :
    StandsFor s d := by
  obtain ⟨rest, hread, hrest⟩ := h
  exact standsForWithin_of_value hread hrest

theorem readsAs_of_standsFor {rounds : ℕ} {s : List Char} {d : Data} (hrounds : s.length ≤ rounds)
    (h : StandsFor s d) : ReadsAs rounds s d := by
  obtain ⟨t, ⟨hbefore, ht, hafter⟩, hfits, rfl⟩ := h
  next before front after =>
  rw [← hasNumber_eq] at hfits
  have hlength : front.length ≤ rounds := by
    simp only [List.length_append] at hrounds
    omega
  obtain ⟨rest, hread, hrest⟩ := value_takes hfits ht hlength after (stops_of_isBlank hafter)
  refine ⟨rest, ?_, ?_⟩
  · rw [List.append_assoc, skipBlanks_append hbefore]
    exact hread
  · rw [hrest, ← List.append_nil after, skipBlanks_append hafter]
    rfl

theorem readsAs_iff {rounds : ℕ} {s : List Char} (hrounds : s.length ≤ rounds) (d : Data) :
    ReadsAs rounds s d ↔ StandsFor s d :=
  ⟨standsFor_of_readsAs, readsAs_of_standsFor hrounds⟩

theorem document_eq_ok_iff (s : List Char) (d : Data) :
    document s = .ok d ↔ ReadsAs s.length s d := by
  unfold document ReadsAs
  split
  · next h => simp [h]
  · next d' rest h =>
    rw [h]
    cases hrest : skipBlanks rest <;> simp [hrest]

theorem not_standsFor_of_isBlank {s : List Char} {d : Data} (h : IsBlank s) : ¬ StandsFor s d := by
  intro hstands
  obtain ⟨rest, hread, -⟩ := readsAs_of_standsFor le_rfl hstands
  rw [← List.append_nil s, skipBlanks_append h] at hread
  simp [skipBlanks, value, scalar] at hread

/-- A text gives exactly the data that it stands for. -/
theorem parse_eq_ok_iff (s : List Char) (d : Data) : parse s = .ok d ↔ StandsFor s d := by
  unfold parse
  split_ifs with hempty hblank
  · obtain rfl : s = [] := by simpa using hempty
    simp [not_standsFor_of_isBlank isBlank_nil]
  · have hs : IsBlank s := by
      intro c hc
      exact (isBlank_iff c).mp (List.all_eq_true.mp hblank c hc)
    simp [not_standsFor_of_isBlank hs]
  · rw [← readsAs_iff le_rfl, ← document_eq_ok_iff]
    cases document s <;> simp [Except.mapError]

theorem isAcceptable_iff (s : List Char) : IsAcceptable s ↔ ∃ d, parse s = .ok d := by
  simp only [parse_eq_ok_iff]
  constructor
  · rintro ⟨t, ht, hfits⟩
    exact ⟨t.data, t, ht, hfits, rfl⟩
  · rintro ⟨-, t, ht, hfits, -⟩
    exact ⟨t, ht, hfits⟩

end Json

end JsonAssert
