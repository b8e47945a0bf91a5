import Mathlib
import JsonAssert.Proofs.Json.Grammar

/-! The reader of strings takes exactly the strings of the grammar whose surrogates are paired, and
gives the characters that their pieces stand for. -/
namespace JsonAssert.Json
open Grammar

/-! Hexadecimal digits -/

theorem char_le_iff (a b : Char) : a ≤ b ↔ a.toNat ≤ b.toNat := Iff.rfl

theorem hexDigit?_eq_some_iff (c : Char) (n : ℕ) :
    hexDigit? c = some n ↔ IsHexDigit c ∧ n = hexValue c := by
  unfold hexDigit? IsHexDigit hexValue
  simp only [char_le_iff, Char.reduceToNat]
  grind

theorem hexNumber?_code {a b c d : Char} (h : (Piece.code a b c d).IsAllowed) (rest : List Char) :
    hexNumber? (a :: b :: c :: d :: rest) = some ((Piece.code a b c d).unit, rest) := by
  obtain ⟨ha, hb, hc, hd⟩ := h
  simp only [hexNumber?, (hexDigit?_eq_some_iff a _).mpr ⟨ha, rfl⟩,
    (hexDigit?_eq_some_iff b _).mpr ⟨hb, rfl⟩, (hexDigit?_eq_some_iff c _).mpr ⟨hc, rfl⟩,
    (hexDigit?_eq_some_iff d _).mpr ⟨hd, rfl⟩, Piece.unit]

theorem hexNumber?_eq {s rest : List Char} {n : ℕ} (h : hexNumber? s = some (n, rest)) :
    ∃ a b c d, s = a :: b :: c :: d :: rest ∧ (Piece.code a b c d).IsAllowed ∧
      (Piece.code a b c d).unit = n := by
  unfold hexNumber? at h
  split at h
  · next a b c d rest' =>
    split at h
    · next ha hb hc hd =>
      obtain ⟨rfl, rfl⟩ : _ ∧ _ := by simpa using h
      simp only [hexDigit?_eq_some_iff] at ha hb hc hd
      refine ⟨a, b, c, d, rfl, ⟨ha.1, hb.1, hc.1, hd.1⟩, ?_⟩
      rw [Piece.unit, ha.2, hb.2, hc.2, hd.2]
    · simp at h
  · simp at h

/-! Surrogates -/

/-- No character is a surrogate. -/
theorem not_surrogate (c : Char) :
    isHighSurrogate c.toNat = false ∧ isLowSurrogate c.toNat = false := by
  have hvalid : c.toNat < 0xD800 ∨ 0xDFFF < c.toNat ∧ c.toNat < 0x110000 := c.valid
  simp only [isHighSurrogate, isLowSurrogate, Bool.and_eq_false_iff, decide_eq_false_iff_not]
  omega

theorem code_of_surrogate {p : Piece}
    (h : isHighSurrogate p.unit = true ∨ isLowSurrogate p.unit = true) :
    ∃ a b c d, p = .code a b c d := by
  cases p with
  | raw c => simp [Piece.unit, not_surrogate] at h
  | letter c => simp [Piece.unit, not_surrogate] at h
  | code a b c d => exact ⟨a, b, c, d, rfl⟩

/-! Pieces -/

theorem characters_single {p : Piece} (h : isHighSurrogate p.unit = false) (ps : List Piece) :
    characters (p :: ps) = Char.ofNat p.unit :: characters ps := by
  cases ps with
  | nil => rfl
  | cons q ps => simp [characters, h]

theorem characters_pair {p q : Piece} (h : isHighSurrogate p.unit = true) (ps : List Piece) :
    characters (p :: q :: ps) = joinSurrogates p.unit q.unit :: characters ps := by
  simp [characters, h]

theorem unescape_isSome {c : Char} (h : (Piece.letter c).IsAllowed) :
    ∃ d, unescape c = some d := by
  simp only [Piece.IsAllowed, List.mem_cons, List.not_mem_nil, or_false] at h
  rcases h with rfl | rfl | rfl | rfl | rfl | rfl | rfl | rfl <;> exact ⟨_, rfl⟩

theorem letter_isAllowed {c d : Char} (h : unescape c = some d) : (Piece.letter c).IsAllowed := by
  unfold unescape at h
  split at h <;> simp_all [Piece.IsAllowed]

theorem escape_letter {c d : Char} (h : unescape c = some d) (rest : List Char) :
    escape (c :: rest) = .ok (d, rest) := by
  unfold escape
  split
  · next heq =>
    obtain ⟨rfl, -⟩ : _ ∧ _ := by simpa using heq
    simp [unescape] at h
  · next heq =>
    obtain ⟨rfl, rfl⟩ : _ ∧ _ := by simpa using heq
    rw [h]
  · next heq => simp at heq

/-- One piece that is no surrogate is read as one character. -/
theorem contents_single {p : Piece} (hallowed : p.IsAllowed)
    (hhigh : isHighSurrogate p.unit = false) (hlow : isLowSurrogate p.unit = false)
    (s : List Char) :
    contents (p.spelling ++ s) =
      (contents s).map fun (text, rest) => (Char.ofNat p.unit :: text, rest) := by
  cases p with
  | raw c =>
    obtain ⟨hprint, hquote, hbackslash⟩ := hallowed
    simpa [Piece.spelling, Piece.unit] using contents_plain s hquote hbackslash hprint
  | letter c =>
    obtain ⟨d, hd⟩ := unescape_isSome hallowed
    simp [Piece.spelling, Piece.unit, contents_backslash, escape_letter hd, hd]
  | code a b c d =>
    simp [Piece.spelling, contents_backslash, escape, hexNumber?_code hallowed, hhigh, hlow]

/-- Two pieces that are a pair of surrogates are read as one character. -/
theorem contents_pair {p q : Piece} (hp : p.IsAllowed) (hq : q.IsAllowed)
    (hhigh : isHighSurrogate p.unit = true) (hlow : isLowSurrogate q.unit = true)
    (s : List Char) :
    contents (p.spelling ++ q.spelling ++ s) =
      (contents s).map fun (text, rest) => (joinSurrogates p.unit q.unit :: text, rest) := by
  obtain ⟨a, b, c, d, rfl⟩ := code_of_surrogate (.inl hhigh)
  obtain ⟨a', b', c', d', rfl⟩ := code_of_surrogate (.inr hlow)
  simp [Piece.spelling, contents_backslash, escape, secondHalf, hexNumber?_code hp,
    hexNumber?_code hq, hhigh, hlow]

/-- Pieces are read as their characters, whatever follows them. -/
theorem contents_pieces {ps : List Piece} (hpaired : IsPaired ps) (hallowed : ∀ p ∈ ps, p.IsAllowed)
    (s : List Char) :
    contents (ps.flatMap Piece.spelling ++ s) =
      (contents s).map fun (text, rest) => (characters ps ++ text, rest) := by
  induction hpaired with
  | nil => cases h : contents s <;> simp [characters, h, Except.map]
  | @single p ps hhigh hlow _ ih =>
    have hread := ih fun q hq => hallowed q (List.mem_cons_of_mem p hq)
    rw [List.flatMap_cons, List.append_assoc,
      contents_single (hallowed p List.mem_cons_self) hhigh hlow, hread, characters_single hhigh]
    cases contents s <;> rfl
  | @pair p q ps hhigh hlow _ ih =>
    have hp := hallowed p List.mem_cons_self
    have hq := hallowed q (List.mem_cons_of_mem p List.mem_cons_self)
    have hread := ih fun r hr => hallowed r (List.mem_cons_of_mem p (List.mem_cons_of_mem q hr))
    rw [List.flatMap_cons, List.flatMap_cons, List.append_assoc, List.append_assoc,
      ← List.append_assoc, contents_pair hp hq hhigh hlow, hread, characters_pair hhigh]
    cases contents s <;> rfl

theorem contents_append {ps : List Piece} (hpaired : IsPaired ps) (hallowed : ∀ p ∈ ps, p.IsAllowed)
    (rest : List Char) :
    contents (ps.flatMap Piece.spelling ++ '"' :: rest) = .ok (characters ps, rest) := by
  simp [contents_pieces hpaired hallowed, Except.map]

/-- Pieces that are read as one character, whatever pieces follow. -/
structure IsOne (ps : List Piece) (c : Char) : Prop where
  allowed : ∀ p ∈ ps, p.IsAllowed
  paired : ∀ {qs}, IsPaired qs → IsPaired (ps ++ qs)
  characters : ∀ qs, characters (ps ++ qs) = c :: characters qs

theorem isOne_single {p : Piece} (hallowed : p.IsAllowed) (hhigh : isHighSurrogate p.unit = false)
    (hlow : isLowSurrogate p.unit = false) : IsOne [p] (Char.ofNat p.unit) where
  allowed := by simpa using hallowed
  paired := .single hhigh hlow
  characters := characters_single hhigh

theorem isOne_pair {p q : Piece} (hp : p.IsAllowed) (hq : q.IsAllowed)
    (hhigh : isHighSurrogate p.unit = true) (hlow : isLowSurrogate q.unit = true) :
    IsOne [p, q] (joinSurrogates p.unit q.unit) where
  allowed := by simpa using ⟨hp, hq⟩
  paired := .pair hhigh hlow
  characters := characters_pair hhigh

theorem secondHalf_eq {high : ℕ} {s rest : List Char} {c : Char}
    (h : secondHalf high s = .ok (c, rest)) :
    ∃ q : Piece, q.IsAllowed ∧ isLowSurrogate q.unit = true ∧ s = q.spelling ++ rest ∧
      c = joinSurrogates high q.unit := by
  unfold secondHalf at h
  split at h
  · split at h
    · simp at h
    next n rest₁ hnumber =>
    obtain ⟨b₁, b₂, b₃, b₄, rfl, hallowed, rfl⟩ := hexNumber?_eq hnumber
    split_ifs at h with hlow
    obtain ⟨rfl, rfl⟩ : _ ∧ _ := by simpa using h
    exact ⟨_, hallowed, hlow, by simp [Piece.spelling], rfl⟩
  · simp at h

theorem isOne_letter {e c : Char} (h : unescape e = some c) : IsOne [.letter e] c := by
  have hunit : (Piece.letter e).unit = c.toNat := by simp [Piece.unit, h]
  have hone := isOne_single (letter_isAllowed h) (by simp [hunit, not_surrogate])
    (by simp [hunit, not_surrogate])
  rwa [hunit, Char.ofNat_toNat] at hone

theorem escape_eq {s rest : List Char} {c : Char} (h : escape s = .ok (c, rest)) :
    ∃ ps, '\\' :: s = ps.flatMap Piece.spelling ++ rest ∧ IsOne ps c := by
  unfold escape at h
  split at h
  · split at h
    · simp at h
    next n rest₁ hnumber =>
    obtain ⟨a₁, a₂, a₃, a₄, rfl, hfirst, rfl⟩ := hexNumber?_eq hnumber
    split_ifs at h with hhigh hlow
    · obtain ⟨q, hsecond, hlow, hq, hc⟩ := secondHalf_eq h
      rw [hq, hc]
      refine ⟨[.code a₁ a₂ a₃ a₄, q], ?_, isOne_pair hfirst hsecond hhigh hlow⟩
      simp only [List.flatMap_cons, List.flatMap_nil, List.append_nil, List.append_assoc]
      rfl
    · obtain ⟨rfl, rfl⟩ : _ ∧ _ := by simpa using h
      exact ⟨_, by simp [Piece.spelling],
        isOne_single hfirst (by simpa using hhigh) (by simpa using hlow)⟩
  · next e rest₁ hne =>
    split at h
    · next d hd =>
      obtain ⟨rfl, rfl⟩ : _ ∧ _ := by simpa using h
      exact ⟨[.letter e], rfl, isOne_letter hd⟩
    · simp at h
  · simp at h

/-- A text that spells a string up to its closing quote, the characters that the string stands for,
and what follows the quote. -/
def IsContents (s text rest : List Char) : Prop :=
  ∃ ps, s = ps.flatMap Piece.spelling ++ '"' :: rest ∧ (∀ p ∈ ps, p.IsAllowed) ∧ IsPaired ps ∧
    characters ps = text

theorem IsContents.cons {ps : List Piece} {c : Char} {s text rest : List Char} (hone : IsOne ps c)
    (h : IsContents s text rest) :
    IsContents (ps.flatMap Piece.spelling ++ s) (c :: text) rest := by
  obtain ⟨qs, rfl, hallowed, hpaired, rfl⟩ := h
  refine ⟨ps ++ qs, by simp, ?_, hone.paired hpaired, hone.characters qs⟩
  intro p hp
  rcases List.mem_append.mp hp with hp | hp
  · exact hone.allowed p hp
  · exact hallowed p hp

theorem contents_eq {s text rest : List Char} (h : contents s = .ok (text, rest)) :
    IsContents s text rest := by
  fun_induction contents s generalizing text with
  | case1 => simp at h
  | case2 s =>
    obtain ⟨rfl, rfl⟩ : _ ∧ _ := by simpa using h
    exact ⟨[], rfl, by simp, .nil, rfl⟩
  | case3 => simp at h
  | case4 => simp at h
  | case5 s c s₁ hescape text₁ rest₁ hcontents ih =>
    obtain ⟨rfl, rfl⟩ : _ ∧ _ := by simpa using h
    obtain ⟨ps, hs, hone⟩ := escape_eq hescape
    rw [hs]
    exact (ih hcontents).cons hone
  | case6 => simp at h
  | case7 => simp at h
  | case8 c s hquote hbackslash hprint text₁ rest₁ hcontents ih =>
    obtain ⟨rfl, rfl⟩ : _ ∧ _ := by simpa using h
    have hallowed : (Piece.raw c).IsAllowed :=
      ⟨by omega, by simpa using hquote, by simpa using hbackslash⟩
    have hone := isOne_single hallowed (not_surrogate c).1 (not_surrogate c).2
    rw [Piece.unit, Char.ofNat_toNat] at hone
    exact (ih hcontents).cons hone

end JsonAssert.Json
