import JsonAssert.Text.Quoted
import JsonAssert.Proofs.Json.StringReading

/-! Quoted strings are strings of the grammar, and stand for the characters that they quote. -/
namespace JsonAssert.Quoted
open Grammar Json

/-- The piece by which a character is written. -/
def piece (c : Char) : Piece :=
  match letter c with
  | some l => .letter l
  | none =>
    if c.toNat < 0x20 then .code '0' '0' (c.toNat / 16).digitChar (c.toNat % 16).digitChar
    else .raw c

theorem escape_eq_spelling (c : Char) : escape c = (piece c).spelling := by
  unfold escape piece
  cases letter c with
  | some l => rfl
  | none =>
    dsimp only
    split_ifs <;> rfl

/-- Every letter is the name of its character. -/
theorem unescape_letter {c l : Char} (h : letter c = some l) : unescape l = some c := by
  unfold letter at h
  split at h <;> simp_all <;> subst h <;> rfl

theorem ne_of_letter_eq_none {c : Char} (h : letter c = none) : c ≠ '"' ∧ c ≠ '\\' := by
  constructor <;> rintro rfl <;> simp [letter] at h

theorem isHexDigit_digitChar {n : ℕ} (hn : n < 16) : IsHexDigit n.digitChar := by
  unfold IsHexDigit
  interval_cases n <;> decide

theorem hexValue_digitChar {n : ℕ} (hn : n < 16) : hexValue n.digitChar = n := by
  interval_cases n <;> rfl

theorem piece_isAllowed (c : Char) : (piece c).IsAllowed := by
  unfold piece
  split
  · next l hl => exact letter_isAllowed (unescape_letter hl)
  · next hnone =>
    split_ifs with hcontrol
    · exact ⟨by unfold IsHexDigit; decide, by unfold IsHexDigit; decide,
        isHexDigit_digitChar (by omega), isHexDigit_digitChar (by omega)⟩
    · exact ⟨by omega, ne_of_letter_eq_none hnone⟩

theorem unit_piece (c : Char) : (piece c).unit = c.toNat := by
  unfold piece
  split
  · next l hl => simp [Piece.unit, unescape_letter hl]
  · split_ifs with hcontrol
    · have hzero : hexValue '0' = 0 := rfl
      rw [Piece.unit, hzero, hexValue_digitChar (by omega), hexValue_digitChar (by omega)]
      omega
    · rfl

theorem isPaired_pieces (text : List Char) : IsPaired (text.map piece) := by
  induction text with
  | nil => exact .nil
  | cons c text ih =>
    have hc := not_surrogate c
    rw [← unit_piece] at hc
    exact .single hc.1 hc.2 ih

theorem characters_pieces (text : List Char) : characters (text.map piece) = text := by
  induction text with
  | nil => rfl
  | cons c text ih =>
    have hc := (not_surrogate c).1
    rw [← unit_piece] at hc
    rw [List.map_cons, characters_single hc, ih, unit_piece, Char.ofNat_toNat]

theorem flatMap_escape (text : List Char) :
    text.flatMap escape = (text.map piece).flatMap Piece.spelling := by
  rw [List.flatMap_map]
  exact List.flatMap_congr fun c _ => escape_eq_spelling c

theorem pieces_isAllowed (text : List Char) : ∀ p ∈ text.map piece, p.IsAllowed := by
  intro p hp
  obtain ⟨c, -, rfl⟩ := List.mem_map.mp hp
  exact piece_isAllowed c

theorem isString_encode (text : List Char) : IsString (text.map piece) (encode text) := by
  rw [encode, flatMap_escape]
  exact .mk (pieces_isAllowed text)

/-- A quoted text is read as this text, whatever follows its closing quote. -/
theorem contents_flatMap_escape (text rest : List Char) :
    contents (text.flatMap escape ++ '"' :: rest) = .ok (text, rest) := by
  rw [flatMap_escape, contents_append (isPaired_pieces text) (pieces_isAllowed text),
    characters_pieces]

end JsonAssert.Quoted
