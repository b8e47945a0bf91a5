import JsonAssert.Proofs.Json.StringPlaces
import JsonAssert.Proofs.Json.StringSpelling

/-! The strings of a text. A string is read as its characters however they are spelled, in the place of
a value and in that of a key, and a string with a fault keeps the text from being read. -/
namespace JsonAssert
open Grammar Json

namespace Grammar

/-- Spelled characters between quotes. -/
def token (w : List Char) : List Char := '"' :: (w ++ ['"'])

theorem exists_isString {s w : List Char} (h : SpellsText s w) :
    ∃ pieces, IsString pieces (token w) ∧ IsPaired pieces ∧ characters pieces = s := by
  obtain ⟨pieces, rfl, hallowed, hpaired, hs⟩ := exists_pieces h
  exact ⟨pieces, .mk hallowed, hpaired, hs⟩

/-- Behind its opening quote the text goes on with spelled characters and a fault. -/
inductive IsFaulty : List Char → Prop
  | mk {s w fault : List Char} : SpellsText s w → IsFault fault → IsFaulty (w ++ fault)

theorem SpellsText.parse_iff {p : StringPlace} {left right s w : List Char} (hw : SpellsText s w)
    (h : p.Encloses left right) (d : Data) :
    parse (left ++ token w ++ right) = .ok d ↔ p.IsWithinLimits ∧ d = p.data (.ofList s) := by
  obtain ⟨pieces, hs, hpaired, rfl⟩ := exists_isString hw
  exact StringPlace.parse_iff h hs hpaired d

theorem SpellsText.ne_of_isFaulty {s w tail rest : List Char} (hw : SpellsText s w)
    (h : IsFaulty tail) : tail ≠ w ++ '"' :: rest := by
  obtain ⟨hfront, hfault⟩ := h
  exact not_spellsText_of_isFault hfront hfault hw

/-- What follows the opening quote in a text that is read is spelled characters and a closing quote. -/
theorem StringPlace.Encloses.exists_spelling {p : StringPlace} {left right tail : List Char}
    {d : Data} (h : p.Encloses left right) (hparse : parse (left ++ '"' :: tail) = .ok d) :
    ∃ s w rest, SpellsText s w ∧ tail = w ++ '"' :: rest := by
  obtain ⟨pieces, rest, hpaired, hallowed, htail⟩ := exists_string_behind h hparse
  exact ⟨_, _, rest, spellsText_pieces hpaired hallowed, htail⟩

end Grammar

/-- A string is read as its characters, in any place and in any spelling. What begins as a string and
is none, in particular what goes on with a fault, keeps the text from being read. -/
theorem strings_read_by_characters {p : StringPlace} {left right : List Char}
    (h : p.Encloses left right) :
    (∀ {s w} {source : Source}, SpellsText s w →
      source.characters = .ok (left ++ token w ++ right) →
      ∀ d, source.parse = .ok d ↔ p.IsWithinLimits ∧ d = p.data (.ofList s)) ∧
    ∀ {tail} {source : Source}, source.characters = .ok (left ++ '"' :: tail) →
      ((¬ ∃ s w rest, SpellsText s w ∧ tail = w ++ '"' :: rest) → source.IsUndecodable) ∧
      (IsFaulty tail → source.IsUndecodable) := by
  refine ⟨fun hw hsource d => ?_, fun {tail source} hsource => ?_⟩
  · rw [Source.parse_of_characters hsource]
    exact hw.parse_iff h d
  · have hnone (htail : ¬ ∃ s w rest, SpellsText s w ∧ tail = w ++ '"' :: rest) :
        source.IsUndecodable := by
      rw [Source.isUndecodable_iff, Source.parse_of_characters hsource]
      rintro ⟨d, hd⟩
      exact htail (h.exists_spelling hd)
    refine ⟨hnone, fun hfaulty => hnone ?_⟩
    rintro ⟨s, w, rest, hw, htail⟩
    exact hw.ne_of_isFaulty hfaulty htail

/-- A key with an escape that need not be one, and a key with an escape that there is not. -/
theorem strings_read_by_characters_key :
    (Source.text "\x7b\"a\\/\":null\x7d").parse = .ok (.dict [(.text "a/", .null)]) ∧
      (Source.text "\x7b\"a\\x\":null\x7d").IsUndecodable := by
  have hplace : (StringPlace.key .gap [] (.literal .null) []).Encloses ['\x7b']
      [':', 'n', 'u', 'l', 'l', '\x7d'] :=
    .key (.mk isBlank_nil .gap isBlank_nil) (mark_cons isBlank_nil) .nil (mark_cons isBlank_nil)
      (.literal .null) .nil (mark_cons isBlank_nil)
  have hlimits : (StringPlace.key .gap [] (.literal .null) []).IsWithinLimits :=
    .object (by simpa using IsPaired.nil) (by simpa using .literal .null)
  have hletter : SpellsChar 'a' ['a'] := .raw (by decide) (by decide) (by decide)
  have hslash : SpellsChar '/' ['\\', '/'] := .short (by decide)
  obtain ⟨hread, hreject⟩ := strings_read_by_characters hplace
  refine ⟨(hread (.cons hletter (.cons hslash .nil)) rfl _).mpr ⟨hlimits, rfl⟩, ?_⟩
  have hfault : IsFault ('\\' :: "x\":null\x7d".toList) := by
    refine .escape (by decide) fun e he c => ?_
    obtain rfl : 'x' = e := Option.some.inj he
    simp [shortEscapes]
  exact (hreject rfl).2 (.mk (.cons hletter .nil) hfault)

end JsonAssert
