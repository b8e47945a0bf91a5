import JsonAssert.Proofs.Json.Frames
import JsonAssert.Proofs.Number.NumeralValue

/-! The numerals of a text: each is read as its exact integer or as the nearest float, whatever text
surrounds it, and only a numeral whose rounding is out of range keeps the text from being read. -/
namespace JsonAssert
open Grammar Json

/-- The source is decoded as an object or as an array of objects. -/
def Source.IsDecoded (source : Source) : Prop := ∃ records, (decode source).outcome = .ok records

namespace Grammar.Frame

/-- A document stays one, whatever number it holds. -/
theorem exists_asDocument {f : Frame} {x : Number} {records : List Record} (y : Number)
    (h : (f.data (.number x)).asDocument = .ok records) :
    ∃ records', (f.data (.number y)).asDocument = .ok records' := by
  simp only [Data.asDocument_eq_ok_iff] at h ⊢
  cases f with
  | gap => simp [data] at h
  | member => exact ⟨_, .inr ⟨_, rfl, rfl⟩⟩
  | element before inner after =>
    have hitems : records.map .dict =
        before.map Phrase.data ++ inner.data (.number x) :: after.map Phrase.data := by
      simpa [data, eq_comm] using h
    obtain ⟨first, _, rfl, hfirst, hmore⟩ := List.map_eq_append_iff.mp hitems
    obtain ⟨record, last, rfl, hrecord, hlast⟩ := List.map_eq_cons_iff.mp hmore
    obtain ⟨record', hrecord'⟩ : ∃ record', inner.data (.number y) = .dict record' := by
      cases inner with
      | gap => simp [data] at hrecord
      | element => simp [data] at hrecord
      | member => exact ⟨_, rfl⟩
    refine ⟨first ++ record' :: last, .inl ?_⟩
    rw [data, List.map_append, List.map_cons, hfirst, hlast, hrecord']

end Grammar.Frame

theorem Source.IsDecoded.of_frame {source other : Source} {f : Frame} {x y : Number}
    (h : source.IsDecoded) (hx : source.parse = .ok (f.data (.number x)))
    (hy : other.parse = .ok (f.data (.number y))) : other.IsDecoded := by
  obtain ⟨records, hrecords⟩ := h
  rw [outcome_decode_eq_ok_iff hx, ← Data.asDocument_eq_ok_iff] at hrecords
  obtain ⟨records', hrecords'⟩ := Frame.exists_asDocument y hrecords
  refine ⟨records', ?_⟩
  rwa [outcome_decode_eq_ok_iff hy, ← Data.asDocument_eq_ok_iff]

/-- What is read of a text with another numeral in the place of one. -/
theorem Json.parse_numeral_iff {f : Frame} {n n' : Numeral} {left right w : List Char}
    (hf : EnclosesText f left right)
    (hfits : (f.fill (.numeral n)).Fits IsPaired (¬ ·.Overflows) maxDepth) (hn' : IsNumeral n' w)
    (d : Data) :
    parse (left ++ w ++ right) = .ok d ↔ ∃ x, n'.Reads x ∧ f.data (.number x) = d := by
  rw [parse_fill_iff hf (.numeral hn')]
  constructor
  · rintro ⟨hother, rfl⟩
    obtain ⟨depth, hnumeral⟩ := Frame.fits_of_fits_fill hother
    cases hnumeral with
    | numeral hnot =>
      obtain ⟨x, hx⟩ := n'.exists_number?_iff.mpr hnot
      refine ⟨x, Numeral.number?_eq_some_iff.mp hx, ?_⟩
      rw [Phrase.data, hx, Option.getD_some]
  · rintro ⟨x, hreads, rfl⟩
    have hx := Numeral.number?_eq_some_iff.mpr hreads
    refine ⟨Frame.fits_fill hfits fun _ _ => .numeral (n'.exists_number?_iff.mp ⟨x, hx⟩), ?_⟩
    rw [Phrase.data, hx, Option.getD_some]

/-- Every numeral of a text that is read stands for its integer or for the nearest float. With another
numeral in its place the text is read too, unless the rounding of this numeral is out of range. -/
theorem number_literals_read {source : Source} {d : Data} (h : source.parse = .ok d) :
    ∃ s t, source.characters = .ok s ∧ IsText t s ∧
      (∀ f n, t = Frame.fill f (.numeral n) →
        ∃ left w right, s = left ++ w ++ right ∧ EnclosesText f left right ∧ IsNumeral n w) ∧
      ∀ {f n left w right}, s = left ++ w ++ right → EnclosesText f left right → IsNumeral n w →
        (∃ x, n.Reads x ∧ d = f.data (.number x)) ∧
        ∀ {n' w'} {other : Source}, IsNumeral n' w' → other.characters = .ok (left ++ w' ++ right) →
          (other.IsUndecodable ↔ n'.IsOutOfRange) ∧
          (¬ n'.IsOutOfRange → (∃ x, n'.Reads x ∧ other.parse = .ok (f.data (.number x))) ∧
            (source.IsDecoded → other.IsDecoded)) := by
  obtain ⟨s, hs, hparse⟩ := Source.exists_characters h
  obtain ⟨t, ht, hfits, hdata⟩ := (parse_eq_ok_iff s d).mp hparse
  refine ⟨s, t, hs, ht, ?_, ?_⟩
  · rintro f n rfl
    obtain ⟨left, w, right, hsplit, hf, hw⟩ := exists_enclosesText ht
    cases hw with
    | numeral hn => exact ⟨left, w, right, hsplit, hf, hn⟩
  · rintro f n left w right rfl hf hn
    obtain rfl := text_determined ht (hf.isText (.numeral hn))
    obtain ⟨x, hreads, hx⟩ := (parse_numeral_iff hf hfits hn d).mp hparse
    refine ⟨⟨x, hreads, hx.symm⟩, fun {n' w' other} hn' hother => ⟨?_, fun hrange => ?_⟩⟩
    · rw [Source.isUndecodable_iff, Source.parse_of_characters hother, ← not_iff_not, not_not,
        ← Numeral.exists_reads_iff]
      simp only [parse_numeral_iff hf hfits hn']
      exact ⟨fun ⟨_, y, hy, _⟩ => ⟨y, hy⟩, fun ⟨y, hy⟩ => ⟨_, y, hy, rfl⟩⟩
    · obtain ⟨y, hy⟩ := n'.exists_reads_iff.mpr hrange
      have hread : other.parse = .ok (f.data (.number y)) := by
        rw [Source.parse_of_characters hother]
        exact (parse_numeral_iff hf hfits hn' _).mpr ⟨y, hy, rfl⟩
      exact ⟨⟨y, hy, hread⟩, fun hdecoded => hdecoded.of_frame (hx ▸ h) hread⟩

/-- What is too small for a float keeps its sign. -/
theorem number_literals_read_negativeZero :
    let source : Source := .text "[\x7b\"a\":-1e-500\x7d]"
    let d : Data := .list [.dict [(.text "a", .number (.float (Binary64.zero true)))]]
    source.parse = .ok d ∧ ∃ s t, source.characters = .ok s ∧ IsText t s ∧
      ∀ f n, t = Frame.fill f (.numeral n) → ∃ x, n.Reads x ∧ d = f.data (.number x) := by
  intro source d
  have hparse : source.parse = .ok d := by with_unfolding_all rfl
  obtain ⟨s, t, hs, ht, hplaces, hread⟩ := number_literals_read hparse
  refine ⟨hparse, s, t, hs, ht, fun f n hfill => ?_⟩
  obtain ⟨left, w, right, hsplit, hf, hn⟩ := hplaces f n hfill
  exact (hread hsplit hf hn).1

end JsonAssert
