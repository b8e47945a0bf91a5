import JsonAssert.Proofs.Decoding
import JsonAssert.Proofs.Json.Decoded
import JsonAssert.Proofs.Text.Utf8

/-! The first mark of a document tells its shape: whenever a source is read at all, its first mark
opens an array exactly when the data is a list. So decoding depends on the data alone. -/
namespace JsonAssert
open Json

/-- A visible character of ASCII. -/
def IsGraphic (c : Char) : Prop := 0x20 < c.toNat ∧ c.toNat < 0x80

instance (c : Char) : Decidable (IsGraphic c) := inferInstanceAs (Decidable (_ ∧ _))

namespace Json

theorem literal_not_list {l : Literal} {s rest : List Char} {d : Data}
    (h : literal l s = .ok (d, rest)) (items : List Data) : d ≠ .list items := by
  obtain ⟨-, rfl⟩ := literal_eq h
  cases l <;> simp [Literal.data]

theorem scalar_cons {c : Char} {s rest : List Char} {d : Data}
    (h : scalar (c :: s) = .ok (d, rest)) :
    IsGraphic c ∧ c ≠ '[' ∧ ∀ items, d ≠ .list items := by
  unfold scalar at h
  split at h
  · next heq =>
    obtain ⟨rfl, rfl⟩ : _ ∧ _ := by simpa using heq
    split at h
    · simp at h
    · obtain ⟨rfl, rfl⟩ : _ ∧ _ := by simpa using h
      exact ⟨by decide, by decide, by simp⟩
  · next heq =>
    obtain ⟨rfl, rfl⟩ : _ ∧ _ := by simpa using heq
    exact ⟨by decide, by decide, literal_not_list h⟩
  · next heq =>
    obtain ⟨rfl, rfl⟩ : _ ∧ _ := by simpa using heq
    exact ⟨by decide, by decide, literal_not_list h⟩
  · next heq =>
    obtain ⟨rfl, rfl⟩ : _ ∧ _ := by simpa using heq
    exact ⟨by decide, by decide, literal_not_list h⟩
  · split_ifs at h with hhead
    split at h
    · simp at h
    · obtain ⟨rfl, rfl⟩ : _ ∧ _ := by simpa using h
      simp only [List.head?_cons, Option.any_some, Bool.or_eq_true, beq_iff_eq, isDigit_iff] at hhead
      refine ⟨?_, ?_, by simp⟩
      · rcases hhead with ((⟨hlow, hhigh⟩ | rfl) | rfl) | rfl
        · rw [char_le_iff] at hlow hhigh
          simp only [Char.reduceToNat] at hlow hhigh
          exact ⟨by omega, by omega⟩
        all_goals decide
      · rintro rfl
        revert hhead
        unfold Grammar.IsDigit
        decide

/-- The first character of a value, and what it says of the value. -/
theorem value_cons {rounds depth : ℕ} {c : Char} {s rest : List Char} {d : Data}
    (h : value rounds depth (c :: s) = .ok (d, rest)) :
    IsGraphic c ∧ (c = '[' ↔ ∃ items, d = .list items) := by
  have hscalar (h : scalar (c :: s) = .ok (d, rest)) :
      IsGraphic c ∧ (c = '[' ↔ ∃ items, d = .list items) := by
    obtain ⟨hgraphic, hbracket, hlist⟩ := scalar_cons h
    exact ⟨hgraphic, by simp [hbracket, hlist]⟩
  unfold value at h
  split at h
  · simp at h
  · simp at h
  · next heq =>
    obtain ⟨rfl, rfl⟩ : _ ∧ _ := by simpa using heq
    unfold array at h
    split at h
    · simp at h
    · obtain ⟨rfl, rfl⟩ : _ ∧ _ := by simpa using h
      exact ⟨by decide, by simp⟩
  · next heq =>
    obtain ⟨rfl, rfl⟩ : _ ∧ _ := by simpa using heq
    unfold object at h
    split at h
    · simp at h
    · obtain ⟨rfl, rfl⟩ : _ ∧ _ := by simpa using h
      exact ⟨by decide, by simp⟩
  · exact hscalar h

/-- A text that is read starts, behind its blanks, with a visible character of ASCII. -/
theorem exists_head {s : List Char} {d : Data} (h : parse s = .ok d) :
    ∃ b c s', s = b ++ c :: s' ∧ Grammar.IsBlank b ∧ IsGraphic c ∧
      (c = '[' ↔ ∃ items, d = .list items) := by
  obtain ⟨rest, hread, -⟩ := readsAs_of_standsFor le_rfl ((parse_eq_ok_iff s d).mp h)
  obtain ⟨b, hs, hb⟩ := exists_blanks s
  cases hskip : skipBlanks s with
  | nil => simp [hskip, value, scalar] at hread
  | cons c s' =>
    rw [hskip] at hs hread
    obtain ⟨hgraphic, hlist⟩ := value_cons hread
    exact ⟨b, c, s', hs, hb, hgraphic, hlist⟩

end Json

/-! The dispatch -/

namespace Blank

theorem character_of_isBlank {b : List Char} (h : Grammar.IsBlank b) :
    ∀ c ∈ b, character c = true := by
  intro c hc
  rcases h c hc with rfl | rfl | rfl | rfl <;> decide

theorem character_of_isGraphic {c : Char} (h : IsGraphic c) : character c = false := by
  obtain ⟨hlow, hhigh⟩ := h
  simp only [character, Bool.or_eq_false_iff, Bool.and_eq_false_iff, decide_eq_false_iff_not,
    beq_eq_false_iff_ne]
  omega

theorem byte_of_isBlank {b : List Char} (h : Grammar.IsBlank b) :
    ∀ x ∈ Utf8.encode b, byte x = true := by
  intro x hx
  obtain ⟨c, hc, hxc⟩ := List.mem_flatMap.mp hx
  have hsmall : c.toNat ≤ 0x7F := by
    rcases h c hc with rfl | rfl | rfl | rfl <;> decide
  rw [Utf8.utf8EncodeChar_eq, Utf8.spelling, if_pos hsmall, List.mem_singleton] at hxc
  rw [hxc]
  rcases h c hc with rfl | rfl | rfl | rfl <;> decide

theorem byte_of_isGraphic {x : UInt8} (h : 0x20 < x.toNat) : byte x = false := by
  simp only [byte, UInt8.le_iff_toNat_le, UInt8.reduceToNat, Bool.or_eq_false_iff,
    Bool.and_eq_false_iff, decide_eq_false_iff_not, beq_eq_false_iff_ne, ne_eq, ← UInt8.toNat_inj]
  omega

end Blank

theorem Source.isArray_text {b s : List Char} {c : Char} (hb : Grammar.IsBlank b)
    (hc : IsGraphic c) : (Source.text (.ofList (b ++ c :: s))).isArray = true ↔ c = '[' := by
  have hskip : (b ++ c :: s).dropWhile Blank.character = c :: s := by
    rw [List.dropWhile_append_of_pos (Blank.character_of_isBlank hb),
      List.dropWhile_cons_of_neg (by simp [Blank.character_of_isGraphic hc])]
  rw [isArray, String.toList_ofList, hskip]
  simp

theorem Source.isArray_bytes {b s : List Char} {c : Char} (hb : Grammar.IsBlank b)
    (hc : IsGraphic c) : (Source.bytes (Utf8.encode (b ++ c :: s))).isArray = true ↔ c = '[' := by
  obtain ⟨hlow, hhigh⟩ := hc
  have hbyte := Utf8.toNat_ofNat (n := c.toNat) (by omega)
  have hencode : Utf8.encode (b ++ c :: s) =
      Utf8.encode b ++ UInt8.ofNat c.toNat :: Utf8.encode s := by
    simp only [Utf8.encode, List.flatMap_append, List.flatMap_cons, Utf8.utf8EncodeChar_eq,
      Utf8.spelling]
    rw [if_pos (by omega)]
    rfl
  have hskip : (Utf8.encode (b ++ c :: s)).dropWhile Blank.byte =
      UInt8.ofNat c.toNat :: Utf8.encode s := by
    rw [hencode, List.dropWhile_append_of_pos (Blank.byte_of_isBlank hb),
      List.dropWhile_cons_of_neg (by simp [Blank.byte_of_isGraphic (hbyte ▸ hlow)])]
  have hbracket : UInt8.ofNat c.toNat = 0x5B ↔ c = '[' := by
    rw [← UInt8.toNat_inj, hbyte, ← Char.toNat_inj]
    rfl
  rw [isArray, hskip]
  simpa using hbracket

/-- The first mark of a source that is read opens an array exactly when its data is a list. -/
theorem Source.isArray_iff {source : Source} {d : Data} (h : source.parse = .ok d) :
    source.isArray = true ↔ ∃ items, d = .list items := by
  cases source with
  | text s =>
    obtain ⟨b, c, s', hs, hb, hgraphic, hlist⟩ := exists_head (s := s.toList) h
    rw [← hlist, ← String.ofList_toList (s := s), hs]
    exact isArray_text hb hgraphic
  | bytes bytes =>
    unfold parse at h
    split at h
    · next chars hchars =>
      obtain rfl := Utf8.decode_eq_ok_iff.mp hchars
      obtain ⟨b, c, s', rfl, hb, hgraphic, hlist⟩ := exists_head h
      rw [← hlist]
      exact isArray_bytes hb hgraphic
    · simp at h

theorem Source.isJson_of_parse {source : Source} {d : Data} (h : source.parse = .ok d) :
    d.IsJson maxDepth := by
  unfold parse at h
  split at h
  · exact JsonAssert.isJson_of_parse h
  · simp at h

/-- What is decoded depends on the data alone. -/
theorem outcome_decode_of_parse {source : Source} {d : Data} (h : source.parse = .ok d) :
    (decode source).outcome = d.asDocument.mapError .mismatch := by
  have hdispatch := Source.isArray_iff h
  rw [outcome_decode, decodeArray, decodeObject, outcome_decodeWith, outcome_decodeWith, h]
  cases d with
  | list items =>
    rw [if_pos (hdispatch.mpr ⟨items, rfl⟩)]
    rfl
  | dict entries =>
    rw [if_neg (by simp [hdispatch])]
    rfl
  | _ =>
    rw [if_neg (by simp [hdispatch])]
    rfl

theorem outcome_decode_of_error {source : Source} {report : Report}
    (h : source.parse = .error report) :
    (decode source).outcome = .error (.malformed report) := by
  rw [outcome_decode, decodeArray, decodeObject, outcome_decodeWith, outcome_decodeWith, h]
  split_ifs <;> rfl

/-- What is decoded was read, and has the shape of a document. -/
theorem exists_document {source : Source} {records : List Record}
    (h : (decode source).outcome = .ok records) :
    ∃ d, source.parse = .ok d ∧ d.asDocument = .ok records := by
  cases hparse : source.parse with
  | error report =>
    rw [outcome_decode_of_error hparse] at h
    simp at h
  | ok d =>
    refine ⟨d, rfl, ?_⟩
    rw [outcome_decode_of_parse hparse] at h
    cases hrecords : d.asDocument with
    | error m => simp [hrecords, Except.mapError] at h
    | ok records' => simpa [hrecords, Except.mapError] using h

end JsonAssert
