import JsonAssert.Proofs.Assertion.Generation

/-! A text and its bytes are one document: what comes of a source depends on what the parser makes
of it, and the parser makes the same of both. Bytes that are no text are rejected everywhere. -/
namespace JsonAssert
open Json

namespace Source

/-- Two sources from which everything comes out the same, faults with their places included. -/
structure Agrees (a b : Source) : Prop where
  object : (decodeObject a).outcome = (decodeObject b).outcome
  array : (decodeArray a).outcome = (decodeArray b).outcome
  records : (decode a).outcome = (decode b).outcome
  code (root : String) : (generateFrom a root).outcome = (generateFrom b root).outcome

/-- A source whose text is at fault, whatever is asked of it. -/
structure IsRejected (source : Source) : Prop where
  object : (decodeObject source).IsMalformed
  array : (decodeArray source).IsMalformed
  records : (decode source).IsMalformed
  code (root : String) :
    ∃ report, (generateFrom source root).outcome = .error (.decode (.malformed report))

theorem outcome_decodeWith_congr {α : Type} {a b : Source} (h : a.parse = b.parse) (name : String)
    (accept : Data → Except Mismatch α) :
    (decodeWith name accept a).outcome = (decodeWith name accept b).outcome := by
  rw [outcome_decodeWith, outcome_decodeWith, h]

/-- The decoder that is chosen may differ, but only where neither of them gets any data. -/
theorem agrees_of_parse_eq {a b : Source} (h : a.parse = b.parse) : a.Agrees b where
  object := outcome_decodeWith_congr h _ _
  array := outcome_decodeWith_congr h _ _
  records := by
    cases hb : b.parse with
    | error report => rw [outcome_decode_of_error (h.trans hb), outcome_decode_of_error hb]
    | ok d => rw [outcome_decode_of_parse (h.trans hb), outcome_decode_of_parse hb]
  code root := by
    cases hb : b.parse with
    | error report =>
      rw [outcome_generateFrom_of_error (h.trans hb), outcome_generateFrom_of_error hb]
    | ok d => rw [outcome_generateFrom_of_parse (h.trans hb), outcome_generateFrom_of_parse hb]

theorem isRejected_of_error {source : Source} {report : Report}
    (h : source.parse = .error report) : source.IsRejected where
  object := (isMalformed_decodeWith_iff _ _ source).mpr (by simp [h])
  array := (isMalformed_decodeWith_iff _ _ source).mpr (by simp [h])
  records := (isMalformed_decode_iff source).mpr (by simp [h])
  code root := ⟨report, outcome_generateFrom_of_error h root⟩

end Source

/-- Everything that comes of a text comes of its bytes as well, and of bytes that are those of no
text nothing comes but a fault. -/
theorem bytes_agree_with_text :
    (∀ s : String, (Source.bytes (Utf8.encode s.toList)).Agrees (.text s)) ∧
      ∀ b, (¬ ∃ s : String, b = Utf8.encode s.toList) → (Source.bytes b).IsRejected := by
  constructor
  · intro s
    exact Source.agrees_of_parse_eq (Source.parse_bytes (Utf8.decode_encode s.toList))
  · intro b hb
    cases hdecode : Utf8.decode b with
    | error m => exact Source.isRejected_of_error (Source.parse_bytes_of_error hdecode)
    | ok chars =>
      have hs : b = Utf8.encode (String.ofList chars).toList := by
        rw [String.toList_ofList]
        exact Utf8.decode_eq_ok_iff.mp hdecode
      exact absurd ⟨_, hs⟩ hb

/-- An array behind a blank that counts as one among characters and not among bytes, and a byte that
starts no character. -/
theorem bytes_agree_with_text_noBreakSpace :
    let s := "\u00a0[1]"
    (Source.text s).isArray = true ∧ (Source.bytes (Utf8.encode s.toList)).isArray = false ∧
      (Source.bytes (Utf8.encode s.toList)).Agrees (.text s) ∧
      (¬ ∃ s : String, [0xFF] = Utf8.encode s.toList) ∧ (Source.bytes [0xFF]).IsRejected := by
  intro s
  have hdecode : Utf8.decode [0xFF] = .error ⟨0xFF, 0, 0, .startByte⟩ := by
    rw [Utf8.decode_cons]
    rfl
  have hnone : ¬ ∃ s : String, [0xFF] = Utf8.encode s.toList := by
    rintro ⟨s, hs⟩
    rw [hs, Utf8.decode_encode] at hdecode
    simp at hdecode
  have hbytes : (Source.bytes (Utf8.encode s.toList)).isArray = false := by decide
  have htext : (Source.text s).isArray = true := by decide
  exact ⟨htext, hbytes, bytes_agree_with_text.1 s, hnone, bytes_agree_with_text.2 _ hnone⟩

end JsonAssert
